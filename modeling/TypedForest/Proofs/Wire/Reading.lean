import TypedForest.Proofs.Text.Utf8
import TypedForest.Wire.Header
import TypedForest.Wire.Writer

namespace TypedForest

/-!
# Reading back what was written

`Wire.Reads r bytes a` says that the reader `r` takes exactly `bytes` off the front, whatever
follows them, and returns `a`.  This composes over sequences of readers, and it makes a format
self-delimiting (`Wire.Reads.unique`): what is read from given bytes, and where it ends, does
not depend on what follows.

The module proves it of the parts that all others consist of: bytes, numbers of variable length
and floating-point numbers.  Lengths are read into words of 64 bits, so they must be below
`Wire.wordLimit`.
-/

namespace Wire

/-! ### Readers and the bytes they take -/

/-- The reader takes these bytes off the front, whatever follows, and returns `a`. -/
def Reads {α : Type} (r : Reader α) (bytes : List UInt8) (a : α) : Prop :=
  ∀ rest, r (bytes ++ rest) = .ok (a, rest)

/-- What is read, and where it ends, does not depend on what follows. -/
theorem Reads.unique {α : Type} {r : Reader α} {bs cs : List UInt8} {a b : α}
    (ha : Reads r bs a) (hb : Reads r cs b) {rest rest' : List UInt8}
    (h : bs ++ rest = cs ++ rest') : a = b ∧ rest = rest' := by
  have hread := ha rest
  rw [h, hb rest'] at hread
  cases hread
  exact ⟨rfl, rfl⟩

/-- A value that is given takes no bytes. -/
theorem reads_pure {α : Type} (a : α) : Reads (pure a) [] a := fun _ => rfl

/-- Bytes after bytes are read by one reader after the other. -/
theorem Reads.bind {α β : Type} {r : Reader α} {f : α → Reader β} {bs cs : List UInt8} {a : α}
    {b : β} (hr : Reads r bs a) (hf : Reads (f a) cs b) : Reads (r >>= f) (bs ++ cs) b := by
  intro rest
  show (r ((bs ++ cs) ++ rest) >>= fun p => f p.1 p.2) = _
  rw [List.append_assoc, hr (cs ++ rest)]
  exact hf rest

/-- A last step that takes no bytes. -/
theorem Reads.bind_nil {α β : Type} {r : Reader α} {f : α → Reader β} {bs : List UInt8} {a : α}
    {b : β} (hr : Reads r bs a) (hf : Reads (f a) [] b) : Reads (r >>= f) bs b := by
  have hbind := hr.bind hf
  rwa [List.append_nil] at hbind

/-- What is made of something that was read takes no more bytes. -/
theorem Reads.map {α β : Type} {r : Reader α} {bs : List UInt8} {a : α} (hr : Reads r bs a)
    (f : α → β) : Reads (r >>= fun a => pure (f a)) bs (f a) :=
  hr.bind_nil (reads_pure (f a))

/-- A byte is read as it is. -/
theorem reads_readByte (field : Field) (b : UInt8) : Reads (readByte field) [b] b :=
  fun _ => rfl

/-- So are as many bytes as are asked for. -/
theorem reads_readBytes (field : Field) (bs : List UInt8) :
    Reads (readBytes bs.length field) bs bs := by
  intro rest
  simp [readBytes]

/-! ### Numbers -/

/-- The number of words of 64 bits. -/
def wordLimit : Nat := 0x10000000000000000

/-- A number takes at most as many groups as it has, and the last group that a word can have
    is zero or one. -/
theorem reads_readGroups_writeUnsigned (field : Field) {k n : Nat} (h : n < 2 * Nat.pow 128 k) :
    Reads (readGroups (fun b => b == 0x00 || b == 0x01) field k) (writeUnsigned n)
      (writeUnsigned n) := by
  intro rest
  induction k generalizing n with
  -- one bit of the word is left for the last group
  | zero =>
    have h : n < 2 := h
    rw [writeUnsigned, if_pos (by omega)]
    rcases (by omega : n = 0 ∨ n = 1) with rfl | rfl <;> rfl
  | succ k ih =>
    have hpow : Nat.pow 128 (k + 1) = Nat.pow 128 k * 128 := rfl
    rw [writeUnsigned]
    split
    · next hlt =>
      have hb : UInt8.ofNat n < 128 := by
        rw [UInt8.lt_iff_toNat_lt, Utf8.toNat_ofNat (by omega)]
        exact hlt
      rw [List.cons_append, List.nil_append, readGroups, if_pos hb]
    · next hge =>
      have hb : ¬ UInt8.ofNat (n % 128 + 128) < 128 := by
        rw [UInt8.lt_iff_toNat_lt, Utf8.toNat_ofNat (by omega)]
        show ¬ n % 128 + 128 < 128
        omega
      rw [List.cons_append, readGroups, if_neg hb, ih (by omega)]

/-- The groups that are written for a number stand for it. -/
theorem groupsToNat_writeUnsigned (n : Nat) : groupsToNat (writeUnsigned n) = n := by
  fun_induction writeUnsigned n with
  | case1 n hlt =>
    rw [groupsToNat, groupsToNat, Utf8.toNat_ofNat (by omega)]
    omega
  | case2 n hge ih =>
    rw [groupsToNat, ih, Utf8.toNat_ofNat (by omega)]
    omega

/-- A length below the limit is read back. -/
theorem reads_readUnsigned (field : Field) {n : Nat} (h : n < wordLimit) :
    Reads (readUnsigned field) (writeUnsigned n) n := by
  have hgroups := (reads_readGroups_writeUnsigned field (k := 9) (n := n) h).map groupsToNat
  rw [groupsToNat_writeUnsigned] at hgroups
  exact hgroups

/-- The last group that a signed word can have is nothing but the sign. -/
theorem reads_readGroups_writeSigned (field : Field) {k : Nat} {i : Int}
    (hlow : -(Nat.pow 128 k : Int) ≤ i) (hhigh : i < (Nat.pow 128 k : Int)) :
    Reads (readGroups (fun b => b == 0x00 || b == 0x7F) field k) (writeSigned i)
      (writeSigned i) := by
  intro rest
  induction k generalizing i with
  -- only the sign is left for the last group
  | zero =>
    have hlow : -1 ≤ i := hlow
    have hhigh : i < 1 := hhigh
    rw [writeSigned, if_pos (by omega)]
    rcases (by omega : i = 0 ∨ i = -1) with rfl | rfl <;> rfl
  | succ k ih =>
    have hpow : (Nat.pow 128 (k + 1) : Int) = Nat.pow 128 k * 128 := rfl
    rw [writeSigned]
    split
    · have hb : UInt8.ofNat (i % 128).toNat < 128 := by
        rw [UInt8.lt_iff_toNat_lt, Utf8.toNat_ofNat (by omega)]
        show (i % 128).toNat < 128
        omega
      rw [List.cons_append, List.nil_append, readGroups, if_pos hb]
    · have hb : ¬ UInt8.ofNat ((i % 128).toNat + 128) < 128 := by
        rw [UInt8.lt_iff_toNat_lt, Utf8.toNat_ofNat (by omega)]
        show ¬ (i % 128).toNat + 128 < 128
        omega
      rw [List.cons_append, readGroups, if_neg hb, ih (by omega) (by omega)]

/-- An integer takes at least one byte. -/
theorem writeSigned_ne_nil (i : Int) : writeSigned i ≠ [] := by
  rw [writeSigned]
  split <;> simp

/-- A group before others is the lowest seven bits; the sign is in the last one. -/
theorem groupsToInt_cons {b : UInt8} {bs : List UInt8} (h : bs ≠ []) :
    groupsToInt (b :: bs) = (b.toNat % 128 : Nat) + 128 * groupsToInt bs := by
  have hsign : signBit (b :: bs) = signBit bs := by
    cases bs with
    | nil => exact absurd rfl h
    | cons c cs => rfl
  have hpow : (Nat.pow 128 (b :: bs).length : Int) = Nat.pow 128 bs.length * 128 := rfl
  unfold groupsToInt
  rw [hsign, groupsToNat, hpow]
  split
  · push_cast
    omega
  · push_cast
    omega

/-- The groups that are written for an integer stand for it. -/
theorem groupsToInt_writeSigned (i : Int) : groupsToInt (writeSigned i) = i := by
  fun_induction writeSigned i with
  | case1 i hi =>
    have hbyte : (UInt8.ofNat (i % 128).toNat).toNat = (i % 128).toNat :=
      Utf8.toNat_ofNat (by omega)
    unfold groupsToInt
    simp only [signBit, groupsToNat, hbyte, List.length_singleton]
    have hpow : (Nat.pow 128 1 : Int) = 128 := rfl
    -- the last group has the sign in its highest bit
    by_cases hneg : i < 0
    · rw [if_pos (by rw [decide_eq_true_eq]; omega), hpow]
      omega
    · rw [if_neg (by rw [decide_eq_true_eq]; omega)]
      omega
  | case2 i hi ih =>
    rw [groupsToInt_cons (writeSigned_ne_nil _), ih, Utf8.toNat_ofNat (by omega)]
    omega

/-- A word with sign is read back. -/
theorem reads_readSigned (field : Field) (i : Int64) :
    Reads (readSigned field) (writeSigned i.toInt) i := by
  have hlow : -(Nat.pow 128 9 : Int) ≤ i.toInt := Int64.le_toInt i
  have hhigh : i.toInt < (Nat.pow 128 9 : Int) := Int64.toInt_lt i
  have hgroups := (reads_readGroups_writeSigned field hlow hhigh).map
    fun bs => Int64.ofInt (groupsToInt bs)
  rw [groupsToInt_writeSigned, Int64.ofInt_toInt] at hgroups
  exact hgroups

/-! ### Bytes of fixed length -/

theorem length_littleEndian (n x : Nat) : (littleEndian n x).length = n := by
  induction n generalizing x with
  | zero => rfl
  | succ n ih => rw [littleEndian, List.length_cons, ih]

/-- A number that so many bytes have room for is what they stand for. -/
theorem ofLittleEndian_littleEndian {n x : Nat} (h : x < Nat.pow 256 n) :
    ofLittleEndian (littleEndian n x) = x := by
  induction n generalizing x with
  | zero =>
    have h : x < 1 := h
    rw [littleEndian, ofLittleEndian]
    omega
  | succ n ih =>
    have hpow : Nat.pow 256 (n + 1) = Nat.pow 256 n * 256 := rfl
    rw [littleEndian, ofLittleEndian, ih (by omega), Utf8.toNat_ofNat (by omega)]
    omega

/-- The bits of a floating-point number are read back. -/
theorem reads_float (x : Binary64) :
    Reads (readBytes 8 .float >>= fun bs => pure (Value.float ⟨UInt64.ofNat (ofLittleEndian bs)⟩))
      (littleEndian 8 x.bits.toNat) (.float x) := by
  have hbytes := reads_readBytes .float (littleEndian 8 x.bits.toNat)
  rw [length_littleEndian] at hbytes
  have hread := hbytes.map fun bs => Value.float ⟨UInt64.ofNat (ofLittleEndian bs)⟩
  rw [ofLittleEndian_littleEndian x.bits.toNat_lt, UInt64.ofNat_toNat] at hread
  exact hread

end Wire

end TypedForest
