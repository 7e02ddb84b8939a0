import TypedForest.Text.Utf8

namespace TypedForest.Utf8

/-!
# Texts and their bytes

* `decode_encode`, `encode_of_decode` : a text is read back from its bytes, and no other bytes are
  read as this text;
* `encode_lt_encode_iff` : texts are in the order of their bytes.
-/

/-! ### Bytes and characters -/

theorem toNat_ofNat {n : Nat} (h : n < 256) : (UInt8.ofNat n).toNat = n := by
  rw [UInt8.toNat_ofNat']
  omega

/-- The number of a character is below the surrogates or above them. -/
theorem char_range (c : Char) :
    c.toNat < 0xD800 ∨ (0xDFFF < c.toNat ∧ c.toNat < 0x110000) := by
  have hvalid := c.valid
  simpa [UInt32.isValidChar, Nat.isValidChar] using hvalid

/-- The bytes that go on with a character. -/
theorem isTail_iff {b : UInt8} : isTail b = true ↔ 128 ≤ b.toNat ∧ b.toNat ≤ 191 := by
  rw [isTail, Bool.and_eq_true, decide_eq_true_eq, decide_eq_true_eq, UInt8.le_iff_toNat_le,
    UInt8.le_iff_toNat_le]
  rfl

/-- A second byte is a tail, in a narrower range after some of the first ones: no character has two
    spellings, and none is a surrogate or too large. -/
theorem isSecond_iff {a b : UInt8} : isSecond a b = true ↔
    128 ≤ b.toNat ∧ b.toNat ≤ 191 ∧ (a.toNat = 0xE0 → 0xA0 ≤ b.toNat) ∧
      (a.toNat = 0xED → b.toNat ≤ 0x9F) ∧ (a.toNat = 0xF0 → 0x90 ≤ b.toNat) ∧
      (a.toNat = 0xF4 → b.toNat ≤ 0x8F) := by
  simp only [isSecond, isTail, ← UInt8.toNat_inj, UInt8.le_iff_toNat_le, UInt8.reduceToNat]
  (repeat' split) <;> rw [Bool.and_eq_true, decide_eq_true_eq, decide_eq_true_eq] <;> omega

/-- The characters of one to four bytes, by the first byte. -/
theorem decodeFrom_one {a : UInt8} (ha : a.toNat ≤ 0x7F) (index : Nat) (done : List Char)
    (rest : List UInt8) :
    decodeFrom index done (a :: rest)
      = decodeFrom (index + 1) (Char.ofNat a.toNat :: done) rest := by
  have h₁ : a ≤ 0x7F := UInt8.le_iff_toNat_le.mpr ha
  rw [decodeFrom.eq_def]
  simp only [if_pos h₁]

/-- A character in two bytes is read, and reading goes on after it. -/
theorem decodeFrom_two {a b : UInt8} (hlow : 0xC2 ≤ a.toNat) (hhigh : a.toNat ≤ 0xDF)
    (hb : isTail b = true) (index : Nat) (done : List Char) (rest : List UInt8) :
    decodeFrom index done (a :: b :: rest)
      = decodeFrom (index + 2) (char2 a b :: done) rest := by
  have h₁ : ¬ a ≤ 0x7F := fun h => by
    have h : a.toNat ≤ 0x7F := UInt8.le_iff_toNat_le.mp h
    omega
  have h₂ : 0xC2 ≤ a ∧ a ≤ 0xDF :=
    ⟨UInt8.le_iff_toNat_le.mpr hlow, UInt8.le_iff_toNat_le.mpr hhigh⟩
  rw [decodeFrom, if_neg h₁, if_pos h₂]
  simp only [hb, if_true]

/-- So is one in three bytes. -/
theorem decodeFrom_three {a b c : UInt8} (hlow : 0xE0 ≤ a.toNat) (hhigh : a.toNat ≤ 0xEF)
    (hb : isSecond a b = true) (hc : isTail c = true) (index : Nat) (done : List Char)
    (rest : List UInt8) :
    decodeFrom index done (a :: b :: c :: rest)
      = decodeFrom (index + 3) (char3 a b c :: done) rest := by
  have h₁ : ¬ a ≤ 0x7F := fun h => by
    have h : a.toNat ≤ 0x7F := UInt8.le_iff_toNat_le.mp h
    omega
  have h₂ : ¬ (0xC2 ≤ a ∧ a ≤ 0xDF) := fun h => by
    have h : a.toNat ≤ 0xDF := UInt8.le_iff_toNat_le.mp h.2
    omega
  have h₃ : 0xE0 ≤ a ∧ a ≤ 0xEF :=
    ⟨UInt8.le_iff_toNat_le.mpr hlow, UInt8.le_iff_toNat_le.mpr hhigh⟩
  rw [decodeFrom, if_neg h₁, if_neg h₂, if_pos h₃]
  simp only [hb, hc, Bool.not_true, Bool.false_eq_true, if_false]

/-- So is one in four bytes. -/
theorem decodeFrom_four {a b c d : UInt8} (hlow : 0xF0 ≤ a.toNat) (hhigh : a.toNat ≤ 0xF4)
    (hb : isSecond a b = true) (hc : isTail c = true) (hd : isTail d = true) (index : Nat)
    (done : List Char) (rest : List UInt8) :
    decodeFrom index done (a :: b :: c :: d :: rest)
      = decodeFrom (index + 4) (char4 a b c d :: done) rest := by
  have h₁ : ¬ a ≤ 0x7F := fun h => by
    have h : a.toNat ≤ 0x7F := UInt8.le_iff_toNat_le.mp h
    omega
  have h₂ : ¬ (0xC2 ≤ a ∧ a ≤ 0xDF) := fun h => by
    have h : a.toNat ≤ 0xDF := UInt8.le_iff_toNat_le.mp h.2
    omega
  have h₃ : ¬ (0xE0 ≤ a ∧ a ≤ 0xEF) := fun h => by
    have h : a.toNat ≤ 0xEF := UInt8.le_iff_toNat_le.mp h.2
    omega
  have h₄ : 0xF0 ≤ a ∧ a ≤ 0xF4 :=
    ⟨UInt8.le_iff_toNat_le.mpr hlow, UInt8.le_iff_toNat_le.mpr hhigh⟩
  rw [decodeFrom, if_neg h₁, if_neg h₂, if_neg h₃, if_pos h₄]
  simp only [hb, hc, hd, Bool.not_true, Bool.false_eq_true, if_false]

/-- A character is read back, whatever follows its bytes. -/
theorem decodeFrom_utf8EncodeChar (index : Nat) (done : List Char) (c : Char)
    (rest : List UInt8) :
    ∃ next, decodeFrom index done (String.utf8EncodeChar c ++ rest)
      = decodeFrom next (c :: done) rest := by
  have hrange := char_range c
  -- the bits that were taken apart give the same number again
  have hc : ∀ n, n = c.toNat → Char.ofNat n = c := fun n hn => by rw [hn, Char.ofNat_toNat]
  rw [String.utf8EncodeChar.eq_1, Char.toNat_val]
  split
  · refine ⟨index + 1, ?_⟩
    rw [List.cons_append, List.nil_append, decodeFrom_one (by rw [toNat_ofNat] <;> omega)]
    rw [hc _ (toNat_ofNat (by omega))]
  split
  · refine ⟨index + 2, ?_⟩
    have ha := toNat_ofNat (n := c.toNat / 64 % 32 + 192) (by omega)
    have hb := toNat_ofNat (n := c.toNat % 64 + 128) (by omega)
    rw [List.cons_append, List.cons_append, List.nil_append, decodeFrom_two (by omega) (by omega)
      (isTail_iff.mpr (by omega)), char2, hc _ (by omega)]
  split
  · refine ⟨index + 3, ?_⟩
    have ha := toNat_ofNat (n := c.toNat / 4096 % 16 + 224) (by omega)
    have hb := toNat_ofNat (n := c.toNat / 64 % 64 + 128) (by omega)
    have hd := toNat_ofNat (n := c.toNat % 64 + 128) (by omega)
    rw [List.cons_append, List.cons_append, List.cons_append, List.nil_append,
      decodeFrom_three (by omega) (by omega) (isSecond_iff.mpr (by omega))
        (isTail_iff.mpr (by omega)), char3, hc _ (by omega)]
  · refine ⟨index + 4, ?_⟩
    have ha := toNat_ofNat (n := c.toNat / 262144 % 8 + 240) (by omega)
    have hb := toNat_ofNat (n := c.toNat / 4096 % 64 + 128) (by omega)
    have hd := toNat_ofNat (n := c.toNat / 64 % 64 + 128) (by omega)
    have he := toNat_ofNat (n := c.toNat % 64 + 128) (by omega)
    rw [List.cons_append, List.cons_append, List.cons_append, List.cons_append, List.nil_append,
      decodeFrom_four (by omega) (by omega) (isSecond_iff.mpr (by omega))
        (isTail_iff.mpr (by omega)) (isTail_iff.mpr (by omega)), char4, hc _ (by omega)]

/-- Characters are read one after the other. -/
theorem decodeFrom_flatMap (cs : List Char) (index : Nat) (done : List Char) :
    decodeFrom index done (cs.flatMap String.utf8EncodeChar) = .ok (done.reverse ++ cs) := by
  induction cs generalizing index done with
  | nil =>
    rw [List.flatMap_nil, List.append_nil]
    rfl
  | cons c cs ih =>
    obtain ⟨next, hnext⟩ := decodeFrom_utf8EncodeChar index done c (cs.flatMap _)
    rw [List.flatMap_cons, hnext, ih, List.reverse_cons, List.append_assoc]
    rfl

/-- A text is read back from its bytes. -/
theorem decode_encode (s : String) : decode (encode s) = .ok s := by
  rw [decode, encode, decodeFrom_flatMap]
  simp [Except.map]

/-! ### No other bytes -/

/-- A number that is that of a character is kept. -/
theorem toNat_charOfNat {n : Nat} (h : n < 0xD800 ∨ (0xDFFF < n ∧ n < 0x110000)) :
    (Char.ofNat n).toNat = n := by
  have hvalid : n.isValidChar := h
  rw [Char.ofNat, dif_pos hvalid]
  rfl

theorem ofNat_eq {n : Nat} {b : UInt8} (h : n = b.toNat) : UInt8.ofNat n = b := by
  rw [h, UInt8.ofNat_toNat]

/-- The bytes from which a character is read are its own. -/
theorem utf8EncodeChar_one {a : UInt8} (ha : a.toNat ≤ 0x7F) :
    String.utf8EncodeChar (Char.ofNat a.toNat) = [a] := by
  rw [String.utf8EncodeChar.eq_1, Char.toNat_val, toNat_charOfNat (by omega), if_pos ha,
    UInt8.ofNat_toNat]

/-- A character that was read from two bytes is written as them. -/
theorem utf8EncodeChar_char2 {a b : UInt8} (hlow : 0xC2 ≤ a.toNat) (hhigh : a.toNat ≤ 0xDF)
    (hb : isTail b = true) : String.utf8EncodeChar (char2 a b) = [a, b] := by
  obtain ⟨hblow, hbhigh⟩ := isTail_iff.mp hb
  rw [char2, String.utf8EncodeChar.eq_1, Char.toNat_val, toNat_charOfNat (by omega),
    if_neg (by omega), if_pos (by omega), ofNat_eq (b := a) (by omega),
    ofNat_eq (b := b) (by omega)]

/-- So is one from three bytes. -/
theorem utf8EncodeChar_char3 {a b c : UInt8} (hlow : 0xE0 ≤ a.toNat) (hhigh : a.toNat ≤ 0xEF)
    (hb : isSecond a b = true) (hc : isTail c = true) :
    String.utf8EncodeChar (char3 a b c) = [a, b, c] := by
  obtain ⟨hblow, hbhigh, hE0, hED, -, -⟩ := isSecond_iff.mp hb
  obtain ⟨hclow, hchigh⟩ := isTail_iff.mp hc
  rw [char3, String.utf8EncodeChar.eq_1, Char.toNat_val, toNat_charOfNat (by omega),
    if_neg (by omega), if_neg (by omega), if_pos (by omega), ofNat_eq (b := a) (by omega),
    ofNat_eq (b := b) (by omega), ofNat_eq (b := c) (by omega)]

/-- So is one from four bytes. -/
theorem utf8EncodeChar_char4 {a b c d : UInt8} (hlow : 0xF0 ≤ a.toNat) (hhigh : a.toNat ≤ 0xF4)
    (hb : isSecond a b = true) (hc : isTail c = true) (hd : isTail d = true) :
    String.utf8EncodeChar (char4 a b c d) = [a, b, c, d] := by
  obtain ⟨hblow, hbhigh, -, -, hF0, hF4⟩ := isSecond_iff.mp hb
  obtain ⟨hclow, hchigh⟩ := isTail_iff.mp hc
  obtain ⟨hdlow, hdhigh⟩ := isTail_iff.mp hd
  rw [char4, String.utf8EncodeChar.eq_1, Char.toNat_val, toNat_charOfNat (by omega),
    if_neg (by omega), if_neg (by omega), if_neg (by omega), ofNat_eq (b := a) (by omega),
    ofNat_eq (b := b) (by omega), ofNat_eq (b := c) (by omega), ofNat_eq (b := d) (by omega)]

/-- Characters that were read are written as the bytes that they were read from. -/
theorem flatMap_of_decodeFrom {index : Nat} {done : List Char} {bs : List UInt8} {cs : List Char}
    (h : decodeFrom index done bs = .ok cs) :
    ∃ ds, cs = done.reverse ++ ds ∧ ds.flatMap String.utf8EncodeChar = bs := by
  -- one more character in front, with the bytes that it was read from
  have hcons : ∀ {c : Char} {done : List Char} {front rest : List UInt8},
      String.utf8EncodeChar c = front →
      (∃ ds, cs = (c :: done).reverse ++ ds ∧ ds.flatMap String.utf8EncodeChar = rest) →
      ∃ ds, cs = done.reverse ++ ds ∧ ds.flatMap String.utf8EncodeChar = front ++ rest := by
    rintro c done _ _ rfl ⟨ds, rfl, rfl⟩
    exact ⟨c :: ds, by simp, List.flatMap_cons⟩
  fun_induction decodeFrom index done bs with
  | case1 index done =>
    cases h
    exact ⟨[], by simp⟩
  | case2 index done a rest ha ih =>
    exact hcons (utf8EncodeChar_one (UInt8.le_iff_toNat_le.mp ha)) (ih h)
  | case4 index done a _ ha b rest hb ih =>
    have hlow := UInt8.le_iff_toNat_le.mp ha.1
    have hhigh := UInt8.le_iff_toNat_le.mp ha.2
    exact hcons (utf8EncodeChar_char2 hlow hhigh hb) (ih h)
  | case10 index done a _ _ ha b c rest hb hc ih =>
    have hlow := UInt8.le_iff_toNat_le.mp ha.1
    have hhigh := UInt8.le_iff_toNat_le.mp ha.2
    exact hcons (utf8EncodeChar_char3 hlow hhigh (by simpa using hb) (by simpa using hc)) (ih h)
  | case17 index done a _ _ _ ha b c d rest hb hc hd ih =>
    have hlow := UInt8.le_iff_toNat_le.mp ha.1
    have hhigh := UInt8.le_iff_toNat_le.mp ha.2
    exact hcons (utf8EncodeChar_char4 hlow hhigh (by simpa using hb) (by simpa using hc)
      (by simpa using hd)) (ih h)
  | _ => cases h

/-- Bytes that are read as a text are the bytes of this text. -/
theorem encode_of_decode {bs : List UInt8} {s : String} (h : decode bs = .ok s) :
    encode s = bs := by
  rw [decode] at h
  cases hcs : decodeFrom 0 [] bs with
  | error fault =>
    rw [hcs] at h
    cases h
  | ok cs =>
    rw [hcs] at h
    cases h
    obtain ⟨ds, rfl, hds⟩ := flatMap_of_decodeFrom hcs
    rw [encode, String.toList_ofList]
    exact hds

/-! ### The order of texts -/

/-- Lists of bytes are compared by the first byte, and then by the rest. -/
theorem cons_lt_cons_ofNat {m n : Nat} (hn : n < 256) {xs ys : List UInt8} (hle : m ≤ n)
    (heq : m = n → xs < ys) : UInt8.ofNat m :: xs < UInt8.ofNat n :: ys := by
  rw [List.cons_lt_cons_iff, UInt8.lt_iff_toNat_lt, toNat_ofNat hn, toNat_ofNat (by omega)]
  rcases Nat.lt_or_eq_of_le hle with h | h
  · exact .inl h
  · exact .inr ⟨by rw [h], heq h⟩

/-- The bytes of a lesser character are less, whatever follows. -/
theorem utf8EncodeChar_append_lt {c d : Char} (h : c < d) (xs ys : List UInt8) :
    String.utf8EncodeChar c ++ xs < String.utf8EncodeChar d ++ ys := by
  have hlt : c.toNat < d.toNat := h
  have hc := char_range c
  have hd := char_range d
  rw [String.utf8EncodeChar.eq_1, String.utf8EncodeChar.eq_1, Char.toNat_val, Char.toNat_val]
  -- the first bytes differ unless the characters have as many bytes, and then one byte differs
  split
  · (repeat' split) <;> exact cons_lt_cons_ofNat (by omega) (by omega) fun _ => by omega
  rw [if_neg (show ¬ d.toNat ≤ 127 by omega)]
  split
  · split
    · exact cons_lt_cons_ofNat (by omega) (by omega) fun _ =>
        cons_lt_cons_ofNat (by omega) (by omega) fun _ => by omega
    · split <;> exact cons_lt_cons_ofNat (by omega) (by omega) fun _ => by omega
  rw [if_neg (show ¬ d.toNat ≤ 2047 by omega)]
  split
  · split
    · exact cons_lt_cons_ofNat (by omega) (by omega) fun _ =>
        cons_lt_cons_ofNat (by omega) (by omega) fun _ =>
        cons_lt_cons_ofNat (by omega) (by omega) fun _ => by omega
    · exact cons_lt_cons_ofNat (by omega) (by omega) fun _ => by omega
  rw [if_neg (show ¬ d.toNat ≤ 65535 by omega)]
  exact cons_lt_cons_ofNat (by omega) (by omega) fun _ =>
    cons_lt_cons_ofNat (by omega) (by omega) fun _ =>
    cons_lt_cons_ofNat (by omega) (by omega) fun _ =>
    cons_lt_cons_ofNat (by omega) (by omega) fun _ => by omega

/-- Lists of characters are compared as their bytes are. -/
theorem flatMap_lt {cs ds : List Char} (h : cs < ds) :
    cs.flatMap String.utf8EncodeChar < ds.flatMap String.utf8EncodeChar := by
  induction cs generalizing ds with
  | nil =>
    cases ds with
    | nil => exact absurd h (List.lt_irrefl _)
    | cons d ds =>
      obtain ⟨b, bs, hbytes⟩ := List.exists_cons_of_ne_nil (String.utf8EncodeChar_ne_nil (c := d))
      rw [List.flatMap_nil, List.flatMap_cons, hbytes]
      exact List.nil_lt_cons b _
  | cons c cs ih =>
    cases ds with
    | nil => exact absurd h (List.not_lt_nil _)
    | cons d ds =>
      rw [List.flatMap_cons, List.flatMap_cons]
      -- the first characters differ, or the rests do
      rcases List.cons_lt_cons_iff.mp h with hlt | ⟨rfl, hlt⟩
      · exact utf8EncodeChar_append_lt hlt _ _
      · exact List.append_left_lt (ih hlt)

/-- Texts are in the order of their bytes. -/
theorem encode_lt_encode_iff {a b : String} : encode a < encode b ↔ a < b := by
  constructor
  · intro h
    by_cases hlt : a < b
    · exact hlt
    by_cases heq : a = b
    · exact absurd (heq ▸ h) (List.lt_irrefl _)
    · have hgt : b < a := Std.lt_of_le_of_ne hlt fun hba => heq hba.symm
      exact absurd (flatMap_lt (String.lt_iff.mp hgt)) (List.lt_asymm h)
  · exact fun h => flatMap_lt (String.lt_iff.mp h)

end TypedForest.Utf8
