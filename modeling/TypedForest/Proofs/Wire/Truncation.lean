import TypedForest.Proofs.Store.Run
import TypedForest.Proofs.Wire.Frames

namespace TypedForest

/-!
# Bytes that end too early

More bytes can only cure one kind of failure: that the bytes ended too early.  Every reader is
`Stable`: unless it runs out of bytes, it does the same when more bytes follow, and leaves these
over.  Stability passes on from the readers of single parts to all others, and along the open
frames to whole trees (`Wire.readFrames_append`).

So no accepted bytes are the beginning of other accepted bytes, and of the errors only the count
of bytes left over depends on what follows (`Store.decode_prefix_free`).
-/

/-- The same error when `count` more bytes follow: they are left over as well. -/
def WireError.withMore (count : Nat) : WireError → WireError
  | .malformed (.trailingBytes n) => .malformed (.trailingBytes (n + count))
  | e => e

/-- Only the count of the bytes that are left over grows with them. -/
theorem WireError.withMore_of_ne {e : WireError} (he : ∀ n, e ≠ .malformed (.trailingBytes n))
    (count : Nat) : e.withMore count = e := by
  unfold withMore
  split
  · next n => exact absurd rfl (he n)
  · rfl

namespace Wire

/-! ### Stable readers -/

/-- Unless it runs out of bytes, a reader does the same when more bytes follow. -/
def Stable {α : Type} (r : Reader α) : Prop :=
  ∀ data more, (∀ field, r data ≠ .error (.truncated field)) →
    r (data ++ more) = match r data with
      | .ok (a, rest) => .ok (a, rest ++ more)
      | .error e => .error (e.withMore more.length)

/-- What a stable reader has read it reads again when bytes follow, and leaves them. -/
theorem Stable.of_ok {α : Type} {r : Reader α} (hr : Stable r) {data rest : List UInt8} {a : α}
    (h : r data = .ok (a, rest)) (more : List UInt8) :
    r (data ++ more) = .ok (a, rest ++ more) := by
  have hstable := hr data more fun field htrunc => by
    rw [h] at htrunc
    cases htrunc
  rw [hstable, h]

/-- What a stable reader has refused it refuses again, for the same reason. -/
theorem Stable.of_error {α : Type} {r : Reader α} (hr : Stable r) {data : List UInt8}
    {e : WireError} (h : r data = .error e) (he : ∀ field, e ≠ .truncated field)
    (more : List UInt8) : r (data ++ more) = .error (e.withMore more.length) := by
  have hstable := hr data more fun field htrunc => by
    rw [h, Except.error.injEq] at htrunc
    exact he field htrunc
  rw [hstable, h]

/-- A reader after one that has read something starts from the rest. -/
theorem bind_of_ok {α β : Type} {r : Reader α} {data mid : List UInt8} {a : α}
    (h : r data = .ok (a, mid)) (f : α → Reader β) : (r >>= f) data = f a mid := by
  show (r data >>= fun p => f p.1 p.2) = _
  rw [h]
  rfl

/-- A reader after one that has refused is not started. -/
theorem bind_of_error {α β : Type} {r : Reader α} {data : List UInt8} {e : WireError}
    (h : r data = .error e) (f : α → Reader β) : (r >>= f) data = .error e := by
  show (r data >>= fun p => f p.1 p.2) = _
  rw [h]
  rfl

/-- Stable readers one after the other are stable. -/
theorem Stable.bind {α β : Type} {r : Reader α} {f : α → Reader β} (hr : Stable r)
    (hf : ∀ a, Stable (f a)) : Stable (r >>= f) := by
  intro data more h
  cases hfirst : r data with
  | error e =>
    rw [bind_of_error hfirst] at h ⊢
    have he : ∀ field, e ≠ .truncated field := fun field heq => h field (by rw [heq])
    exact bind_of_error (hr.of_error hfirst he more) f
  | ok p =>
    obtain ⟨a, mid⟩ := p
    rw [bind_of_ok hfirst] at h ⊢
    rw [bind_of_ok (hr.of_ok hfirst more)]
    exact hf a mid more h

/-- A number of bytes is read in a stable way. -/
theorem stable_readBytes (n : Nat) (field : Field) : Stable (readBytes n field) := by
  intro data more h
  by_cases hlength : data.length < n
  · -- too few bytes, which is what stability leaves out
    refine absurd ?_ (h field)
    simp only [readBytes, List.splitAt_eq, List.length_take]
    rw [if_pos (by omega)]
  · have hle : n ≤ data.length := Nat.le_of_not_lt hlength
    simp only [readBytes, List.splitAt_eq, List.length_take, List.length_append]
    rw [if_neg (by omega), if_neg (by omega), List.take_append_of_le_length hle,
      List.drop_append_of_le_length hle]

/-- A number that is too long is reported at its last byte. -/
theorem stable_overflow {α : Type} (field : Field) (last : UInt8) :
    Stable (overflow field last : Reader α) := by
  intro data more h
  induction data generalizing last with
  | nil =>
    -- the bytes end here, so the last one was no continuation
    have hlast : last < 128 := by
      by_contra hlast
      refine h field ?_
      rw [overflow, if_neg hlast]
    cases more with
    | nil =>
      rw [List.nil_append, overflow, if_pos hlast]
      rfl
    | cons b more =>
      rw [List.nil_append, overflow, overflow, if_pos hlast, if_pos hlast]
      rfl
  | cons b data ih =>
    rw [List.cons_append]
    by_cases hlast : last < 128
    · rw [overflow, overflow, if_pos hlast, if_pos hlast]
      rfl
    · rw [overflow, if_neg hlast] at h ⊢
      rw [overflow, if_neg hlast]
      exact ih b h

/-- Groups are read in a stable way: a byte tells whether another one follows. -/
theorem stable_readGroups (allowed : UInt8 → Bool) (field : Field) (n : Nat) :
    Stable (readGroups allowed field n) := by
  intro data more h
  induction data generalizing n with
  | nil => cases n <;> exact absurd rfl (h field)
  | cons b data ih =>
    rw [List.cons_append]
    cases n with
    | zero =>
      rw [readGroups] at h ⊢
      rw [readGroups]
      by_cases hb : allowed b = true
      · rw [if_pos hb, if_pos hb]
      · rw [if_neg hb] at h ⊢
        rw [if_neg hb]
        exact stable_overflow field b data more h
    | succ n =>
      rw [readGroups] at h ⊢
      rw [readGroups]
      by_cases hb : b < 128
      · rw [if_pos hb, if_pos hb]
      · rw [if_neg hb] at h ⊢
        rw [if_neg hb]
        -- the bytes after `b` decide, and they are read in a stable way
        cases hrest : readGroups allowed field n data with
        | error e =>
          rw [hrest] at h
          have hstable := ih n fun field' htrunc => h field' (by rw [← htrunc, hrest])
          rw [hstable, hrest]
        | ok p =>
          have hstable := ih n fun field' htrunc => by
            rw [hrest] at htrunc
            cases htrunc
          rw [hstable, hrest]

/-- All readers are stable, since those of bytes and of numbers are. -/
theorem compositional_stable : Compositional Stable where
  pure a := fun _ _ _ => rfl
  fail e he := by
    intro data more h
    show Except.error e = Except.error (e.withMore more.length)
    rw [WireError.withMore_of_ne]
    rintro n rfl
    exact he
  bind hr hf := hr.bind hf
  readByte field _ := by
    intro data more h
    cases data with
    | nil => exact absurd rfl (h field)
    | cons b data => rfl
  readBytes n field _ := stable_readBytes n field
  readGroups allowed field n _ := stable_readGroups allowed field n

/-! ### Whole trees -/

/-- A node that is not made is rejected by the store. -/
theorem eq_rejected_of_make {f : Frame} {s s' : Store} {e : WireError}
    (h : f.make s = .error e s') : ∃ error, e = .rejected error := by
  unfold Frame.make at h
  split at h
  · next error s₁ _ =>
    cases h
    exact ⟨error, rfl⟩
  · split at h
    · next error s₂ _ =>
      cases h
      exact ⟨error, rfl⟩
    · cases h

/-- An outcome of reading when `more` follows: it is left over. -/
def followedBy (more : List UInt8) :
    EStateM.Result WireError Store (Handle × List UInt8) →
      EStateM.Result WireError Store (Handle × List UInt8)
  | .ok (h, rest) s => .ok (h, rest ++ more) s
  | .error e s => .error (e.withMore more.length) s

/-- The head of a node is read from the longer bytes as well. -/
theorem descend_append_of_ok {outer : List Frame} {data rest : List UInt8} {s : Store} {g : Frame}
    (h : readHeader s.schema data = .ok (g, rest)) (more : List UInt8) :
    descend outer (data ++ more) s = readFrames (g :: outer) (rest ++ more) s := by
  have hmore := (compositional_stable.readHeader s.schema).of_ok h more
  simp only [descend, hmore]

theorem descend_append_of_error {outer : List Frame} {data : List UInt8} {s : Store}
    {e : WireError} (h : readHeader s.schema data = .error e)
    (he : ∀ field s', (.error e s : EStateM.Result WireError Store (Handle × List UInt8))
      ≠ .error (.truncated field) s') (more : List UInt8) :
    descend outer (data ++ more) s = .error (e.withMore more.length) s := by
  have hmore := (compositional_stable.readHeader s.schema).of_error h
    (fun field heq => he field s (by rw [heq])) more
  simp only [descend, hmore]

/-- Reading trees is stable too. -/
theorem readFrames_append (frames : List Frame) (data : List UInt8) (s : Store)
    (more : List UInt8)
    (h : ∀ field s', readFrames frames data s ≠ .error (.truncated field) s') :
    readFrames frames (data ++ more) s = followedBy more (readFrames frames data s) := by
  -- along the calls on the shorter bytes: each reads its part from the longer ones as well, and
  -- the calls that run out of bytes are left out
  fun_induction readFrames frames data s with
  | case1 data s => exact absurd rfl (h .rootNode s)
  | case2 data s f outer left nodes hlist e he =>
    rw [readFrames_of_item _ _ _ hlist]
    exact descend_append_of_error he h more
  | case3 data s f outer left nodes hlist g rest hg ih =>
    rw [readFrames_of_item _ _ _ hlist, descend_append_of_ok hg]
    exact ih h
  | case4 data s f outer nodes hlist ih =>
    rw [readFrames_of_listEnd _ _ _ hlist]
    simp only [List.unattach_reverse, List.unattach_attach] at ih
    exact ih h
  | case5 s f outer hlist n hslots => exact absurd rfl (h .slotTag s)
  | case6 s f outer hlist n hslots data ih =>
    rw [List.cons_append, readFrames_of_slot _ _ _ hlist hslots, if_pos rfl]
    exact ih h
  | case7 s f outer hlist n hslots data e he htag =>
    rw [List.cons_append, readFrames_of_slot _ _ _ hlist hslots, if_neg htag, if_pos rfl]
    exact descend_append_of_error he h more
  | case8 s f outer hlist n hslots data g rest hg htag ih =>
    rw [List.cons_append, readFrames_of_slot _ _ _ hlist hslots, if_neg htag, if_pos rfl,
      descend_append_of_ok hg]
    exact ih h
  | case9 s f outer hlist n hslots data e he hvacant hone =>
    have hmore := (compositional_stable.readUnsigned .listLength (by decide)).of_error he
      (fun field heq => h field s (by rw [heq])) more
    rw [List.cons_append, readFrames_of_slot _ _ _ hlist hslots, if_neg hvacant, if_neg hone,
      if_pos rfl, hmore]
    rfl
  | case10 s f outer hlist n hslots data m rest hm hvacant hone ih =>
    have hmore := (compositional_stable.readUnsigned .listLength (by decide)).of_ok hm more
    rw [List.cons_append, readFrames_of_slot _ _ _ hlist hslots, if_neg hvacant, if_neg hone,
      if_pos rfl, hmore]
    exact ih h
  | case11 s f outer hlist n hslots tag data hvacant hone hmany =>
    rw [List.cons_append, readFrames_of_slot _ _ _ hlist hslots, if_neg hvacant, if_neg hone,
      if_neg hmany]
    rfl
  | case12 data s f outer hlist hslots e s' hmake =>
    obtain ⟨error, rfl⟩ := eq_rejected_of_make hmake
    rw [readFrames_of_complete _ _ _ hlist hslots, hmake]
    rfl
  | case13 data s f hlist hslots r s' hmake =>
    rw [readFrames_of_complete _ _ _ hlist hslots, hmake]
    rfl
  | case14 data s f hlist hslots r s' hmake g outer ih =>
    rw [readFrames_of_complete _ _ _ hlist hslots, hmake]
    exact ih h

end Wire

/-! ### Prefixes -/

namespace Store

/-- What becomes of an outcome when more bytes follow: a tree that was complete has bytes left
    over. -/
def overrun (more : List UInt8) :
    EStateM.Result WireError Store Handle → EStateM.Result WireError Store Handle
  | .ok root s =>
    if more.isEmpty then .ok root s else .error (.malformed (.trailingBytes more.length)) s
  | .error e s => .error (e.withMore more.length) s

/-- Unless the bytes end too early, those that follow only count as bytes left over. -/
theorem decode_append {data : List UInt8} {s : Store}
    (h : ∀ field s', decode data s ≠ .error (.truncated field) s') (more : List UInt8) :
    decode (data ++ more) s = overrun more (decode data s) := by
  unfold decode at h ⊢
  -- what is read first is stable, so that only the frames get to see the bytes that follow
  cases hpre : Wire.readPreamble data with
  | error e =>
    simp only [hpre] at h
    have he : ∀ field, e ≠ .truncated field := fun field heq => h field s (by rw [heq])
    simp only [Wire.compositional_stable.readPreamble.of_error hpre he more, overrun]
  | ok p =>
    obtain ⟨⟨⟩, afterPreamble⟩ := p
    simp only [hpre] at h
    simp only [Wire.compositional_stable.readPreamble.of_ok hpre more]
    have hstable := Wire.compositional_stable.readHeader s.schema
    cases hheader : Wire.readHeader s.schema afterPreamble with
    | error e =>
      simp only [hheader] at h
      have he : ∀ field, e ≠ .truncated field := fun field heq => h field s (by rw [heq])
      simp only [hstable.of_error hheader he more, overrun]
    | ok p =>
      obtain ⟨f, afterHeader⟩ := p
      simp only [hheader] at h
      simp only [hstable.of_ok hheader more]
      rw [Wire.readFrames_append [f] afterHeader s more fun field s' htrunc =>
        h field s' (by rw [htrunc])]
      cases Wire.readFrames [f] afterHeader s with
      | error e s' => rfl
      | ok p s' =>
        -- the tree is complete, and what follows is left over with the rest
        obtain ⟨root, rest⟩ := p
        cases rest with
        | nil => simp [Wire.followedBy, overrun]
        | cons b rest => simp [Wire.followedBy, overrun, WireError.withMore, Nat.add_right_comm]

/-- No accepted bytes are the beginning of other accepted bytes.  Of accepted bytes a part from
    the start ends too early, and what follows them is counted as left over.  Any other failure
    is found whatever follows. -/
theorem decode_prefix_free (s : Store) (data : List UInt8) :
    (∀ root s', decode data s = .ok root s' →
      (∀ start, start <+: data → start ≠ data →
        ∃ field s'', decode start s = .error (.truncated field) s'') ∧
      ∀ more, more ≠ [] →
        decode (data ++ more) s = .error (.malformed (.trailingBytes more.length)) s') ∧
    ∀ e s', decode data s = .error e s' → (∀ field, e ≠ .truncated field) →
      ∀ more, decode (data ++ more) s = .error (e.withMore more.length) s' := by
  refine ⟨fun root s' hok => ⟨?_, ?_⟩, ?_⟩
  · rintro start ⟨more, rfl⟩ hne
    by_contra hnone
    -- had the part not ended too early, the bytes after it would be left over
    have htrunc : ∀ field s'', decode start s ≠ .error (.truncated field) s'' :=
      fun field s'' heq => hnone ⟨field, s'', heq⟩
    have happend := decode_append htrunc more
    have hmore : more ≠ [] := fun hnil => hne (by rw [hnil, List.append_nil])
    rw [hok] at happend
    unfold overrun at happend
    split at happend
    · rw [if_neg (by simpa using hmore)] at happend
      cases happend
    · cases happend
  · -- after a complete tree there is nothing more to read
    intro more hmore
    rw [decode_append (by simp [hok]), hok]
    exact if_neg (by simpa using hmore)
  · intro e s' herror htrunc more
    have hdecode : ∀ field s', decode data s ≠ .error (.truncated field) s' := by
      intro field s'' heq
      rw [herror] at heq
      cases heq
      exact htrunc field rfl
    rw [decode_append hdecode, herror]
    rfl

end Store

/-! ### Bytes to look at -/

namespace Sample

/-- An item with a group as its only part. -/
def bytes : List UInt8 :=
  Wire.magic ++ [Wire.version] ++
    [4, 0x69, 0x74, 0x65, 0x6d, 1, 0, 0, 2, 0, 2, 1] ++
    [5, 0x67, 0x72, 0x6f, 0x75, 0x70, 1, 4, 1, 0x78, 0, 2, 0, 2, 0]

/-- Without its last byte the item ends too early, with another byte it has one left over, and
    two more then make three. -/
theorem decode_bytes_prefix_free :
    (∃ root s', Store.decode bytes (Store.empty schema) = .ok root s' ∧
      (∃ field s'', Store.decode bytes.dropLast (Store.empty schema)
        = .error (.truncated field) s'') ∧
      Store.decode (bytes ++ [2]) (Store.empty schema)
        = .error (.malformed (.trailingBytes 1)) s') ∧
    ∃ s', Store.decode (bytes ++ [2] ++ [0, 1]) (Store.empty schema)
      = .error (.malformed (.trailingBytes 3)) s' := by
  have hread : Store.decode bytes (Store.empty schema)
      = .ok ⟨1, 0⟩ (after (Store.decode bytes) (Store.empty schema)) := by decide +kernel
  obtain ⟨htruncated, htrailing⟩ :=
    (Store.decode_prefix_free (Store.empty schema) bytes).1 _ _ hread
  have hmore := htrailing [2] (by decide)
  have hmost := (Store.decode_prefix_free (Store.empty schema) (bytes ++ [2])).2 _ _ hmore
    (by simp) [0, 1]
  exact ⟨⟨_, _, hread, htruncated _ ⟨[0], by decide⟩ (by decide), hmore⟩, _, hmost⟩

end Sample

end TypedForest
