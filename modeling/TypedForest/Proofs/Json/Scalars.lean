import TypedForest.Json.Printer
import TypedForest.Json.Reader
import TypedForest.Proofs.Number.Numeral

namespace TypedForest.Json

/-!
# Strings and numbers are read as they were written

Each character of a string is spelled by itself (`escape`), and its spelling is read as one piece
that stands for the character whatever follows (`readsAs_escape`).  So a string is read back
whole (`readString_escape`).

A number has no closing mark: it ends where nothing follows that would go on with it (`Stops`).
Up to there a well-formed numeral is read back (`readNumber_writeNumber`).
-/

/-! ### Strings -/

/-- A text is read as one piece of a string, which stands for a character. -/
def ReadsAs (text : List Char) (c : Char) : Prop :=
  ∃ p : Piece, (∀ ps, joinPieces (p :: ps) = (joinPieces ps).map (c :: ·)) ∧
    ∀ cs, readPieces (text ++ cs) = (readPieces cs).map fun (ps, rest) => (p :: ps, rest)

/-- A short escape stands for its character. -/
theorem readsAs_short {e c : Char} (h : shortEscape? e = some c) : ReadsAs ['\\', e] c := by
  have hu : e ≠ 'u' := by
    rintro rfl
    cases h
  refine ⟨.char c, fun ps => by rw [joinPieces], fun cs => ?_⟩
  rw [List.cons_append, List.singleton_append, readPieces, h]
  · cases readPieces cs <;> rfl
  · intro _ _ _ _ _ he
    exact absurd he hu

/-- A character that needs no escape stands for itself. -/
theorem readsAs_plain {c : Char} (hquote : c ≠ '\"') (hslash : c ≠ '\\')
    (hcontrol : ¬ c.toNat < 0x20) : ReadsAs [c] c := by
  refine ⟨.char c, fun ps => by rw [joinPieces], fun cs => ?_⟩
  rw [List.singleton_append, readPieces, if_neg (by simp [hslash, hcontrol])]
  · cases readPieces cs <;> rfl
  · exact hquote
  · intro _ _ _ _ _ h
    exact absurd h hslash
  · intro _ _ h
    exact absurd h hslash

/-- A hexadecimal digit is read as its number. -/
theorem hexDigit?_digitChar {n : Nat} (h : n < 16) : hexDigit? (Nat.digitChar n) = some n := by
  revert n
  decide

/-- Four hexadecimal digits are read as the number of a control character. -/
theorem hexUnit?_digitChar {n : Nat} (h : n < 0x20) :
    hexUnit? '0' '0' (Nat.digitChar (n / 16)) (Nat.digitChar (n % 16)) = some n := by
  have hzero : hexDigit? '0' = some 0 := by decide
  rw [hexUnit?, hzero, hexDigit?_digitChar (by omega), hexDigit?_digitChar (by omega)]
  simp only [Option.bind_eq_bind, Option.bind_some, Option.pure_def, Option.some.injEq]
  omega

/-- The number of a control character is no half of a surrogate pair. -/
theorem joinPieces_control {n : Nat} (h : n < 0x20) (ps : List Piece) :
    joinPieces (.unit n :: ps) = (joinPieces ps).map (Char.ofNat n :: ·) := by
  have hhigh : isHighSurrogate n = false := by
    simp only [isHighSurrogate, Bool.and_eq_false_iff, decide_eq_false_iff_not]
    omega
  have hlow : isLowSurrogate n = false := by
    simp only [isLowSurrogate, Bool.and_eq_false_iff, decide_eq_false_iff_not]
    omega
  match ps with
  | [] | .char _ :: _ | .unit _ :: _ => simp [joinPieces, hhigh, hlow]

/-- The long escape of a control character stands for it. -/
theorem readsAs_control {c : Char} (h : c.toNat < 0x20) :
    ReadsAs ['\\', 'u', '0', '0', Nat.digitChar (c.toNat / 16), Nat.digitChar (c.toNat % 16)]
      c := by
  refine ⟨.unit c.toNat, fun ps => ?_, fun cs => ?_⟩
  · rw [joinPieces_control h, Char.ofNat_toNat]
  · simp only [List.cons_append, List.nil_append]
    rw [readPieces, hexUnit?_digitChar h]
    cases readPieces cs <;> rfl

/-- The spelling of a character is read as the character. -/
theorem readsAs_escape (c : Char) : ReadsAs (escape c) c := by
  unfold escape
  split_ifs with hquote hslash hb ht hn hf hr hcontrol
  · exact readsAs_short (by rw [hquote]; rfl)
  · exact readsAs_short (by rw [hslash]; rfl)
  · exact readsAs_short (by rw [hb]; rfl)
  · exact readsAs_short (by rw [ht]; rfl)
  · exact readsAs_short (by rw [hn]; rfl)
  · exact readsAs_short (by rw [hf]; rfl)
  · exact readsAs_short (by rw [hr]; rfl)
  · exact readsAs_control hcontrol
  · exact readsAs_plain hquote hslash hcontrol

/-- The escaped characters of a text are read as pieces that join to the text, up to the quote. -/
theorem exists_pieces (cs rest : List Char) :
    ∃ ps, joinPieces ps = some cs ∧
      readPieces (cs.flatMap escape ++ '\"' :: rest) = some (ps, rest) := by
  -- each character is one piece, which what comes after it does not change
  induction cs with
  | nil => exact ⟨[], by rw [joinPieces], by rw [List.flatMap_nil, List.nil_append, readPieces]⟩
  | cons c cs ih =>
    obtain ⟨ps, hjoin, hread⟩ := ih
    obtain ⟨p, hp, hc⟩ := readsAs_escape c
    refine ⟨p :: ps, by rw [hp, hjoin]; rfl, ?_⟩
    rw [List.flatMap_cons, List.append_assoc, hc, hread]
    rfl

/-- A string is read as it was written. -/
theorem readString_escape (s : String) (rest : List Char) :
    readString (s.toList.flatMap escape ++ '\"' :: rest) = some (some s, rest) := by
  obtain ⟨ps, hjoin, hread⟩ := exists_pieces s.toList rest
  simp [readString, hread, hjoin]

/-! ### Numbers -/

/-- A text does not start with a digit. -/
def NoDigit (rest : List Char) : Prop := ∀ c ∈ rest.head?, Digit.ofChar? c = none

/-- A text does not go on with a number in front of it. -/
def Stops (rest : List Char) : Prop :=
  ∀ c ∈ rest.head?, Digit.ofChar? c = none ∧ c ≠ '.' ∧ c ≠ 'e' ∧ c ≠ 'E'

/-- Digits are read as far as they go. -/
theorem spanDigits_render (ds : List Digit) {rest : List Char} (h : NoDigit rest) :
    spanDigits (Digits.render ds ++ rest) = (ds, rest) := by
  induction ds with
  | nil =>
    cases rest with
    | nil => rfl
    | cons c rest => simp [Digits.render, spanDigits, h c rfl]
  | cons d ds ih =>
    rw [Digits.render] at ih ⊢
    simp [spanDigits, ih]

/-- At least one digit is read. -/
theorem readDigits_render {ds : List Digit} (hds : ds ≠ []) {rest : List Char}
    (h : NoDigit rest) : readDigits (Digits.render ds ++ rest) = some (ds, rest) := by
  rw [readDigits, spanDigits_render ds h]
  cases ds with
  | nil => exact absurd rfl hds
  | cons d ds => rfl

/-- The digits before the point are read, if no zero comes before others. -/
theorem readWhole_render {d : Digit} {ds : List Digit} (hd : ds = [] ∨ d ≠ Digit.zero)
    {rest : List Char} (h : NoDigit rest) :
    readWhole (Digits.render (d :: ds) ++ rest) = some (d :: ds, rest) := by
  rw [readWhole, spanDigits_render _ h]
  cases ds with
  | nil => rfl
  | cons e ds => exact if_neg (hd.resolve_left (List.cons_ne_nil e ds))

/-- The power of ten as it is written, with what follows it. -/
def exponentText (e : Option Int) (rest : List Char) : List Char :=
  (e.map Numeral.renderExponent).getD [] ++ rest

/-- The digits after the point as they are written, with what follows them. -/
def fractionText (f : Option (List Digit)) (rest : List Char) : List Char :=
  (f.map fun ds => '.' :: Digits.render ds).getD [] ++ rest

/-- An exponent is read back, or its absence. -/
theorem readExponent_exponentText (e : Option Int) {rest : List Char} (h : Stops rest) :
    readExponent (exponentText e rest) = some (e, rest) := by
  cases e with
  | none =>
    cases rest with
    | nil => rfl
    | cons c rest =>
      -- what comes after a number does not look like an exponent
      obtain ⟨-, -, he, hE⟩ := h c rfl
      simp [exponentText, readExponent, he, hE]
  | some e =>
    have hdigits := readDigits_render (Digits.ofNat_ne_nil e.natAbs) fun c hc => (h c hc).1
    by_cases hneg : e < 0
    · have hvalue : -(e.natAbs : Int) = e := by omega
      simpa [exponentText, Numeral.renderExponent, hneg, readExponent, readPower, hdigits,
        Digits.toNat_ofNat] using hvalue
    · have hvalue : (e.natAbs : Int) = e := by omega
      simpa [exponentText, Numeral.renderExponent, hneg, readExponent, readPower, hdigits,
        Digits.toNat_ofNat] using hvalue

/-- What comes after the digits is neither a digit nor a point. -/
theorem head?_exponentText (e : Option Int) {rest : List Char} (h : Stops rest) :
    ∀ c ∈ (exponentText e rest).head?, Digit.ofChar? c = none ∧ c ≠ '.' := by
  intro c hc
  cases e with
  | none => exact ⟨(h c hc).1, (h c hc).2.1⟩
  | some e =>
    obtain rfl : 'e' = c := by simpa [exponentText, Numeral.renderExponent] using hc
    decide

/-- The digits after the point are read back, or their absence. -/
theorem readFraction_fractionText {f : Option (List Digit)} (hf : f ≠ some [])
    {rest : List Char} (h : ∀ c ∈ rest.head?, Digit.ofChar? c = none ∧ c ≠ '.') :
    readFraction (fractionText f rest) = some (f, rest) := by
  cases f with
  | none =>
    cases rest with
    | nil => rfl
    | cons c rest => simp [fractionText, readFraction, (h c rfl).2]
  | some ds =>
    have hds : ds ≠ [] := fun hnil => hf (congrArg some hnil)
    have hdigits := readDigits_render hds fun c hc => (h c hc).1
    simp [fractionText, readFraction, hdigits]

/-- A fraction does not start with a digit. -/
theorem noDigit_fractionText (f : Option (List Digit)) {rest : List Char} (h : NoDigit rest) :
    NoDigit (fractionText f rest) := by
  intro c hc
  cases f with
  | none => exact h c hc
  | some ds =>
    obtain rfl : '.' = c := by simpa [fractionText] using hc
    decide

/-- A number is written as its sign, its digits, its fraction and its exponent. -/
theorem writeNumber_eq (n : Numeral) (rest : List Char) :
    writeNumber n rest = (if n.negative then ['-'] else [])
      ++ (Digits.render n.whole ++ fractionText n.fraction (exponentText n.exponent rest)) := by
  simp only [writeNumber, Numeral.render, fractionText, exponentText, List.append_assoc]

/-- A number without its sign is read back part by part. -/
theorem readUnsigned_render {n : Numeral} (hn : n.WellFormed) {rest : List Char}
    (h : Stops rest) :
    readUnsigned n.negative
        (Digits.render n.whole ++ fractionText n.fraction (exponentText n.exponent rest))
      = some (n, rest) := by
  obtain ⟨d, ds, hwhole, hd⟩ := hn.whole
  have hexponent := head?_exponentText n.exponent h
  have hfraction := noDigit_fractionText n.fraction fun c hc => (hexponent c hc).1
  rw [readUnsigned, hwhole, readWhole_render hd hfraction]
  simp [readFraction_fractionText hn.fraction hexponent, readExponent_exponentText n.exponent h,
    ← hwhole]

theorem toChar_ne_minus (d : Digit) : d.toChar ≠ '-' := by
  revert d
  decide

/-- A number is read as it was written. -/
theorem readNumber_writeNumber {n : Numeral} (hn : n.WellFormed) {rest : List Char}
    (h : Stops rest) : readNumber (writeNumber n rest) = some (n, rest) := by
  have hread := readUnsigned_render hn h
  rw [writeNumber_eq]
  cases hneg : n.negative with
  | true =>
    rw [hneg] at hread
    rw [if_pos rfl, List.singleton_append, readNumber, hread]
  | false =>
    obtain ⟨d, ds, hwhole, -⟩ := hn.whole
    rw [hneg, hwhole] at hread
    rw [hwhole, if_neg (by decide), List.nil_append]
    rw [Digits.render, List.map_cons, List.cons_append] at hread ⊢
    rw [readNumber, hread]
    intro _ hminus
    exact toChar_ne_minus d (List.cons.inj hminus).1

end TypedForest.Json
