import TypedForest.Proofs.Json.Scalars

namespace TypedForest.Json

/-!
# Documents are read as they were written

A document is legible if all its numbers are well formed and all its texts have a spelling
(`Legible`).  The indented text of a legible document is read as the document
(`Legible.read?_prettyText`).

Printing puts characters in front of a rest, so the statement about one document speaks of every
rest that does not go on with it and of every sufficient number of steps (`ReadsBack`); that
twice as many steps as characters suffice is part of the induction.  Items and fields are printed
alike: each on a line of its own, and what comes after it behind a comma (`separated`).
-/

/-! ### Blanks -/

theorem skipBlanks_cons {c : Char} (h : isBlank c = false) (cs : List Char) :
    skipBlanks (c :: cs) = c :: cs := by
  rw [skipBlanks, List.dropWhile_cons, h]
  rfl

/-- A blank is skipped. -/
theorem skipBlanks_blank {c : Char} (h : isBlank c = true) (cs : List Char) :
    skipBlanks (c :: cs) = skipBlanks cs := by
  rw [skipBlanks, List.dropWhile_cons, if_pos h, skipBlanks]

/-- A new line with its indentation is nothing but blanks. -/
theorem skipBlanks_newline (depth : Nat) (cs : List Char) :
    skipBlanks (newline depth cs) = skipBlanks cs := by
  rw [newline, skipBlanks_blank (by decide), skipBlanks, List.dropWhile_append_of_pos, skipBlanks]
  intro c hc
  rw [(List.mem_replicate.mp hc).2]
  decide

/-- Where blanks were skipped there are none to skip. -/
theorem skipBlanks_skipBlanks (cs : List Char) : skipBlanks (skipBlanks cs) = skipBlanks cs := by
  induction cs with
  | nil => rfl
  | cons c cs ih =>
    cases hc : isBlank c with
    | true => rw [skipBlanks_blank hc, ih]
    | false => rw [skipBlanks_cons hc, skipBlanks_cons hc]

/-- Blanks in front of a document are passed over. -/
theorem readValue_congr {cs ds : List Char} (h : skipBlanks cs = skipBlanks ds) (fuel : Nat) :
    readValue fuel cs = readValue fuel ds := by
  cases fuel with
  | zero => rfl
  | succ fuel => rw [readValue, readValue, h]

/-- Blanks before the items of an array do not matter. -/
theorem readItems_skipBlanks (fuel : Nat) (cs : List Char) :
    readItems fuel (skipBlanks cs) = readItems fuel cs := by
  cases fuel with
  | zero => rfl
  | succ fuel => rw [readItems, readItems, readValue_congr (skipBlanks_skipBlanks cs)]

/-- Nor do those before the fields of an object. -/
theorem readFields_skipBlanks (fuel : Nat) (cs : List Char) :
    readFields fuel (skipBlanks cs) = readFields fuel cs := by
  cases fuel with
  | zero => rfl
  | succ fuel => rw [readFields, readFields, skipBlanks_skipBlanks]

/-- A new line takes two characters for each level, and one for itself. -/
theorem length_newline (depth : Nat) (rest : List Char) :
    (newline depth rest).length = 2 * depth + rest.length + 1 := by
  simp [newline]

/-- A number ends where the line does. -/
theorem stops_newline (depth : Nat) (rest : List Char) : Stops (newline depth rest) := by
  rintro c ⟨⟩
  decide

/-! ### What comes after an item -/

/-- The further items or fields behind a comma, if there are any. -/
def separated {α : Type} (text : List α → List Char → List Char) : List α → List Char → List Char
  | [], rest => rest
  | a :: as, rest => ',' :: text (a :: as) rest

/-- Each item is on a line of its own, after a comma if others come before it. -/
theorem prettyItems_cons (depth : Nat) (j : Json) (js : List Json) (rest : List Char) :
    prettyItems depth (j :: js) rest
      = newline depth (pretty depth j (separated (prettyItems depth) js rest)) := by
  cases js <;> rw [prettyItems] <;> rfl

/-- So is each field, with its name before it. -/
theorem prettyFields_cons (depth : Nat) (name : Option String) (j : Json)
    (fs : List (Option String × Json)) (rest : List Char) :
    prettyFields depth ((name, j) :: fs) rest
      = newline depth (writeString name
        (':' :: ' ' :: pretty depth j (separated (prettyFields depth) fs rest))) := by
  cases fs <;> rw [prettyFields] <;> rfl

/-- A comma makes no text shorter. -/
theorem length_le_separated {α : Type} {text : List α → List Char → List Char} {as : List α}
    {rest : List Char} (h : rest.length ≤ (text as rest).length) :
    rest.length ≤ (separated text as rest).length := by
  cases as with
  | nil => exact Nat.le_refl _
  | cons a as => exact Nat.le_succ_of_le h

/-- A number ends where a comma comes. -/
theorem stops_separated {α : Type} (text : List α → List Char → List Char) (as : List α)
    {rest : List Char} (h : Stops rest) : Stops (separated text as rest) := by
  cases as with
  | nil => exact h
  | cons a as =>
    rintro c ⟨⟩
    decide

/-! ### One document -/

/-- What reading needs to know about the text of a document: it starts with a character that is
    neither a blank nor a closing bracket, and twice as many steps as it has characters take it
    off the front. -/
structure ReadsBack (j : Json) : Prop where
  starts : ∀ depth rest, ∃ c cs, pretty depth j rest = c :: cs ∧ isBlank c = false ∧ c ≠ ']' ∧
    rest.length ≤ cs.length
  reads : ∀ fuel depth rest, Stops rest →
    2 * (pretty depth j rest).length ≤ fuel + 2 * rest.length →
    readValue fuel (pretty depth j rest) = some (j, rest)

/-- A document takes at least one character. -/
theorem ReadsBack.length_lt {j : Json} (h : ReadsBack j) (depth : Nat) (rest : List Char) :
    rest.length < (pretty depth j rest).length := by
  obtain ⟨c, cs, htext, -, -, hlength⟩ := h.starts depth rest
  rw [htext, List.length_cons]
  omega

/-- The text of the document from its first character on. -/
theorem readsBack_of_cons {j : Json} {c : Char} (text : Nat → List Char → List Char)
    (hpretty : ∀ depth rest, pretty depth j rest = c :: text depth rest)
    (hblank : isBlank c = false) (hbracket : c ≠ ']')
    (hlength : ∀ depth rest, rest.length ≤ (text depth rest).length)
    (hread : ∀ fuel depth rest, Stops rest →
      2 * (text depth rest).length ≤ fuel + 2 * rest.length →
      readValue (fuel + 1) (c :: text depth rest) = some (j, rest)) : ReadsBack j := by
  refine ⟨fun depth rest => ⟨c, text depth rest, hpretty depth rest, hblank, hbracket,
    hlength depth rest⟩, fun fuel depth rest hstops hfuel => ?_⟩
  have hle := hlength depth rest
  rw [hpretty, List.length_cons] at hfuel
  obtain ⟨fuel, rfl⟩ : ∃ n, fuel = n + 1 := ⟨fuel - 1, by omega⟩
  rw [hpretty]
  exact hread fuel depth rest hstops (by omega)

/-! ### Numbers and strings -/

/-- A number starts with its sign or a digit. -/
theorem exists_render_eq_cons {n : Numeral} (hn : n.WellFormed) :
    ∃ c cs, n.render = c :: cs ∧ (c = '-' ∨ ∃ d : Digit, c = d.toChar) := by
  obtain ⟨d, ds, hwhole, -⟩ := hn.whole
  rw [Numeral.render, hwhole]
  cases n.negative with
  | true => exact ⟨'-', _, rfl, .inl rfl⟩
  | false => exact ⟨d.toChar, _, rfl, .inr ⟨d, rfl⟩⟩

/-- No other form of document starts like a number. -/
theorem number_start {c : Char} (hc : c = '-' ∨ ∃ d : Digit, c = d.toChar) :
    isBlank c = false ∧ c ∉ ['n', 't', 'f', '\"', '[', '\x7b', ']'] := by
  obtain rfl | ⟨d, rfl⟩ := hc
  · decide
  · revert d
    decide

/-- What starts like a number is read as one. -/
theorem readValue_of_number {c : Char} (hc : c = '-' ∨ ∃ d : Digit, c = d.toChar) (fuel : Nat)
    (cs : List Char) :
    readValue (fuel + 1) (c :: cs)
      = (readNumber (c :: cs)).map fun (n, rest) => (num n, rest) := by
  obtain ⟨hblank, hfirst⟩ := number_start hc
  rw [readValue, skipBlanks_cons hblank]
  split
  case h_7 => rfl
  all_goals
    next heq =>
    rw [(List.cons.inj heq).1] at hfirst
    exact absurd hfirst (by decide)

/-- A numeral in its usual form is read back. -/
theorem readsBack_num {n : Numeral} (hn : n.WellFormed) : ReadsBack (num n) := by
  obtain ⟨c, cs, hrender, hc⟩ := exists_render_eq_cons hn
  obtain ⟨hblank, hfirst⟩ := number_start hc
  refine readsBack_of_cons (fun _ rest => cs ++ rest)
    (fun depth rest => by rw [pretty, writeNumber, hrender, List.cons_append]) hblank
    (fun hbracket => hfirst (by simp [hbracket])) (fun _ rest => by simp)
    fun fuel _ rest hstops _ => ?_
  have hread := readNumber_writeNumber hn hstops
  rw [writeNumber, hrender, List.cons_append] at hread
  rw [readValue_of_number hc, hread]
  rfl

/-- A text is read back. -/
theorem readsBack_ofString (s : String) : ReadsBack (ofString s) := by
  refine readsBack_of_cons (fun _ rest => s.toList.flatMap escape ++ '\"' :: rest)
    (fun depth rest => by rw [ofString, pretty, writeString]; rfl) (by decide) (by decide)
    (fun _ rest => by simp; omega) fun fuel _ rest _ _ => ?_
  rw [readValue, skipBlanks_cons (by decide)]
  simp only [readString_escape]
  rfl

theorem readsBack_null : ReadsBack null := by
  refine readsBack_of_cons (fun _ rest => 'u' :: 'l' :: 'l' :: rest)
    (fun depth rest => by rw [pretty]) (by decide) (by decide) (fun _ rest => by simp; omega)
    fun fuel _ rest _ _ => ?_
  rw [readValue, skipBlanks_cons (by decide)]
  rfl

/-- So are the words for truth and falsehood. -/
theorem readsBack_bool (b : Bool) : ReadsBack (bool b) := by
  cases b with
  | false =>
    refine readsBack_of_cons (fun _ rest => 'a' :: 'l' :: 's' :: 'e' :: rest)
      (fun depth rest => by rw [pretty]; rfl) (by decide) (by decide)
      (fun _ rest => by simp; omega) fun fuel _ rest _ _ => ?_
    rw [readValue, skipBlanks_cons (by decide)]
    rfl
  | true =>
    refine readsBack_of_cons (fun _ rest => 'r' :: 'u' :: 'e' :: rest)
      (fun depth rest => by rw [pretty]; rfl) (by decide) (by decide)
      (fun _ rest => by simp; omega) fun fuel _ rest _ _ => ?_
    rw [readValue, skipBlanks_cons (by decide)]
    rfl

/-! ### Arrays -/

/-- The items of an array do not make the text after them shorter. -/
theorem length_prettyItems {items : List Json} (hitems : ∀ j ∈ items, ReadsBack j) (depth : Nat)
    (rest : List Char) : rest.length ≤ (prettyItems depth items rest).length := by
  induction items with
  | nil => exact Nat.le_of_eq (by rw [prettyItems])
  | cons j js ih =>
    have hlt :=
      (hitems j List.mem_cons_self).length_lt depth (separated (prettyItems depth) js rest)
    have hle := length_le_separated (ih fun k hk => hitems k (List.mem_cons_of_mem j hk))
    rw [prettyItems_cons, length_newline]
    omega

/-- An item is read up to the comma or the bracket after it. -/
theorem readItems_newline {fuel : Nat} {j : Json} {cs ds : List Char}
    (h : readValue fuel cs = some (j, ds)) (depth : Nat) :
    (∀ es, skipBlanks ds = ',' :: es →
      readItems (fuel + 1) (newline depth cs) = (readItems fuel es).map fun p => (j :: p.1, p.2)) ∧
    (∀ es, skipBlanks ds = ']' :: es →
      readItems (fuel + 1) (newline depth cs) = some ([j], es)) := by
  rw [readItems, readValue_congr (skipBlanks_newline depth cs), h]
  constructor
  · intro es hes
    simp only [hes]
  · intro es hes
    simp only [hes]

/-- The items of an array are read back one by one, up to the bracket. -/
theorem readItems_prettyItems {items : List Json} (hne : items ≠ [])
    (hitems : ∀ j ∈ items, ReadsBack j) (fuel depth outer : Nat) (rest : List Char)
    (hfuel : 2 * (prettyItems depth items (newline outer (']' :: rest))).length
      ≤ fuel + 2 * rest.length) :
    readItems fuel (prettyItems depth items (newline outer (']' :: rest)))
      = some (items, rest) := by
  induction items generalizing fuel with
  | nil => exact absurd rfl hne
  | cons j js ih =>
    have hj := hitems j List.mem_cons_self
    have hjs : ∀ k ∈ js, ReadsBack k := fun k hk => hitems k (List.mem_cons_of_mem j hk)
    have hlt := hj.length_lt depth
      (separated (prettyItems depth) js (newline outer (']' :: rest)))
    have hle := length_le_separated (length_prettyItems hjs depth (newline outer (']' :: rest)))
    rw [prettyItems_cons, length_newline] at hfuel
    rw [length_newline, List.length_cons] at hle
    -- each item costs one unit, and has at least one character to pay for it
    obtain ⟨fuel, rfl⟩ : ∃ n, fuel = n + 1 := ⟨fuel - 1, by omega⟩
    have hread := hj.reads fuel depth _
      (stops_separated (prettyItems depth) js (stops_newline outer (']' :: rest))) (by omega)
    obtain ⟨hcomma, hbracket⟩ := readItems_newline hread depth
    rw [prettyItems_cons]
    cases js with
    | nil =>
      refine hbracket rest ?_
      rw [separated, skipBlanks_newline, skipBlanks_cons (by decide)]
    | cons k js =>
      have hlength : (separated (prettyItems depth) (k :: js) (newline outer (']' :: rest))).length
          = (prettyItems depth (k :: js) (newline outer (']' :: rest))).length + 1 := rfl
      have hrest := ih (List.cons_ne_nil k js) hjs fuel (by omega)
      rw [hcomma _ (by rw [separated, skipBlanks_cons (by decide)]), hrest]
      rfl

/-- The text of items does not start with the closing bracket. -/
theorem skipBlanks_prettyItems {j : Json} (hj : ReadsBack j) (depth : Nat) (js : List Json)
    (rest ds : List Char) : skipBlanks (prettyItems depth (j :: js) rest) ≠ ']' :: ds := by
  obtain ⟨c, cs, htext, hblank, hbracket, -⟩ :=
    hj.starts depth (separated (prettyItems depth) js rest)
  rw [prettyItems_cons, skipBlanks_newline, htext, skipBlanks_cons hblank]
  exact fun h => hbracket (List.cons.inj h).1

/-- What starts with a bracket, and does not end at once, is read item by item. -/
theorem readValue_bracket {cs : List Char} (h : ∀ ds, skipBlanks cs ≠ ']' :: ds) (fuel : Nat) :
    readValue (fuel + 1) ('[' :: cs)
      = (readItems fuel cs).map fun (items, rest) => (arr items, rest) := by
  rw [readValue, skipBlanks_cons (by decide), ← readItems_skipBlanks]
  -- the case of the empty array is excluded by `h`
  simp only []

/-- An array of documents that are read back is read back. -/
theorem readsBack_arr {items : List Json} (hitems : ∀ j ∈ items, ReadsBack j) :
    ReadsBack (arr items) := by
  cases items with
  | nil =>
    refine readsBack_of_cons (fun _ rest => ']' :: rest) (fun depth rest => by rw [pretty])
      (by decide) (by decide) (fun _ rest => by simp) fun fuel depth rest _ _ => ?_
    rw [readValue, skipBlanks_cons (by decide)]
    simp only []
    rw [skipBlanks_cons (by decide)]
    rfl
  -- the first item is not the bracket that would end the array
  | cons j js =>
    refine readsBack_of_cons
      (fun depth rest => prettyItems (depth + 1) (j :: js) (newline depth (']' :: rest)))
      (fun depth rest => by rw [pretty]) (by decide) (by decide) (fun depth rest => ?_)
      fun fuel depth rest _ hfuel => ?_
    · have hle := length_prettyItems hitems (depth + 1) (newline depth (']' :: rest))
      rw [length_newline, List.length_cons] at hle
      omega
    · have hread := readItems_prettyItems (List.cons_ne_nil j js) hitems fuel (depth + 1) depth
        rest hfuel
      rw [readValue_bracket (skipBlanks_prettyItems (hitems j List.mem_cons_self) _ js _), hread]
      rfl

/-! ### Objects -/

/-- A text takes at least its quotes. -/
theorem length_writeString (s : Option String) (rest : List Char) :
    rest.length + 2 ≤ (writeString s rest).length := by
  simp only [writeString, List.length_cons, List.length_append]
  omega

/-- The fields of an object do not make the text after them shorter. -/
theorem length_prettyFields {fields : List (Option String × Json)}
    (hfields : ∀ f ∈ fields, ReadsBack f.2) (depth : Nat) (rest : List Char) :
    rest.length ≤ (prettyFields depth fields rest).length := by
  induction fields with
  | nil => exact Nat.le_of_eq (by rw [prettyFields])
  | cons f fs ih =>
    obtain ⟨name, j⟩ := f
    have hj : ReadsBack j := hfields (name, j) List.mem_cons_self
    have hlt := hj.length_lt depth (separated (prettyFields depth) fs rest)
    have hle := length_le_separated (ih fun g hg => hfields g (List.mem_cons_of_mem _ hg))
    have hname := length_writeString name
      (':' :: ' ' :: pretty depth j (separated (prettyFields depth) fs rest))
    simp only [List.length_cons] at hname
    rw [prettyFields_cons, length_newline]
    omega

/-- A field is read up to the comma or the brace after it. -/
theorem readFields_newline {fuel : Nat} {j : Json} {cs ds : List Char}
    (h : readValue fuel cs = some (j, ds)) (depth : Nat) (name : String) :
    (∀ es, skipBlanks ds = ',' :: es →
      readFields (fuel + 1) (newline depth (writeString (some name) (':' :: ' ' :: cs)))
        = (readFields fuel es).map fun p => ((some name, j) :: p.1, p.2)) ∧
    (∀ es, skipBlanks ds = '\x7d' :: es →
      readFields (fuel + 1) (newline depth (writeString (some name) (':' :: ' ' :: cs)))
        = some ([(some name, j)], es)) := by
  have hblank : skipBlanks (' ' :: cs) = skipBlanks cs := skipBlanks_blank (by decide) cs
  rw [readFields, skipBlanks_newline, writeString, skipBlanks_cons (by decide)]
  simp only [Option.getD_some, readString_escape]
  rw [skipBlanks_cons (by decide)]
  simp only [readValue_congr hblank, h]
  constructor
  · intro es hes
    simp only [hes]
  · intro es hes
    simp only [hes]

/-- The fields of an object are read back one by one, up to the brace. -/
theorem readFields_prettyFields {fields : List (Option String × Json)} (hne : fields ≠ [])
    (hnames : ∀ f ∈ fields, f.1.isSome) (hfields : ∀ f ∈ fields, ReadsBack f.2)
    (fuel depth outer : Nat) (rest : List Char)
    (hfuel : 2 * (prettyFields depth fields (newline outer ('\x7d' :: rest))).length
      ≤ fuel + 2 * rest.length) :
    readFields fuel (prettyFields depth fields (newline outer ('\x7d' :: rest)))
      = some (fields, rest) := by
  induction fields generalizing fuel with
  | nil => exact absurd rfl hne
  | cons f fs ih =>
    obtain ⟨name, j⟩ := f
    have hj : ReadsBack j := hfields (name, j) List.mem_cons_self
    have hfs : ∀ g ∈ fs, ReadsBack g.2 := fun g hg => hfields g (List.mem_cons_of_mem _ hg)
    obtain ⟨name, rfl⟩ := Option.isSome_iff_exists.mp (hnames (name, j) List.mem_cons_self)
    have hlt := hj.length_lt depth
      (separated (prettyFields depth) fs (newline outer ('\x7d' :: rest)))
    have hle := length_le_separated (length_prettyFields hfs depth (newline outer ('\x7d' :: rest)))
    have hname := length_writeString (some name) (':' :: ' ' :: pretty depth j
      (separated (prettyFields depth) fs (newline outer ('\x7d' :: rest))))
    rw [prettyFields_cons, length_newline] at hfuel
    simp only [length_newline, List.length_cons] at hle hname
    -- each field costs one unit, and its name alone pays for it
    obtain ⟨fuel, rfl⟩ : ∃ n, fuel = n + 1 := ⟨fuel - 1, by omega⟩
    have hread := hj.reads fuel depth _
      (stops_separated (prettyFields depth) fs (stops_newline outer ('\x7d' :: rest))) (by omega)
    obtain ⟨hcomma, hbrace⟩ := readFields_newline hread depth name
    rw [prettyFields_cons]
    cases fs with
    | nil =>
      refine hbrace rest ?_
      rw [separated, skipBlanks_newline, skipBlanks_cons (by decide)]
    | cons g fs =>
      have hlength :
          (separated (prettyFields depth) (g :: fs) (newline outer ('\x7d' :: rest))).length
            = (prettyFields depth (g :: fs) (newline outer ('\x7d' :: rest))).length + 1 := rfl
      have hrest := ih (List.cons_ne_nil g fs)
        (fun g hg => hnames g (List.mem_cons_of_mem _ hg)) hfs fuel (by omega)
      rw [hcomma _ (by rw [separated, skipBlanks_cons (by decide)]), hrest]
      rfl

/-- The text of fields starts with a name and not with the closing brace. -/
theorem skipBlanks_prettyFields (depth : Nat) (f : Option String × Json)
    (fs : List (Option String × Json)) (rest ds : List Char) :
    skipBlanks (prettyFields depth (f :: fs) rest) ≠ '\x7d' :: ds := by
  rw [prettyFields_cons, skipBlanks_newline, writeString, skipBlanks_cons (by decide)]
  exact fun h => absurd (List.cons.inj h).1 (by decide)

/-- What starts with a brace, and does not end at once, is read field by field. -/
theorem readValue_brace {cs : List Char} (h : ∀ ds, skipBlanks cs ≠ '\x7d' :: ds) (fuel : Nat) :
    readValue (fuel + 1) ('\x7b' :: cs)
      = (readFields fuel cs).map fun (fields, rest) => (obj fields, rest) := by
  rw [readValue, skipBlanks_cons (by decide), ← readFields_skipBlanks]
  -- the case of the empty object is excluded by `h`
  simp only []

/-- An object with names for all fields is read back, if the documents in it are. -/
theorem readsBack_obj {fields : List (Option String × Json)} (hnames : ∀ f ∈ fields, f.1.isSome)
    (hfields : ∀ f ∈ fields, ReadsBack f.2) : ReadsBack (obj fields) := by
  cases fields with
  | nil =>
    refine readsBack_of_cons (fun _ rest => '\x7d' :: rest) (fun depth rest => by rw [pretty])
      (by decide) (by decide) (fun _ rest => by simp) fun fuel depth rest _ _ => ?_
    rw [readValue, skipBlanks_cons (by decide)]
    simp only []
    rw [skipBlanks_cons (by decide)]
    rfl
  | cons f fs =>
    refine readsBack_of_cons
      (fun depth rest => prettyFields (depth + 1) (f :: fs) (newline depth ('\x7d' :: rest)))
      (fun depth rest => by rw [pretty]) (by decide) (by decide) (fun depth rest => ?_)
      fun fuel depth rest _ hfuel => ?_
    · have hle := length_prettyFields hfields (depth + 1) (newline depth ('\x7d' :: rest))
      rw [length_newline, List.length_cons] at hle
      omega
    · have hread := readFields_prettyFields (List.cons_ne_nil f fs) hnames hfields fuel (depth + 1)
        depth rest hfuel
      rw [readValue_brace (skipBlanks_prettyFields _ f fs _), hread]
      rfl

/-! ### All documents -/

/-- All numbers are well formed, and all texts and names of fields have a spelling. -/
inductive Legible : Json → Prop
  | null : Legible null
  | bool (b : Bool) : Legible (bool b)
  | num {n : Numeral} (h : n.WellFormed) : Legible (num n)
  | str (s : String) : Legible (ofString s)
  | arr {items : List Json} (h : ∀ j ∈ items, Legible j) : Legible (arr items)
  | obj {fields : List (Option String × Json)} (hnames : ∀ f ∈ fields, f.1.isSome)
      (h : ∀ f ∈ fields, Legible f.2) : Legible (obj fields)

/-- A legible document is read back, in whatever text it stands. -/
theorem Legible.readsBack {j : Json} (h : j.Legible) : ReadsBack j := by
  induction h with
  | null => exact readsBack_null
  | bool b => exact readsBack_bool b
  | num hn => exact readsBack_num hn
  | str s => exact readsBack_ofString s
  | arr _ ih => exact readsBack_arr ih
  | obj hnames _ ih => exact readsBack_obj hnames ih

/-- **Reading back.**  The indented text of a legible document is read as the document. -/
theorem Legible.read?_prettyText {j : Json} (h : j.Legible) : read? j.prettyText = some j := by
  have hstops : Stops [] := by rintro c ⟨⟩
  have hread := h.readsBack.reads (2 * (pretty 0 j []).length + 2) 0 [] hstops (by simp)
  rw [read?, prettyText, String.toList_ofList, String.length_ofList, hread]
  rfl

end TypedForest.Json
