import GraphMapper.Aql.Aggregate
import GraphMapper.Proofs.Aql.Reading
import GraphMapper.Proofs.Text.Identifier

/-!
# What names do to a statement text

A lexeme of a statement is a word, a mark, the head of a variable or a number, or it belongs to a
part (`Command.mem_lexemes`). A part is contained when its names are identifiers, or identifiers with
dots between them where it is a key; no character of such a name can end the lexeme that it stands in
(`Part.Contained.lexemes`).

In a statement of contained parts an at-sign stands before the name of a slot and nowhere else, and
the name ends where the slot does. The placeholders that can be read off the text are therefore those
of the slots (`Command.placeholders_text`).
-/

namespace GraphMapper.Aql

/-! ## Lexemes of parts -/

/-- Whether the lexeme shows a name or a key. -/
def Lexeme.isName : Lexeme → Bool
  | name _ => true
  | ticked _ => true
  | key _ => true
  | _ => false

def nameReader : Reader Lexeme where
  read := List.filter Lexeme.isName
  part p := p.lexemes.filter Lexeme.isName
  read_nil := rfl
  read_between _ _ h := by cases h <;> rfl
  read_column _ _ := rfl

/-- A lexeme of a statement that is a name or a key belongs to one of the parts. -/
theorem Command.mem_lexemes {c : Command} {l : Lexeme} (hl : l ∈ c.lexemes)
    (hname : l.isName = true) : ∃ p ∈ c.parts, l ∈ p.lexemes := by
  have hreads : nameReader.Reads c.parts := fun p _ rest _ => List.filter_append _ _
  have hmem : l ∈ nameReader.read c.lexemes := List.mem_filter.mpr ⟨hl, hname⟩
  rw [nameReader.read_command c hreads] at hmem
  obtain ⟨p, hp, hl⟩ := List.mem_flatMap.mp hmem
  exact ⟨p, hp, (List.mem_filter.mp hl).1⟩

/-! ## Contained parts -/

/-- Identifiers with dots between them, and perhaps the suffix of a function. -/
inductive IsKey : String → Prop
  | dotted {names : List String} : names ≠ [] → (∀ name ∈ names, Text.isIdentifier name = true) →
      IsKey (".".intercalate names)
  | total {names : List String} (f : Function) : names ≠ [] →
      (∀ name ∈ names, Text.isIdentifier name = true) → IsKey (f.resultKey (".".intercalate names))

/-- The attributes under which an expression reads. -/
def Expr.segments : Expr → List String
  | field _ segments => segments
  | column _ => []

/-- The names of the part are identifiers, or make up a key. -/
inductive Part.Contained : Part → Prop
  | var (v : Var) : Contained (.var v)
  | expr {e : Expr} : (∀ s ∈ e.segments, Text.isIdentifier s = true) → Contained (.expr e)
  | literal (n : Nat) : Contained (.slot (.literal n))
  | named {name : String} : Text.isIdentifier name = true → Contained (.slot (.named name))
  | collection {name : String} : Text.isIdentifier name = true → Contained (.collection name)
  | key {name : String} : IsKey name → Contained (.key name)

theorem isKeyChar_of_isIdentifier {s : String} (h : Text.isIdentifier s = true) :
    ∀ c ∈ s.toList, Text.isKeyChar c = true := by
  intro c hc
  rw [Text.isKeyChar, Text.isNameChar_of_isIdentifier h c hc, Bool.true_or]

theorem isKeyChar_intercalate {names : List String}
    (h : ∀ name ∈ names, Text.isIdentifier name = true) :
    ∀ c ∈ (".".intercalate names).toList, Text.isKeyChar c = true := by
  have hdot : ∀ c ∈ ".".toList, Text.isKeyChar c = true := List.all_eq_true.mp (by decide)
  rw [String.toList_intercalate]
  induction names with
  | nil => simp [List.intercalate]
  | cons name rest ih =>
    obtain ⟨hname, hrest⟩ := List.forall_mem_cons.mp h
    have hfirst := isKeyChar_of_isIdentifier hname
    cases rest with
    | nil => simpa [List.intercalate] using hfirst
    | cons next others =>
      rw [List.map_cons, List.intercalate_cons_of_ne_nil (by simp)]
      exact List.forall_mem_append.mpr
        ⟨List.forall_mem_append.mpr ⟨hfirst, hdot⟩, ih hrest⟩

/-- A key holds the characters of names and dots. -/
theorem IsKey.isKeyChar {s : String} (h : IsKey s) : ∀ c ∈ s.toList, Text.isKeyChar c = true := by
  cases h with
  | dotted _ hnames => exact isKeyChar_intercalate hnames
  | total f _ hnames =>
    have hbars : ∀ c ∈ "__".toList, Text.isKeyChar c = true := List.all_eq_true.mp (by decide)
    have hsuffix : ∀ c ∈ f.suffix.toList, Text.isKeyChar c = true :=
      List.all_eq_true.mp (by cases f <;> decide)
    rw [Function.resultKey, String.toList_append, String.toList_append]
    exact List.forall_mem_append.mpr
      ⟨List.forall_mem_append.mpr ⟨isKeyChar_intercalate hnames, hbars⟩, hsuffix⟩

/-! ## What is foreign in a lexeme -/

/-- The part of a lexeme that is not one of the fixed words, heads and marks. -/
def Lexeme.foreign? : Lexeme → Option String
  | number n => some (toString n)
  | name s => some s
  | ticked s => some s
  | key s => some s
  | _ => none

/-- What is foreign holds the characters of names and dots alone, and stands bare or between the
backticks or quotes of its lexeme. -/
def Lexeme.IsContained (l : Lexeme) : Prop :=
  ∀ s ∈ l.foreign?, (∀ c ∈ s.toList, Text.isKeyChar c = true) ∧
    (l.text = s ∨ l.text = "`" ++ s ++ "`" ∨ l.text = "\"" ++ s ++ "\"")

theorem Lexeme.isContained_number (n : Nat) : (number n).IsContained := by
  intro s hs
  obtain rfl := Option.some.inj hs
  refine ⟨fun c hc => ?_, Or.inl rfl⟩
  have hdigit := Text.isNameChar_of_isDigit (Text.isDigit_of_mem_toString hc)
  rw [Text.isKeyChar, hdigit, Bool.true_or]

theorem Lexeme.isContained_name {name : String} (h : Text.isIdentifier name = true) :
    (Lexeme.name name).IsContained := by
  intro s hs
  obtain rfl := Option.some.inj hs
  exact ⟨isKeyChar_of_isIdentifier h, Or.inl rfl⟩

theorem Lexeme.isContained_attributeName {name : String} (h : Text.isIdentifier name = true) :
    (attributeName name).IsContained := by
  unfold attributeName
  split
  · intro s hs
    obtain rfl := Option.some.inj hs
    exact ⟨isKeyChar_of_isIdentifier h, Or.inr (Or.inl rfl)⟩
  · exact isContained_name h

theorem Lexeme.isContained_key {name : String} (h : IsKey name) : (key name).IsContained := by
  intro s hs
  obtain rfl := Option.some.inj hs
  exact ⟨h.isKeyChar, Or.inr (Or.inr (Text.quote_eq h.isKeyChar))⟩

theorem Lexeme.isContained_head (h : Head) : (head h).IsContained := fun _ hs => nomatch hs

theorem Lexeme.isContained_mark (m : Mark) : (mark m).IsContained := fun _ hs => nomatch hs

theorem Lexeme.Between.isContained {l : Lexeme} (h : l.Between) : l.IsContained := by
  cases h with
  | number n => exact isContained_number n
  | _ => exact fun _ hs => nomatch hs

theorem Var.lexemes_contained (v : Var) : ∀ l ∈ v.lexemes, l.IsContained := by
  cases v <;> simp [lexemes, Lexeme.isContained_head, Lexeme.isContained_number]

/-- The lexemes of a contained part are contained. -/
theorem Part.Contained.lexemes {p : Part} (h : p.Contained) : ∀ l ∈ p.lexemes, l.IsContained := by
  cases h with
  | var v => exact v.lexemes_contained
  | @expr e hsegments =>
    cases e with
    | column n =>
      simp [Part.lexemes, Expr.lexemes, Var.lexemes, columnLexemes, Lexeme.isContained_head,
        Lexeme.isContained_mark, Lexeme.isContained_number]
    | field v segments =>
      refine List.forall_mem_append.mpr ⟨v.lexemes_contained, fun l hl => ?_⟩
      obtain ⟨s, hs, hl⟩ := List.mem_flatMap.mp hl
      rcases List.mem_pair.mp hl with rfl | rfl
      · exact Lexeme.isContained_mark .dot
      · exact Lexeme.isContained_attributeName (hsegments s hs)
  | literal n =>
    simp [Part.lexemes, Slot.lexemes, Lexeme.isContained_head, Lexeme.isContained_mark,
      Lexeme.isContained_number]
  | named hname =>
    simp [Part.lexemes, Slot.lexemes, Lexeme.isContained_mark, Lexeme.isContained_name hname]
  | collection hname => simpa [Part.lexemes] using Lexeme.isContained_name hname
  | key hkey => simpa [Part.lexemes] using Lexeme.isContained_key hkey

/-- In a statement of contained parts every lexeme is contained. -/
theorem Command.lexemes_contained {c : Command} (h : ∀ p ∈ c.parts, p.Contained) :
    ∀ l ∈ c.lexemes, l.IsContained := by
  intro l hl
  cases hname : l.isName with
  | true =>
    obtain ⟨p, hp, hl⟩ := mem_lexemes hl hname
    exact (h p hp).lexemes l hl
  | false =>
    cases l with
    | number n => exact Lexeme.isContained_number n
    | word w => exact fun _ hs => nomatch hs
    | head h => exact fun _ hs => nomatch hs
    | mark m => exact fun _ hs => nomatch hs
    | _ => cases hname

/-! ## Placeholders -/

/-- The names behind the at-signs of a text, each as long as the text goes on with name
characters. -/
def placeholders : List Char → List String
  | [] => []
  | c :: rest =>
    if c = '@' then String.ofList (rest.takeWhile Text.isNameChar) :: placeholders rest
    else placeholders rest

theorem placeholders_append {cs : List Char} (h : '@' ∉ cs) (rest : List Char) :
    placeholders (cs ++ rest) = placeholders rest := by
  induction cs with
  | nil => rfl
  | cons c others ih =>
    rw [List.mem_cons, not_or] at h
    rw [List.cons_append, placeholders, if_neg (Ne.symm h.1), ih h.2]

/-- The characters of a text. -/
def charsOf (ls : List Lexeme) : List Char := ls.flatMap fun l => l.text.toList

theorem toList_textOf (ls : List Lexeme) : (textOf ls).toList = charsOf ls := by
  rw [textOf, String.toList_join, List.flatMap_map, charsOf]

theorem charsOf_append (ls ls' : List Lexeme) : charsOf (ls ++ ls') = charsOf ls ++ charsOf ls' :=
  List.flatMap_append

/-- A lexeme without an at-sign has no placeholder. -/
theorem placeholders_cons {l : Lexeme} (h : '@' ∉ l.text.toList) (ls : List Lexeme) :
    placeholders (charsOf (l :: ls)) = placeholders (charsOf ls) :=
  placeholders_append h _

/-- What is foreign in a contained lexeme brings no character into it but those of names, dots,
backticks and quotes. -/
theorem Lexeme.IsContained.not_mem {l : Lexeme} (h : l.IsContained) {c : Char}
    (hkey : Text.isKeyChar c = false) (htick : c ≠ '`') (hquote : c ≠ '"') :
    ∀ s ∈ l.foreign?, c ∉ l.text.toList := by
  intro s hs
  obtain ⟨hchars, htext⟩ := h s hs
  have hnot : c ∉ s.toList := by
    intro hmem
    rw [hchars c hmem] at hkey
    cases hkey
  rcases htext with htext | htext | htext
  · rwa [htext]
  · simp [htext, hnot, htick]
  · simp [htext, hnot, hquote]

/-- The foreign part of a contained lexeme has no at-sign, and no fixed lexeme but one. -/
theorem Lexeme.IsContained.at_not_mem {l : Lexeme} (h : l.IsContained) (hmark : l ≠ .mark .atSign) :
    '@' ∉ l.text.toList := by
  have hforeign := h.not_mem (c := '@') (by decide) (by decide) (by decide)
  cases l with
  | word w => cases w <;> decide
  | head head => cases head <;> decide
  | mark m => cases m <;> first | decide | exact absurd rfl hmark
  | _ => exact hforeign _ rfl

theorem Lexeme.Between.ne_atSign {l : Lexeme} (h : l.Between) : l ≠ .mark .atSign := by
  rintro rfl
  cases h with
  | mark h => exact h rfl

def Part.slot? : Part → Option Slot
  | slot s => some s
  | _ => none

theorem Part.eq_of_slot?_eq_some {p : Part} {s : Slot} (h : p.slot? = some s) : p = .slot s := by
  cases p with
  | slot s' => exact congrArg Part.slot (Option.some.inj h)
  | _ => cases h

/-- The slots of a statement in the order of its text. -/
def Command.slots (c : Command) : List Slot := c.parts.filterMap Part.slot?

/-- Reads the names behind at-signs; of the parts only slots have any. -/
def placeholderReader : Reader String where
  read ls := placeholders (charsOf ls)
  part p := (p.slot?.map Slot.name).toList
  read_nil := rfl
  read_between _ rest h := placeholders_cons (h.isContained.at_not_mem h.ne_atSign) rest
  read_column n rest := by
    have hhead := (Lexeme.isContained_head .column).at_not_mem (by simp)
    have hnumber := (Lexeme.isContained_number n).at_not_mem (by simp)
    exact (placeholders_cons hhead _).trans (placeholders_cons hnumber rest)

/-- Lexemes without at-signs give no placeholder. -/
theorem placeholderReader_gives_nil {ls : List Lexeme}
    (h : ∀ l ∈ ls, l.IsContained ∧ l ≠ .mark .atSign) : placeholderReader.Gives ls [] := by
  intro rest _
  induction ls with
  | nil => rfl
  | cons l others ih =>
    obtain ⟨hl, hothers⟩ := List.forall_mem_cons.mp h
    exact (placeholders_cons (hl.1.at_not_mem hl.2) _).trans (ih hothers)

/-- Where lexemes may end, no name goes on. -/
theorem takeWhile_of_ends {rest : List Lexeme} (h : Ends rest) :
    (charsOf rest).takeWhile Text.isNameChar = [] := by
  cases rest with
  | nil => rfl
  | cons l others =>
    obtain ⟨m, -, rfl⟩ := h l rfl
    -- Every mark starts with a character that no name has.
    have hmark : ∃ first more, m.text.toList = first :: more ∧ Text.isNameChar first = false := by
      cases m <;> exact ⟨_, _, rfl, by decide⟩
    obtain ⟨first, more, htext, hfirst⟩ := hmark
    have hchars : charsOf (.mark m :: others) = first :: (more ++ charsOf others) := by
      rw [charsOf, List.flatMap_cons, Lexeme.text, htext]
      rfl
    rw [hchars, List.takeWhile_cons_of_neg (by simp [hfirst])]

theorem charsOf_slot (s : Slot) (rest : List Lexeme) :
    charsOf (s.lexemes ++ rest) = '@' :: (s.name.toList ++ charsOf rest) := by
  cases s <;> simp [charsOf, Slot.lexemes, Slot.name, Lexeme.text, Mark.text, Head.text]

/-- A slot gives its name. -/
theorem placeholderReader_gives_slot {s : Slot}
    (h : ∀ c ∈ s.name.toList, Text.isNameChar c = true) : placeholderReader.Gives s.lexemes [s.name] := by
  intro rest hrest
  have hname : '@' ∉ s.name.toList := fun hmem => absurd (h '@' hmem) (by decide)
  change placeholders (charsOf (s.lexemes ++ rest)) = s.name :: placeholders (charsOf rest)
  rw [charsOf_slot, placeholders, if_pos rfl, placeholders_append hname,
    List.takeWhile_append_of_pos h, takeWhile_of_ends hrest, List.append_nil, String.ofList_toList]

theorem Var.lexemes_ne_atSign (v : Var) : ∀ l ∈ v.lexemes, l ≠ .mark .atSign := by
  cases v <;> simp [lexemes]

theorem attributeName_ne_atSign (s : String) : attributeName s ≠ .mark .atSign := by
  unfold attributeName
  split <;> simp

theorem Expr.lexemes_ne_atSign (e : Expr) : ∀ l ∈ e.lexemes, l ≠ .mark .atSign := by
  cases e with
  | column n => simp [lexemes, Var.lexemes, columnLexemes]
  | field v segments =>
    refine List.forall_mem_append.mpr ⟨v.lexemes_ne_atSign, fun l hl => ?_⟩
    obtain ⟨s, -, hl⟩ := List.mem_flatMap.mp hl
    rcases List.mem_pair.mp hl with rfl | rfl
    · simp
    · exact attributeName_ne_atSign s

/-- A slot is the only part with a placeholder. -/
theorem Part.Contained.gives {p : Part} (h : p.Contained) :
    placeholderReader.Gives p.lexemes (placeholderReader.part p) := by
  have hnone : (∀ l ∈ p.lexemes, l ≠ .mark .atSign) → placeholderReader.Gives p.lexemes [] :=
    fun hat => placeholderReader_gives_nil fun l hl => ⟨h.lexemes l hl, hat l hl⟩
  cases h with
  | var v => exact hnone v.lexemes_ne_atSign
  | @expr e _ => exact hnone e.lexemes_ne_atSign
  | literal n =>
    refine placeholderReader_gives_slot (s := .literal n) fun c hc => ?_
    have hlit : ∀ c ∈ "lit".toList, Text.isNameChar c = true := List.all_eq_true.mp (by decide)
    rw [Slot.name, String.toList_append, List.mem_append] at hc
    rcases hc with hc | hc
    · exact hlit c hc
    · exact Text.isNameChar_of_isDigit (Text.isDigit_of_mem_toString hc)
  | @named name hname =>
    exact placeholderReader_gives_slot (s := .named name) (Text.isNameChar_of_isIdentifier hname)
  | collection _ => exact hnone (by simp [Part.lexemes])
  | key _ => exact hnone (by simp [Part.lexemes])

/-- The placeholders in the text of a statement whose parts are contained are the names of its
slots. -/
theorem Command.placeholders_text {c : Command} (h : ∀ p ∈ c.parts, p.Contained) :
    placeholders c.text.toList = c.slots.map Slot.name := by
  rw [text, toList_textOf, slots, List.map_filterMap, List.filterMap_eq_flatMap_toList]
  exact placeholderReader.read_command c fun p hp => (h p hp).gives

end GraphMapper.Aql
