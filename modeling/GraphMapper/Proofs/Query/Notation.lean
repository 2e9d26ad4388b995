import GraphMapper.Proofs.Value
import GraphMapper.Query.Notation

/-!
# Operations read from what is written of them

Whatever way a list of operations was given in, what is written of it reads as the same list
(`Operation.listOfJson?_listToJson`).

The values and operands that JSON is read as form the image on which writing is injective: a value that
was read is written as JSON that reads as the same value (`Value.ofJson_toJson_ofJson`), and a literal is
never written as what reads as a parameter (`Operand.ofJson_toJson_ofJson`). A condition is `Legible` if
it is read from what is written of it at any depth that suffices; it is so when its operand is of that
image or its members are legible, one lemma for each kind, and every condition that was read is.
-/

namespace GraphMapper

/-! ## Values and operands -/

namespace Value

/-- A number is read as a signed word or as a finite float. -/
theorem ofJson_number (n : JsonNumber) :
    (∃ i, ofJson (.number n) = .int i) ∨ ∃ x, ofJson (.number n) = .float (.finite x) := by
  rw [ofJson]
  cases n.toInt64? with
  | some i => exact Or.inl ⟨i, rfl⟩
  | none =>
    obtain ⟨x, hx⟩ := n.exists_toDouble
    rw [hx]
    exact Or.inr ⟨x, rfl⟩

mutual
/-- A value that was read without a type is read again as the same value. -/
theorem ofJson_toJson_ofJson : ∀ j : Json, ofJson (ofJson j).toJson = ofJson j
  | .null => rfl
  | .bool _ => rfl
  | .number n => by
    rcases ofJson_number n with ⟨i, hi⟩ | ⟨x, hx⟩
    · have hword : (JsonNumber.ofInt64 i).toInt64? = some i := toInt64?_ofInt64 i
      rw [hi, toJson, Json.ofInt64, ofJson, hword]
    · rw [hx]
      rfl
  | .string _ => rfl
  | .array items => by
    rw [ofJson, toJson, ofJson, ofJsons_toJsons_ofJsons items]
  | .object _ => rfl
theorem ofJsons_toJsons_ofJsons : ∀ items : List Json,
    ofJsons (toJsons (ofJsons items)) = ofJsons items
  | [] => rfl
  | j :: rest => by
    rw [ofJsons, toJsons, ofJsons, ofJson_toJson_ofJson j, ofJsons_toJsons_ofJsons rest]
end

/-- A value that was read has members only if it is the object that was given. -/
theorem get?_toJson_ofJson (j : Json) (name : String) :
    (ofJson j).toJson.get? name = j.get? name := by
  cases j with
  | number n =>
    rcases ofJson_number n with ⟨i, hi⟩ | ⟨x, hx⟩
    · rw [hi]
      rfl
    · rw [hx]
      rfl
  | _ => rfl

end Value

/-- An operand that was read is read again as the same operand. -/
theorem Operand.ofJson_toJson_ofJson (j : Json) : ofJson (ofJson j).toJson = ofJson j := by
  cases hname : (j.get? "param").bind Json.toString? with
  | some name =>
    have hparameter : ofJson j = .parameter name := by rw [ofJson, hname]
    rw [hparameter]
    rfl
  | none =>
    have hliteral : ofJson j = .literal (Value.ofJson j) := by rw [ofJson, hname]
    have hagain : ((Value.ofJson j).toJson.get? "param").bind Json.toString? = none := by
      rw [Value.get?_toJson_ofJson, hname]
    rw [hliteral, toJson, ofJson, hagain, Value.ofJson_toJson_ofJson]

/-! ## Names -/

theorem Comparison.ofJson?_name (c : Comparison) : ofJson? (.string c.name) = some c := by
  cases c <;> decide +kernel

theorem SortDirection.ofJson?_name (d : SortDirection) : ofJson? (.string d.name) = some d := by
  cases d <;> decide +kernel

/-! ## Lists -/

namespace Json

variable {α : Type} {read : Json → Option α}

/-- A list is read item by item. -/
theorem toList?_array_eq_some {items : List Json} {as : List α} :
    (array items).toList? read = some as ↔ items.map read = as.map some := by
  show items.mapM read = some as ↔ _
  induction items generalizing as with
  | nil => cases as <;> simp
  | cons j rest ih =>
    rw [List.mapM_cons, Option.bind_eq_bind, Option.bind_eq_some_iff]
    cases as with
    | nil => simp [Option.bind_eq_some_iff]
    | cons a as => simp [Option.bind_eq_some_iff, ih]

/-- Each item that was read was read from some JSON. -/
theorem exists_of_mem_toList? {j : Json} {as : List α} {a : α} (h : j.toList? read = some as)
    (ha : a ∈ as) : ∃ item, read item = some a := by
  cases j with
  | array items =>
    have hmem : some a ∈ items.map read := by
      rw [toList?_array_eq_some.mp h]
      exact List.mem_map_of_mem ha
    obtain ⟨item, -, hitem⟩ := List.mem_map.mp hmem
    exact ⟨item, hitem⟩
  | _ => cases h

/-- Items that are each read from what is written of them are read from the list of it. -/
theorem toList?_map {write : α → Json} {as : List α} (h : ∀ a ∈ as, read (write a) = some a) :
    (array (as.map write)).toList? read = some as := by
  rw [toList?_array_eq_some, List.map_map]
  exact List.map_congr_left h

theorem toList?_ofStrings (items : List String) : (ofStrings items).toList? toString? = some items :=
  toList?_map fun _ _ => rfl

theorem toUInt32?_ofNat (n : UInt32) : (ofNat n.toNat).toUInt32? = some n := by
  have hsize := n.toNat_lt
  rw [ofNat, dif_pos (by omega), toUInt32?, if_pos (by omega), Int.toNat_natCast, UInt32.ofNat_toNat]

end Json

/-! ## Readers -/

namespace RecordReader

variable {α β τ : Type} {fields rest : RecordFields} {members : Dict String Json} {name : String}

/-- Two readers, one after the other. -/
theorem bind_eq_some {x : RecordReader α} {f : α → RecordReader β} {b : β} :
    (x >>= f) fields = some (b, rest) ↔
      ∃ a between, x fields = some (a, between) ∧ f a between = some (b, rest) := by
  change (x fields >>= fun p => f p.1 p.2) = some (b, rest) ↔ _
  constructor
  · intro h
    obtain ⟨⟨a, between⟩, hx, hf⟩ := Option.bind_eq_some_iff.mp h
    exact ⟨a, between, hx, hf⟩
  · rintro ⟨a, between, hx, hf⟩
    exact Option.bind_eq_some_iff.mpr ⟨(a, between), hx, hf⟩

theorem pure_eq_some {a b : α} : (pure a : RecordReader α) fields = some (b, rest) ↔
    a = b ∧ fields = rest := by
  change some (a, fields) = some (b, rest) ↔ _
  rw [Option.some_inj, Prod.mk.injEq]

/-! ### Whichever way the record was given in -/

/-- Whatever the reader makes of any fields has the property. -/
def Yields (P : α → Prop) (reader : RecordReader α) : Prop :=
  ∀ fields a rest, reader fields = some (a, rest) → P a

theorem yields_true (reader : RecordReader α) : reader.Yields fun _ => True :=
  fun _ _ _ _ => trivial

theorem yields_pure {P : α → Prop} {a : α} (h : P a) : (pure a : RecordReader α).Yields P := by
  intro fields b rest hread
  obtain ⟨rfl, -⟩ := pure_eq_some.mp hread
  exact h

theorem Yields.bind {P : α → Prop} {Q : β → Prop} {x : RecordReader α} {f : α → RecordReader β}
    (hx : x.Yields P) (hf : ∀ a, P a → (f a).Yields Q) : (x >>= f).Yields Q := by
  intro fields b rest hread
  obtain ⟨a, between, ha, hb⟩ := bind_eq_some.mp hread
  exact hf a (hx fields a between ha) between b rest hb

/-- A field that was read was read from some JSON. -/
theorem yields_field {P : α → Prop} {read : Json → Option α}
    (h : ∀ j a, read j = some a → P a) : (field name read).Yields P := by
  intro fields a rest hread
  unfold field at hread
  split at hread
  · next j _ _ =>
    obtain ⟨b, hb, heq⟩ := Option.map_eq_some_iff.mp hread
    obtain ⟨rfl, -⟩ := Prod.mk.inj heq
    exact h j b hb
  · cases hread

/-- A tagged record was read by the reader of its case. -/
theorem of_tagged? {P : α → Prop} {tag : String} {readTag : Json → Option τ}
    {reader : τ → RecordReader α} (hreader : ∀ t, (reader t).Yields P) {j : Json} {a : α}
    (h : tagged? tag readTag reader j = some a) : P a := by
  obtain ⟨fields, -, h⟩ := Option.bind_eq_some_iff.mp h
  obtain ⟨⟨t, between⟩, -, h⟩ := Option.bind_eq_some_iff.mp h
  obtain ⟨⟨b, rest⟩, hread, h⟩ := Option.bind_eq_some_iff.mp h
  have hb : P b := hreader t between b rest hread
  dsimp only at h
  rw [Option.ite_none_right_eq_some] at h
  obtain rfl := Option.some.inj h.2
  exact hb

/-! ### Records with named fields -/

theorem field_named {read : Json → Option α} {j : Json} {a : α}
    (hfound : Dict.find? members name = some j) (hread : read j = some a) :
    field name read (.named members) = some (a, .named members) := by
  simp [field, RecordFields.next, hfound, hread]

theorem fieldOr_named {read : Json → Option α} {default : α} {j : Json} {a : α}
    (hfound : Dict.find? members name = some j) (hread : read j = some a) :
    fieldOr name default read (.named members) = some (a, .named members) := by
  simp [fieldOr, RecordFields.next, hfound, hread]

theorem tagged?_named {tag : String} {readTag : Json → Option τ} {reader : τ → RecordReader α}
    {j : Json} {t : τ} {a : α} (hfound : Dict.find? members tag = some j)
    (htag : readTag j = some t) (hread : reader t (.named members) = some (a, .named members)) :
    tagged? tag readTag reader (.object members) = some a := by
  simp [tagged?, RecordFields.of?, field_named hfound htag, finish?, hread, RecordFields.isDone]

end RecordReader

/-! ## Conditions -/

namespace Condition

open RecordReader

/-- The condition is read from what is written of it, at any depth that suffices. -/
def Legible (c : Condition) : Prop :=
  ∀ nested fuel, jsonDepth c.toJson ≤ fuel → read? nested fuel c.toJson = some c

theorem legible_compare {path : String} {comparison : Comparison} {operand : Operand}
    (h : Operand.ofJson operand.toJson = operand) : (compare path comparison operand).Legible := by
  intro nested fuel hdepth
  cases fuel with
  | zero => cases hdepth
  | succ fuel =>
    refine tagged?_named rfl rfl ?_
    refine bind_eq_some.mpr ⟨path, _, field_named rfl rfl, ?_⟩
    refine bind_eq_some.mpr ⟨comparison, _, field_named rfl comparison.ofJson?_name, ?_⟩
    refine bind_eq_some.mpr ⟨operand, _, field_named rfl (congrArg some h), ?_⟩
    exact pure_eq_some.mpr ⟨rfl, rfl⟩

theorem legible_isNull (path : String) (negated : Bool) : (isNull path negated).Legible := by
  intro nested fuel hdepth
  cases fuel with
  | zero => cases hdepth
  | succ fuel =>
    refine tagged?_named rfl rfl ?_
    refine bind_eq_some.mpr ⟨path, _, field_named rfl rfl, ?_⟩
    refine bind_eq_some.mpr ⟨negated, _, fieldOr_named rfl rfl, ?_⟩
    exact pure_eq_some.mpr ⟨rfl, rfl⟩

/-- A list of legible conditions is read from what is written of it. -/
theorem toList?_toJsons {cs : List Condition} (h : ∀ c ∈ cs, c.Legible) {fuel : Nat}
    (hdepth : jsonDepth.jsonDepths (toJsons cs) ≤ fuel) :
    (Json.array (toJsons cs)).toList? (read? true fuel) = some cs := by
  rw [Json.toList?_array_eq_some]
  induction cs with
  | nil => rfl
  | cons c rest ih =>
    obtain ⟨hfirst, hrest⟩ := List.forall_mem_cons.mp h
    rw [toJsons, jsonDepth.jsonDepths] at hdepth
    rw [toJsons, List.map_cons, hfirst true fuel (by omega), ih hrest (by omega), List.map_cons]

theorem legible_all {cs : List Condition} (h : ∀ c ∈ cs, c.Legible) : (all cs).Legible := by
  intro nested fuel hdepth
  cases fuel with
  | zero => cases hdepth
  | succ fuel =>
    simp only [toJson, jsonDepth, jsonDepth.memberDepths] at hdepth
    refine tagged?_named rfl rfl ?_
    refine bind_eq_some.mpr ⟨cs, _, field_named rfl (toList?_toJsons h (by omega)), ?_⟩
    exact pure_eq_some.mpr ⟨rfl, rfl⟩

theorem legible_any {cs : List Condition} (h : ∀ c ∈ cs, c.Legible) : (any cs).Legible := by
  intro nested fuel hdepth
  cases fuel with
  | zero => cases hdepth
  | succ fuel =>
    simp only [toJson, jsonDepth, jsonDepth.memberDepths] at hdepth
    refine tagged?_named rfl rfl ?_
    refine bind_eq_some.mpr ⟨cs, _, field_named rfl (toList?_toJsons h (by omega)), ?_⟩
    exact pure_eq_some.mpr ⟨rfl, rfl⟩

theorem legible_not {c : Condition} (h : c.Legible) : (not c).Legible := by
  intro nested fuel hdepth
  cases fuel with
  | zero => cases hdepth
  | succ fuel =>
    simp only [toJson, jsonDepth, jsonDepth.memberDepths] at hdepth
    refine tagged?_named rfl rfl ?_
    refine bind_eq_some.mpr ⟨c, _, field_named rfl (h true fuel (by omega)), ?_⟩
    exact pure_eq_some.mpr ⟨rfl, rfl⟩

/-- Members that were read are legible if all that is read with the same fuel is. -/
theorem legible_of_toList? {fuel : Nat}
    (ih : ∀ (nested : Bool) (j : Json) (c : Condition), read? nested fuel j = some c → c.Legible)
    {j : Json} {cs : List Condition} (h : j.toList? (read? true fuel) = some cs) :
    ∀ c ∈ cs, c.Legible := by
  intro c hc
  obtain ⟨item, hitem⟩ := Json.exists_of_mem_toList? h hc
  exact ih true item c hitem

/-- Every condition that was read is legible. -/
theorem legible_of_read? {nested : Bool} {fuel : Nat} {j : Json} {c : Condition}
    (h : read? nested fuel j = some c) : c.Legible := by
  induction fuel generalizing nested j c with
  | zero => cases h
  | succ fuel ih =>
    have hmembers : (field "conditions" (Json.toList? (read? true fuel))).Yields
        fun cs => ∀ c ∈ cs, c.Legible :=
      yields_field fun _ _ => legible_of_toList? fun _ _ _ => ih
    refine of_tagged? (fun kind => ?_) h
    cases kind with
    | compare =>
      have hoperand : (field "value" fun j => some (Operand.ofJson j)).Yields
          fun operand => Operand.ofJson operand.toJson = operand := by
        refine yields_field fun raw operand hread => ?_
        obtain rfl := Option.some.inj hread
        exact Operand.ofJson_toJson_ofJson raw
      refine (yields_true _).bind fun path _ => (yields_true _).bind fun comparison _ => ?_
      exact hoperand.bind fun operand h => yields_pure (legible_compare h)
    | isNull =>
      refine (yields_true _).bind fun path _ => (yields_true _).bind fun negated _ => ?_
      exact yields_pure (legible_isNull path negated)
    | all => exact hmembers.bind fun cs h => yields_pure (legible_all h)
    | any => exact hmembers.bind fun cs h => yields_pure (legible_any h)
    | not => exact (yields_field fun _ _ => ih).bind fun c h => yields_pure (legible_not h)

end Condition

/-! ## Operations -/

namespace Operation

open RecordReader

/-- What the operation holds of conditions is legible. -/
def Legible : Operation → Prop
  | filter c => c.Legible
  | _ => True

/-- A legible operation is read from what is written of it. -/
theorem ofJson?_toJson {op : Operation} (h : op.Legible) : ofJson? op.toJson = some op := by
  cases op with
  | filter c =>
    have hread : Condition.ofJson? true c.toJson = some c := h true _ (Nat.le_refl _)
    refine tagged?_named rfl rfl ?_
    refine bind_eq_some.mpr ⟨c, _, field_named rfl hread, ?_⟩
    exact pure_eq_some.mpr ⟨rfl, rfl⟩
  | project fields =>
    refine tagged?_named rfl rfl ?_
    refine bind_eq_some.mpr ⟨fields, _, field_named rfl (Json.toList?_ofStrings fields), ?_⟩
    exact pure_eq_some.mpr ⟨rfl, rfl⟩
  | order fields direction =>
    refine tagged?_named rfl rfl ?_
    refine bind_eq_some.mpr ⟨fields, _, field_named rfl (Json.toList?_ofStrings fields), ?_⟩
    refine bind_eq_some.mpr ⟨direction, _, fieldOr_named rfl direction.ofJson?_name, ?_⟩
    exact pure_eq_some.mpr ⟨rfl, rfl⟩
  | limit count offset =>
    refine tagged?_named rfl rfl ?_
    refine bind_eq_some.mpr ⟨count, _, field_named rfl (Value.toInt64?_ofInt64 count), ?_⟩
    refine bind_eq_some.mpr ⟨offset, _, fieldOr_named rfl (Value.toInt64?_ofInt64 offset), ?_⟩
    exact pure_eq_some.mpr ⟨rfl, rfl⟩
  | aggregate function field groupBy =>
    refine tagged?_named rfl rfl ?_
    refine bind_eq_some.mpr ⟨function, _, field_named rfl rfl, ?_⟩
    refine bind_eq_some.mpr ⟨field, _, field_named rfl rfl, ?_⟩
    refine bind_eq_some.mpr ⟨groupBy, _, fieldOr_named rfl (Json.toList?_ofStrings groupBy), ?_⟩
    exact pure_eq_some.mpr ⟨rfl, rfl⟩
  | traverse relationship depth =>
    refine tagged?_named rfl rfl ?_
    refine bind_eq_some.mpr ⟨relationship, _, field_named rfl rfl, ?_⟩
    refine bind_eq_some.mpr ⟨depth, _, fieldOr_named rfl (Json.toUInt32?_ofNat depth), ?_⟩
    exact pure_eq_some.mpr ⟨rfl, rfl⟩
  | «include» relationship =>
    refine tagged?_named rfl rfl ?_
    refine bind_eq_some.mpr ⟨relationship, _, field_named rfl rfl, ?_⟩
    exact pure_eq_some.mpr ⟨rfl, rfl⟩

/-- The reader of every tag makes legible operations. -/
theorem yields_reader (tag : String) : (reader tag).Yields Legible := by
  unfold reader
  split
  case h_1 => -- a filter
    refine (yields_field fun _ _ => Condition.legible_of_read?).bind fun c hc => ?_
    exact yields_pure hc
  case h_2 => exact (yields_true _).bind fun _ _ => yields_pure trivial
  case h_3 =>
    refine (yields_true _).bind fun _ _ => (yields_true _).bind fun _ _ => ?_
    exact yields_pure trivial
  case h_4 =>
    refine (yields_true _).bind fun _ _ => (yields_true _).bind fun _ _ => ?_
    exact yields_pure trivial
  case h_5 =>
    refine (yields_true _).bind fun _ _ => (yields_true _).bind fun _ _ => ?_
    exact (yields_true _).bind fun _ _ => yields_pure trivial
  case h_6 =>
    refine (yields_true _).bind fun _ _ => (yields_true _).bind fun _ _ => ?_
    exact yields_pure trivial
  case h_7 => exact (yields_true _).bind fun _ _ => yields_pure trivial
  case h_8 => exact fun _ _ _ h => nomatch h

/-- Operations that were read are read from what is written of them as the same operations. -/
theorem listOfJson?_listToJson {j : Json} {ops : List Operation} (h : listOfJson? j = some ops) :
    listOfJson? (listToJson ops) = some ops := by
  refine Json.toList?_map fun op hop => ?_
  obtain ⟨item, hitem⟩ := Json.exists_of_mem_toList? h hop
  exact ofJson?_toJson (of_tagged? yields_reader hitem)

/-- Operations in short forms: a kind by its number, members nobody asks for, records as lists, names
by their aliases, defaults left out. The literal holds an object that is not quite a parameter and an
integer one beyond the signed words. -/
def shorthand : Json := .array [
  .object [
    ("condition", .object [
      ("conditions", .array [
        .object [("kind", .number (.integer 0 (by decide))), ("note", .bool true),
          ("op", .string "lte"), ("path", .string "balance"),
          ("value", .object [("param", .string "ceiling"), ("unit", .null)])],
        .array [.string "not", .array [.string "is_null", .string "owner"]],
        .object [("kind", .string "compare"), ("op", .string "in_set"), ("path", .string "code"),
          ("value", .array [.object [("param", .number (.integer 1 (by decide)))],
            .number (.integer 9223372036854775808 (by decide)), .string "2024-01-01T00:00:00Z"])]]),
      ("kind", .string "any")]),
    ("op", .string "filter")],
  .array [.string "order", .array [.string "balance"], .string "desc"],
  .object [("op", .string "traverse"), ("relationship", .string "owner.accounts")]]

/-- The operations in full. -/
def longhand : List Operation := [
  .filter (.any [
    .compare "balance" .lessThanOrEqual (.parameter "ceiling"),
    .not (.isNull "owner" false),
    .compare "code" .isIn (.literal (.list [
      .json (.object [("param", .number (.integer 1 (by decide)))]),
      .float (Double.ofInt 9223372036854775808), .string "2024-01-01T00:00:00Z"]))]),
  .order ["balance"] .descending,
  .traverse "owner.accounts" 1]

/-- The short forms are read as the operations in full, and so are these once written. -/
theorem listOfJson?_listToJson_longhand : listOfJson? shorthand = some longhand ∧
    listOfJson? (listToJson longhand) = some longhand := by
  have hread : listOfJson? shorthand = some longhand := rfl
  exact ⟨hread, listOfJson?_listToJson hread⟩

end Operation

end GraphMapper
