import GraphMapper.Error.Basic
import GraphMapper.Query.Basic
import GraphMapper.Text.Identifier
import GraphMapper.Value.Stored

/-! # Typing of comparisons

The right side of a comparison is a parameter with a usable name, or a literal that the comparison
allows for the type of the field. Names that statements use for literals are not usable.
-/

namespace GraphMapper

/-- Names that statements use for literals: `lit` and a number. -/
def isLiteralName (name : String) : Bool :=
  match name.toList with
  | 'l' :: 'i' :: 't' :: rest => !rest.isEmpty && rest.all Text.isDigit
  | _ => false

/-- A name that a caller may give to a parameter. -/
def isParameterName (name : String) : Bool := Text.isIdentifier name && !isLiteralName name

/-- Whether a literal may stand on the right of a comparison with a field of a type. -/
def Comparison.allows (comparison : Comparison) (type : FieldType) (literal : Value) : Bool :=
  match comparison with
  | .isIn =>
    match literal with
    | .list items => items.all type.accepts
    | .json (.array _) => true
    | _ => false
  | .contains =>
    match type, literal with
    | .string, .string _ => true
    | .json, _ => true
    | _, _ => false
  | .startsWith =>
    match type, literal with
    | .string, .string _ => true
    | _, _ => false
  | _ => type.accepts literal

/-- The right side of a comparison with a field: a usable name, or a literal of the right type. -/
def Operand.check (field : FieldPath) (comparison : Comparison) : Operand → Except Error Unit
  | .parameter name =>
    if isParameterName name then .ok () else .error (.invalidQuery (.parameterName name))
  | .literal value =>
    match field.attribute? with
    | none => .ok ()
    | some a =>
      if comparison.allows a.type value then .ok () else .error (.typeMismatch field.path a.type)

end GraphMapper
