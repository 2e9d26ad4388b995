import GraphMapper.Value.Basic

/-! # Attributes

A scalar attribute has a name, a field type and perhaps a default. `StoredAs` gives the field type
of the values of a Lean type, so that an attribute can be declared by the type that a program uses
for it.
-/

namespace GraphMapper

/-! ## Field types of Lean types -/

/-- The field type that holds the values of a type, and whether null is one of them. -/
class StoredAs (α : Type) where
  fieldType : FieldType
  nullable : Bool := false

instance : StoredAs String where fieldType := .string
instance : StoredAs Bool where fieldType := .boolean
instance : StoredAs Int8 where fieldType := .integer
instance : StoredAs Int16 where fieldType := .integer
instance : StoredAs Int32 where fieldType := .integer
instance : StoredAs Int64 where fieldType := .integer
instance : StoredAs UInt8 where fieldType := .integer
instance : StoredAs UInt16 where fieldType := .integer
instance : StoredAs UInt32 where fieldType := .integer
instance : StoredAs Float32 where fieldType := .float
instance : StoredAs Float where fieldType := .float
instance : StoredAs Double where fieldType := .float
instance : StoredAs Timestamp where fieldType := .dateTime
instance : StoredAs Json where fieldType := .json
instance {α : Type} : StoredAs (List α) where fieldType := .json

instance {α : Type} [StoredAs α] : StoredAs (Option α) where
  fieldType := StoredAs.fieldType α
  nullable := true

/-! ## Attributes -/

/-- A scalar attribute. A default is used when a new document leaves the attribute out. -/
structure Attribute where
  name : String
  type : FieldType
  nullable : Bool := false
  default : Option Value := none

namespace Attribute

/-- The attribute of a name whose values have the given Lean type. -/
def storing (α : Type) [StoredAs α] (name : String) : Attribute :=
  { name, type := StoredAs.fieldType α, nullable := StoredAs.nullable α }

/-- A document that lacks the attribute, or holds null there, is corrupt. -/
def required (a : Attribute) : Bool := !a.nullable

end Attribute

end GraphMapper
