import GraphMapper.Aql.Text
import GraphMapper.Error.Basic
import GraphMapper.Value.Stored

/-! # Statements with their bind variables

A statement is a command with the values of its slots. Slots of parameters start without a value;
`unbound` lists those that still lack one, and only when it is empty can the statement be sent.
Binding a parameter again replaces its value, and nothing but a parameter can be bound.
-/

namespace GraphMapper

structure Statement where
  command : Aql.Command
  bindVars : Dict String Json
  unbound : List String := []
  /-- The names that a caller may bind, in order. -/
  parameters : List String := []

namespace Statement

/-- The text of the command. -/
def query (s : Statement) : String := s.command.text

/-- A statement whose slots all have values. -/
def closed (command : Aql.Command) (values : List (Aql.Slot × Json)) : Statement where
  command := command
  bindVars := Dict.ofEntries (values.map fun v => (v.1.name, v.2))

/-- Gives a parameter its value. -/
def bind (s : Statement) (name : String) (value : Value) : Except Error Statement :=
  if s.parameters.contains name then
    .ok { s with
      bindVars := Dict.insert s.bindVars name value.toJson
      unbound := s.unbound.filter (· != name) }
  else .error (.unknownParameter name)

def isReady (s : Statement) : Bool := s.unbound.isEmpty

/-- A statement may be sent when every parameter has a value. -/
def checkReady (s : Statement) : Except Error Unit :=
  if s.isReady then .ok () else .error (.invalidQuery (.unboundParameters s.unbound))

/-- What is sent to the database. -/
def requestBody (s : Statement) : Except Error Json := do
  s.checkReady
  return .object [("bindVars", .object s.bindVars), ("query", .string s.query)]

end Statement

end GraphMapper
