import GraphMapper.Aql.Statement

/-! # Running statements

A transport sends statements to a database. It is given by its answers: to each statement, after the
statements that it has run so far, rows or an error of its own choice. Running therefore carries the
list of statements that were handed over, and every outcome comes with that list.

A transport refuses nothing on its own: whether a statement is ready is looked at by those who hand it
over.
-/

namespace GraphMapper

/-- The answers of a database. -/
structure Transport where
  answer : List Statement → Statement → Except Error (List Json)

/-- The transport that has a list of answers, one for each statement: rows, or the text of a failure
of the database. When they are used up there are no rows. -/
def Transport.scripted (answers : List (Except String (List Json))) : Transport where
  answer executed _ := (answers.getD executed.length (.ok [])).mapError Error.storage

namespace Transport

/-- Runs a statement; the list holds the statements that have been run. -/
def execute (t : Transport) (executed : List Statement) (s : Statement) :
    Except Error (List Json) × List Statement :=
  (t.answer executed s, executed ++ [s])

/-- Runs statements in order up to the first failure. -/
def executeAll (t : Transport) (executed : List Statement) :
    List Statement → Except Error (List (List Json)) × List Statement
  | [] => (.ok [], executed)
  | s :: rest =>
    match t.execute executed s with
    | (.error e, executed) => (.error e, executed)
    | (.ok rows, executed) =>
      match t.executeAll executed rest with
      | (.error e, executed) => (.error e, executed)
      | (.ok more, executed) => (.ok (rows :: more), executed)

end Transport

end GraphMapper
