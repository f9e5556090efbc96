import BlockFlow.Document.Load
import BlockFlow.Text.Alphanumeric

/-!
Ids for new nodes: a stem and the first number that makes them new.
-/

namespace BlockFlow

/-- A character of an id; all others become underscores. -/
def idChar (c : Char) : Char := if Text.isAsciiAlphanumeric c || c = '_' then c else '_'

/-- Drops a number at the end and the underscore before it, unless nothing would stay. -/
def dropNumber (cs : List Char) : List Char :=
  let digits := cs.reverse.takeWhile Text.isDigit
  match cs.reverse.dropWhile Text.isDigit with
  | '_' :: c :: rest => if digits.isEmpty then cs else (c :: rest).reverse
  | _ => cs

/-- The stem of the ids made from a name: `io_print` from `io_print_3`. -/
def idStem (name : String) : String :=
  match dropNumber (name.toList.map idChar) with
  | [] => "node"
  | cs => String.ofList cs

/-- The id with number `n`. -/
def idOf (stem : String) (n : Nat) : String :=
  stem ++ "_" ++ String.ofList (Text.decimalDigits n)

/-- The first number from `n` on whose id is not taken, looking at `fuel` numbers. -/
def freeNumber (stem : String) (taken : List String) : (fuel n : Nat) → Nat
  | 0, n => n
  | fuel + 1, n => if taken.contains (idOf stem n) then freeNumber stem taken fuel (n + 1) else n

/-- The first id made from a name that is not taken. Among one number more than there are ids taken
one is free. -/
def freeId (taken : List String) (name : String) : String :=
  let stem := idStem name
  idOf stem (freeNumber stem taken taken.length 1)

/-- A source of ids, which remembers those handed out. -/
structure IdSource where
  given : List String := []
  deriving DecidableEq, Repr, Inhabited

namespace IdSource

/-- An id that is neither in use in a document nor handed out before. -/
def take (s : IdSource) (d : Document) (name : String) : String × IdSource :=
  let id := freeId (d.allIds ++ s.given) name
  (id, ⟨id :: s.given⟩)

/-- An id for the document of a text. -/
def takeFor (s : IdSource) (text name : String) : Except EditError (String × IdSource) :=
  match Document.load text with
  | .ok d => .ok (s.take d name)
  | .error e => .error (.document e)

end IdSource

/-- An id that is not in use in the document of a text. -/
def freshId (text name : String) : Except EditError String :=
  match Document.load text with
  | .ok d => .ok (freeId d.allIds name)
  | .error e => .error (.document e)

end BlockFlow
