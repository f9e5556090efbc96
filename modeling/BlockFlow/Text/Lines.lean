/-!
The lines of a text.
-/

namespace BlockFlow.Text

/-- Drops a carriage return at the end; the characters come last one first. -/
def dropReturn : List Char → List Char
  | '\r' :: rest => rest
  | cs => cs

/-- The lines of a text of which `line`, last character first, has been read. -/
def linesFrom (line : List Char) : List Char → List (List Char)
  | [] => if line.isEmpty then [] else [line.reverse]
  | '\n' :: rest => (dropReturn line).reverse :: linesFrom [] rest
  | c :: rest => linesFrom (c :: line) rest

/-- The lines of a text. A line feed ends a line, and a carriage return right before it is
dropped. -/
def lines (cs : List Char) : List (List Char) := linesFrom [] cs

/-- Writes lines with line feeds between them. -/
def joinLines : List (List Char) → List Char
  | [] => []
  | [line] => line
  | line :: rest => line ++ '\n' :: joinLines rest

/-- Whether the last line is ended. A text without lines counts as ended. -/
def isEnded (cs : List Char) : Bool :=
  match cs.getLast? with
  | none => true
  | some c => c = '\n'

/-- A number of spaces. -/
def spaces (n : Nat) : List Char := List.replicate n ' '

end BlockFlow.Text
