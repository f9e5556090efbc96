import BlockFlow.Text.Blank

/-!
A place in a YAML text: the characters ahead and where they stand. Lines end at line breaks; a
carriage return with the line feed behind it is one break.
-/

namespace BlockFlow.Yaml

/-- Space and tab. -/
def isBlank (c : Char) : Bool := c = ' ' || c = '\t'

/-- The characters that break lines. -/
def isBreak (c : Char) : Bool :=
  c = '\n' || c = '\r' || c.toNat = 0x85 || c.toNat = 0x2028 || c.toNat = 0x2029

def isBlankOrBreak (c : Char) : Bool := isBlank c || isBreak c

/-- The characters of anchors, directives and tag handles. -/
def isWord (c : Char) : Bool :=
  ('0' ≤ c && c ≤ '9') || ('A' ≤ c && c ≤ 'Z') || ('a' ≤ c && c ≤ 'z') || c = '_' || c = '-'

/-- The characters that may stand in a text at all. -/
def isAllowed (c : Char) : Bool :=
  let n := c.toNat
  n = 0x09 || n = 0x0A || n = 0x0D || (0x20 ≤ n && n ≤ 0x7E) || n = 0x85 ||
    (0xA0 ≤ n && n ≤ 0xD7FF) || (0xE000 ≤ n && n ≤ 0xFFFD) || 0x10000 ≤ n

/-- Whether nothing, a blank or a break comes first. -/
def startsBlank : List Char → Bool
  | [] => true
  | c :: _ => isBlankOrBreak c

/-- A place in a text. -/
structure Cursor where
  rest : List Char
  /-- The number of bytes before the place. -/
  offset : Nat
  line : Nat
  column : Nat
  deriving Inhabited

namespace Cursor

/-- The start of a text. -/
def start (cs : List Char) : Cursor := ⟨cs, 0, 0, 0⟩

/-- Goes past `n` characters of the line. -/
def skip (c : Cursor) (n : Nat) : Cursor :=
  { c with
    rest := c.rest.drop n
    offset := c.offset + Text.byteWidth (c.rest.take n)
    column := c.column + n }

/-- Goes past a line break. -/
def skipBreak (c : Cursor) : Cursor :=
  match c.rest with
  | '\r' :: '\n' :: rest => ⟨rest, c.offset + 2, c.line + 1, 0⟩
  | b :: rest => ⟨rest, c.offset + b.utf8Size, c.line + 1, 0⟩
  | [] => c

/-- The line break ahead as it counts in a scalar: a line feed, but for the two separators of
Unicode, which stay. -/
def breakText (c : Cursor) : List Char :=
  match c.rest with
  | b :: _ =>
    if b.toNat = 0x2028 || b.toNat = 0x2029 then [b] else if isBreak b then ['\n'] else []
  | [] => []

/-- Goes past the characters that satisfy `p`, none of which may be a break. -/
def span (c : Cursor) (p : Char → Bool) : List Char × Cursor :=
  let run := c.rest.takeWhile p
  (run, c.skip run.length)

/-- Whether a break lies ahead. -/
def atBreak (c : Cursor) : Bool :=
  match c.rest with
  | b :: _ => isBreak b
  | [] => false

/-- Whether a blank lies ahead. -/
def atBlank (c : Cursor) : Bool :=
  match c.rest with
  | b :: _ => isBlank b
  | [] => false

/-- Whether the three characters `mark` stand at the start of the line, as a word of their own. -/
def atMark (c : Cursor) (mark : List Char) : Bool :=
  c.column = 0 && c.rest.take 3 = mark && startsBlank (c.rest.drop 3)

/-- Whether a mark that starts or ends documents stands here. -/
def atDocumentMark (c : Cursor) : Bool := c.atMark ['-', '-', '-'] || c.atMark ['.', '.', '.']

/-- Goes to the end of the line. -/
def skipLine (c : Cursor) : Cursor := (c.span fun d => !isBreak d).2

/-- Goes past the blanks and the comment at the end of a line, and past its break. Nothing else may
stand there. -/
def finishLine? (c : Cursor) : Option Cursor :=
  let c := (c.span isBlank).2
  let c := match c.rest with
    | '#' :: _ => c.skipLine
    | _ => c
  match c.rest with
  | [] => some c
  | b :: _ => if isBreak b then some c.skipBreak else none

end Cursor

end BlockFlow.Yaml
