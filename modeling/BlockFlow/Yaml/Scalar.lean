import BlockFlow.Text.Alphanumeric
import BlockFlow.Yaml.Cursor

/-!
The scalars of YAML as written: quoted, plain, and block scalars, with line folding.
-/

namespace BlockFlow.Yaml

/-- The blanks and breaks between two parts of a scalar. -/
structure Gap where
  /-- Blanks before any break. -/
  blanks : List Char
  /-- The first break. -/
  first : List Char
  /-- The breaks after it. -/
  later : List Char
  broken : Bool

namespace Gap

/-- A gap within a line. -/
def none : Gap := ⟨[], [], [], false⟩

/-- The gap behind a break that was escaped away. -/
def escaped : Gap := ⟨[], [], [], true⟩

/-- The text a gap stands for: a single line break folds to a space, further ones stay. -/
def fold (g : Gap) : List Char :=
  if g.broken then
    if g.first = ['\n'] then if g.later.isEmpty then [' '] else g.later
    else g.first ++ g.later
  else g.blanks

/-- Goes past blanks and breaks. A tab on a new line left of column `indent` is refused. -/
def take? (indent : Nat) : (fuel : Nat) → Gap → Cursor → Option (Gap × Cursor)
  | 0, g, c => some (g, c)
  | fuel + 1, g, c =>
    match c.rest with
    | [] => some (g, c)
    | b :: _ =>
      if isBlank b then
        if g.broken then
          if c.column < indent && b = '\t' then Option.none else take? indent fuel g (c.skip 1)
        else take? indent fuel { g with blanks := g.blanks ++ [b] } (c.skip 1)
      else if isBreak b then
        if g.broken then
          take? indent fuel { g with later := g.later ++ c.breakText } c.skipBreak
        else take? indent fuel ⟨[], c.breakText, [], true⟩ c.skipBreak
      else some (g, c)

end Gap

/-- The character of a simple escape in a double-quoted scalar. -/
def simpleEscape? (c : Char) : Option Char :=
  if c = '0' then some (Char.ofNat 0)
  else if c = 'a' then some (Char.ofNat 7)
  else if c = 'b' then some (Char.ofNat 8)
  else if c = 't' || c = '\t' then some '\t'
  else if c = 'n' then some '\n'
  else if c = 'v' then some (Char.ofNat 11)
  else if c = 'f' then some (Char.ofNat 12)
  else if c = 'r' then some '\r'
  else if c = 'e' then some (Char.ofNat 27)
  else if c = ' ' || c = '"' || c = '/' || c = '\\' then some c
  else if c = 'N' then some (Char.ofNat 0x85)
  else if c = '_' then some (Char.ofNat 0xA0)
  else if c = 'L' then some (Char.ofNat 0x2028)
  else if c = 'P' then some (Char.ofNat 0x2029)
  else none

/-- The number of hexadecimal digits behind an escape letter. -/
def escapeWidth? (c : Char) : Option Nat :=
  if c = 'x' then some 2 else if c = 'u' then some 4 else if c = 'U' then some 8 else none

/-- Reads the escape behind a backslash. -/
def readEscape? (cs : List Char) : Option (Char × Nat) :=
  match cs with
  | [] => none
  | e :: rest =>
    match escapeWidth? e with
    | some width =>
      if rest.length < width then none
      else do
        let n ← Text.natOfDigits? 16 (rest.take width)
        if (0xD800 ≤ n && n ≤ 0xDFFF) || 0x10FFFF < n then none
        else some (Char.ofNat n, width + 1)
    | none => (simpleEscape? e).map fun c => (c, 1)

/-- Reads the part of a quoted scalar up to the closing quote, a blank or a break. `done` is the
text so far in reverse. The flag tells of an escaped line break. -/
def quotedPart? (single : Bool) : (fuel : Nat) → (done : List Char) → Cursor →
    Option (List Char × Bool × Cursor)
  | 0, _, _ => none
  | fuel + 1, done, c =>
    match c.rest with
    | [] => some (done, false, c)
    | b :: rest =>
      if isBlankOrBreak b then some (done, false, c)
      else if single then
        if b = '\'' then
          match rest with
          | '\'' :: _ => quotedPart? single fuel ('\'' :: done) (c.skip 2)
          | _ => some (done, false, c)
        else quotedPart? single fuel (b :: done) (c.skip 1)
      else if b = '"' then some (done, false, c)
      else if b = '\\' then
        if (match rest with | d :: _ => isBreak d | [] => false) then
          some (done, true, (c.skip 1).skipBreak)
        else do
          let (e, width) ← readEscape? rest
          quotedPart? single fuel (e :: done) (c.skip (width + 1))
      else quotedPart? single fuel (b :: done) (c.skip 1)

/-- Reads a quoted scalar behind its opening quote. -/
def quotedScalar? (limit : Nat) (single : Bool) : (fuel : Nat) → (done : List Char) → Cursor →
    Option (List Char × Cursor)
  | 0, _, _ => none
  | fuel + 1, done, c =>
    if c.atDocumentMark || c.rest.isEmpty then none
    else do
      let (done, escaped, c) ← quotedPart? single limit done c
      let quote := if single then '\'' else '"'
      if c.rest.head? = some quote then some (done.reverse, c.skip 1)
      else do
        let (gap, c) ← Gap.take? 0 limit (if escaped then Gap.escaped else Gap.none) c
        quotedScalar? limit single fuel (gap.fold.reverse ++ done) c

/-- The flow indicators that end a plain scalar inside brackets. -/
def isFlowIndicator (c : Char) : Bool := c = ',' || c = '[' || c = ']' || c = '{' || c = '}'

/-- The part of a plain scalar up to a blank, a break or an indicator that ends it. Inside brackets
a colon with an indicator behind it is refused. -/
def plainPart? (flow : Bool) : List Char → Option (List Char)
  | [] => some []
  | b :: rest =>
    if isBlankOrBreak b then some []
    else if flow && b = ':' &&
        (match rest with | d :: _ => isFlowIndicator d || d = '?' | [] => false) then none
    else if (b = ':' && startsBlank rest) || (flow && isFlowIndicator b) then some []
    else (plainPart? flow rest).map (b :: ·)

/-- Reads a plain scalar whose later lines must reach column `indent`, unless inside brackets. The
flag tells whether the place behind it is on a later line. -/
def plainScalar? (limit : Nat) (flow : Bool) (indent : Nat) : (fuel : Nat) → (done : List Char) →
    Gap → Cursor → Option (List Char × Bool × Cursor)
  | 0, _, _, _ => none
  | fuel + 1, done, gap, c =>
    if c.atDocumentMark || c.rest.head? = some '#' then some (done, gap.broken, c)
    else do
      let part ← plainPart? flow c.rest
      let (done, gap) := if part.isEmpty then (done, gap) else (done ++ gap.fold ++ part, Gap.none)
      let c := c.skip part.length
      if c.atBlank || c.atBreak then do
        let (gap, c) ← Gap.take? indent limit Gap.none c
        if !flow && c.column < indent then some (done, gap.broken, c)
        else plainScalar? limit flow indent fuel done gap c
      else some (done, gap.broken, c)

/-- What happens to the breaks at the end of a block scalar. -/
inductive Chomp where
  | strip
  | clip
  | keep
  deriving DecidableEq

/-- Reads the indicators behind `|` and `>`: how to chomp and how far to indent, in either order. -/
def blockHeader? (c : Cursor) : Option (Chomp × Nat × Cursor) :=
  let chomp? (b : Char) : Option Chomp :=
    if b = '+' then some .keep else if b = '-' then some .strip else none
  let depth? (b : Char) : Option Nat := if Text.isDigit b then some (b.toNat - 48) else none
  match c.rest with
  | [] => some (.clip, 0, c)
  | b :: rest =>
    match chomp? b, depth? b with
    | some chomp, _ =>
      match rest.head?.bind depth? with
      | some 0 => none
      | some n => some (chomp, n, c.skip 2)
      | none => some (chomp, 0, c.skip 1)
    | none, some 0 => none
    | none, some n =>
      match rest.head?.bind chomp? with
      | some chomp => some (chomp, n, c.skip 2)
      | none => some (.clip, n, c.skip 1)
    | none, none => some (.clip, 0, c)

/-- Goes past the empty lines of a block scalar and the indentation behind them. `indent` zero means
that it is not known yet; `deepest` is the deepest column met. -/
def blockBreaks? (indent : Nat) : (fuel : Nat) → (deepest : Nat) → (breaks : List Char) → Cursor →
    Option (Nat × List Char × Cursor)
  | 0, _, _, _ => none
  | fuel + 1, deepest, breaks, c =>
    let room := if indent = 0 then c.rest.length else indent - c.column
    let spaces := (c.rest.take room).takeWhile (· = ' ')
    let c := c.skip spaces.length
    let deepest := max deepest c.column
    match c.rest with
    | [] => some (deepest, breaks, c)
    | b :: _ =>
      if b = '\t' && (indent = 0 || c.column < indent) then none
      else if isBreak b then
        blockBreaks? indent fuel deepest (breaks ++ c.breakText) c.skipBreak
      else some (deepest, breaks, c)

/-- Reads the lines of a block scalar from column `indent` on. `last` is the break of the line
before and `breaks` are those of the empty lines since; `led` tells whether that line started
blank. -/
def blockLines? (limit : Nat) (literal : Bool) (indent : Nat) : (fuel : Nat) → (done last breaks :
    List Char) → (led : Bool) → Cursor → Option (List Char × List Char × List Char × Cursor)
  | 0, _, _, _, _, _ => none
  | fuel + 1, done, last, breaks, led, c =>
    if c.column = indent && !c.rest.isEmpty then do
      let blank := c.atBlank
      let joint :=
        if !literal && last = ['\n'] && !led && !blank then
          if breaks.isEmpty then [' '] else []
        else last
      let (line, c) := c.span fun b => !isBreak b
      let ending := c.breakText
      let (_, more, c) ← blockBreaks? indent limit 0 [] c.skipBreak
      blockLines? limit literal indent fuel (done ++ joint ++ breaks ++ line) ending more blank c
    else some (done, last, breaks, c)

/-- Reads a block scalar behind its indicator, in a block indented by `parent`, which is negative
outside all blocks. -/
def blockScalar? (limit : Nat) (literal : Bool) (parent : Int) (c : Cursor) :
    Option (List Char × Cursor) := do
  let (chomp, increment, c) ← blockHeader? c
  let c ← c.finishLine?
  let given := if increment = 0 then 0 else parent.toNat + increment
  let (deepest, breaks, c) ← blockBreaks? given limit 0 [] c
  let indent := if given = 0 then max (max deepest (parent + 1).toNat) 1 else given
  let (text, last, breaks, c) ← blockLines? limit literal indent limit [] [] breaks false c
  let ending := match chomp with
    | .strip => []
    | .clip => last
    | .keep => last ++ breaks
  some (text ++ ending, c)

end BlockFlow.Yaml
