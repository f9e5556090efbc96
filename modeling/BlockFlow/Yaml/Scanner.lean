import BlockFlow.Yaml.Scalar
import BlockFlow.Yaml.Token

/-!
Splitting a YAML text into tokens. A mapping key is only known as such when its colon is met, so
places where a key may start are remembered, and the key token goes in there later.
-/

namespace BlockFlow.Yaml

/-- A place where a key may have started. -/
structure KeyPlace where
  /-- Whether only a key can stand there. -/
  required : Bool
  /-- The number of tokens before it. -/
  token : Nat
  offset : Nat
  line : Nat
  column : Nat

/-- The state of splitting a text. -/
structure Scanner where
  cursor : Cursor
  /-- The column of the innermost open block, -1 outside all blocks. -/
  indent : Int
  /-- The columns of the blocks around it. -/
  outer : List Int
  /-- Whether a key may start here. -/
  keyAllowed : Bool
  /-- The open place for a key, at each level of brackets, the innermost first. -/
  places : List (Option KeyPlace)
  /-- The tokens so far, the last one first. -/
  tokens : List Token
  /-- How many there are. -/
  count : Nat

namespace Scanner

def start (cs : List Char) : Scanner := ⟨Cursor.start cs, -1, [], true, [none], [], 0⟩

/-- Whether the scanner is inside brackets. -/
def inFlow (s : Scanner) : Bool := 1 < s.places.length

def push (s : Scanner) (t : Token) : Scanner :=
  { s with tokens := t :: s.tokens, count := s.count + 1 }

/-- Puts a token behind the first `n` ones. -/
def insert (s : Scanner) (n : Nat) (t : Token) : Scanner :=
  let later := s.count - n
  { s with tokens := s.tokens.take later ++ t :: s.tokens.drop later, count := s.count + 1 }

/-- Opens a block at `column` when that is deeper than the current one. Its start token goes behind
the first `n` tokens. -/
def openBlock (s : Scanner) (column : Nat) (n : Nat) (t : Token) : Scanner :=
  if !s.inFlow && s.indent < column then
    { s.insert n t with indent := column, outer := s.indent :: s.outer }
  else s

/-- Closes the blocks deeper than `column`. -/
def closeBlocks (s : Scanner) (column : Int) : Scanner :=
  if s.inFlow then s
  else
    let rec close : Int → List Int → Scanner → Scanner
      | indent, [], s => { s with indent := indent, outer := [] }
      | indent, next :: outer, s =>
        if column < indent then close next outer (s.push .blockEnd)
        else { s with indent := indent, outer := next :: outer }
    close s.indent s.outer s

/-- Forgets the place for a key at this level; one where only a key can stand is refused. -/
def dropPlace? (s : Scanner) : Option Scanner :=
  match s.places with
  | some place :: rest =>
    if place.required then none else some { s with places := none :: rest }
  | _ => some s

/-- Remembers that a key may start here. -/
def savePlace? (s : Scanner) : Option Scanner :=
  if s.keyAllowed then do
    let s ← s.dropPlace?
    let c := s.cursor
    let place : KeyPlace :=
      ⟨!s.inFlow && s.indent == c.column, s.count, c.offset, c.line, c.column⟩
    some { s with places := some place :: s.places.drop 1 }
  else some s

/-- A key ends on the line it starts on, within 1024 bytes. -/
def dropStale? (s : Scanner) : Option Scanner := do
  let c := s.cursor
  let places ← s.places.mapM fun
    | none => some none
    | some place =>
      if place.line < c.line || place.offset + 1024 < c.offset then
        if place.required then none else some none
      else some (some place)
  some { s with places := places }

/-- Goes past blanks, comments and breaks, and a byte order mark at the start of each line. Tabs do
not count as blanks where a key may start. A new line outside brackets may start a key. -/
def skipToToken : (fuel : Nat) → Scanner → Scanner
  | 0, s => s
  | fuel + 1, s =>
    let c := s.cursor
    let c := if c.column = 0 && c.rest.head? = some (Char.ofNat 0xFEFF) then c.skip 1 else c
    let tabs := s.inFlow || !s.keyAllowed
    let c := (c.span fun b => b = ' ' || (tabs && b = '\t')).2
    let c := if c.rest.head? = some '#' then c.skipLine else c
    if c.atBreak then
      skipToToken fuel { s with cursor := c.skipBreak, keyAllowed := s.keyAllowed || !s.inFlow }
    else { s with cursor := c }

/-- Adds a token of `width` characters. -/
def take (s : Scanner) (width : Nat) (t : Token) : Scanner :=
  { s with cursor := s.cursor.skip width }.push t

/-- Ends all blocks, before a token that stands between documents. -/
def leaveBlocks? (s : Scanner) : Option Scanner := do
  let s ← (s.closeBlocks (-1)).dropPlace?
  some { s with keyAllowed := false }

/-- Reads up to nine digits. -/
def versionNumber? (c : Cursor) : Option (Nat × Cursor) := do
  let (ds, c) := c.span Text.isDigit
  if 9 < ds.length then none
  let n ← Text.natOfDigits? 10 ds
  some (n, c)

/-- Reads a tag handle: an exclamation mark, and word characters with a second mark when that
follows. The handle of a shorthand needs the second mark unless it is a single mark. -/
def tagHandle? (directive : Bool) (c : Cursor) : Option (List Char × Cursor) :=
  match c.rest with
  | '!' :: _ =>
    let (word, c) := (c.skip 1).span isWord
    match c.rest with
    | '!' :: _ => some ('!' :: (word ++ ['!']), c.skip 1)
    | _ => if directive && !word.isEmpty then none else some ('!' :: word, c)
  | _ => none

/-- The characters of tags. Brackets and commas are allowed between angle brackets and in
shorthands. -/
def isTagChar (verbatim : Bool) (c : Char) : Bool :=
  isWord c || c = ';' || c = '/' || c = '?' || c = ':' || c = '@' || c = '&' || c = '=' ||
    c = '+' || c = '$' || c = '.' || c = '%' || c = '!' || c = '~' || c = '*' || c = '\'' ||
    c = '(' || c = ')' || (verbatim && (c = ',' || c = '[' || c = ']'))

/-- How many bytes a character takes, judged by its first byte. -/
def leadWidth? (b : Nat) : Option Nat :=
  if b < 0x80 then some 1 else if b < 0xC0 then none else if b < 0xE0 then some 2
  else if b < 0xF0 then some 3 else if b < 0xF8 then some 4 else none

/-- The character that a sequence of bytes spells; long forms and surrogates spell none. -/
def charOfBytes? (bytes : List Nat) : Option Char :=
  let tail (n : Nat) (bs : List Nat) := bs.foldl (fun n b => n * 64 + b % 64) n
  let spelled? (least n : Nat) : Option Char :=
    if n < least || (0xD800 ≤ n && n ≤ 0xDFFF) || 0x10FFFF < n then none else some (Char.ofNat n)
  match bytes with
  | [a] => some (Char.ofNat a)
  | a :: [b] => spelled? 0x80 (tail (a % 32) [b])
  | a :: [b, c] => spelled? 0x800 (tail (a % 16) [b, c])
  | a :: [b, c, d] => spelled? 0x10000 (tail (a % 8) [b, c, d])
  | _ => none

/-- Reads the two digits behind a percent sign. -/
def percentByte? (cs : List Char) : Option (Nat × List Char) :=
  match cs with
  | '%' :: a :: b :: rest => (Text.natOfDigits? 16 [a, b]).map fun n => (n, rest)
  | _ => none

/-- Reads the bytes that continue a character. -/
def moreBytes? : (count : Nat) → List Char → Option (List Nat × List Char)
  | 0, cs => some ([], cs)
  | n + 1, cs => do
    let (b, rest) ← percentByte? cs
    if b / 64 ≠ 2 then none
    let (bs, rest) ← moreBytes? n rest
    some (b :: bs, rest)

/-- Reads the characters of a tag. -/
def tagChars? (verbatim : Bool) : (fuel : Nat) → (done : Tag) → Cursor → Option (Tag × Cursor)
  | 0, _, _ => none
  | fuel + 1, done, c =>
    match c.rest with
    | [] => some (done, c)
    | b :: _ =>
      if b = '%' then do
        let (lead, rest) ← percentByte? c.rest
        let width ← leadWidth? lead
        let (more, _) ← moreBytes? (width - 1) rest
        tagChars? verbatim fuel (done ++ [charOfBytes? (lead :: more)]) (c.skip (3 * width))
      else if isTagChar verbatim b then tagChars? verbatim fuel (done ++ [some b]) (c.skip 1)
      else some (done, c)

/-- Reads a tag from `done` on. Nothing behind an escaped zero counts. -/
def tagText? (verbatim : Bool) (limit : Nat) (done : Tag) (c : Cursor) : Option (Tag × Cursor) :=
  (tagChars? verbatim limit done c).map fun (t, c) => (t.takeWhile (· ≠ some (Char.ofNat 0)), c)

/-- Reads a directive. -/
def directive? (limit : Nat) (s : Scanner) : Option Scanner := do
  let s ← s.leaveBlocks?
  let (name, c) := (s.cursor.skip 1).span isWord
  if name.isEmpty || !startsBlank c.rest then none
  let c := (c.span isBlank).2
  let (token, c) ←
    if name = "YAML".toList then do
      let (major, c) ← versionNumber? c
      match c.rest with
      | '.' :: _ => do
        let (minor, c) ← versionNumber? (c.skip 1)
        some (Token.version major minor, c)
      | _ => none
    else if name = "TAG".toList then do
      let (handle, c) ← tagHandle? true c
      if !c.atBlank then none
      let c := (c.span isBlank).2
      let (stem, c') ← tagText? true limit [] c
      if c'.offset = c.offset || !startsBlank c'.rest then none
      some (Token.shorthand handle stem, c')
    else none
  let c ← c.finishLine?
  some ({ s with cursor := c }.push token)

/-- Reads an anchor or an alias behind its indicator. -/
def anchorName? (c : Cursor) : Option (List Char × Cursor) :=
  let (name, c) := c.span isWord
  let ends := match c.rest with
    | [] => true
    | b :: _ => isBlankOrBreak b || b = '?' || b = ':' || b = ',' || b = ']' || b = '}' ||
        b = '%' || b = '@' || b = '`'
  if name.isEmpty || !ends then none else some (name, c)

/-- Reads a tag: verbatim between angle brackets, behind a handle, or behind a single mark. -/
def tag? (limit : Nat) (flow : Bool) (c : Cursor) : Option (Token × Cursor) := do
  let (token, c) ←
    match c.rest with
    | '!' :: '<' :: _ => do
      let (text, c') ← tagText? true limit [] (c.skip 2)
      if c'.offset = c.offset + 2 || c'.rest.head? ≠ some '>' then none
      some (Token.tag [] text, c'.skip 1)
    | _ => do
      let (handle, c) ← tagHandle? false c
      if 1 < handle.length && handle.getLast? = some '!' then
        let (text, c') ← tagText? false limit [] c
        if c'.offset = c.offset then none
        some (Token.tag handle text, c')
      else
        let (text, c) ← tagText? false limit ((handle.drop 1).map some) c
        if text.isEmpty then some (Token.tag [] [some '!'], c)
        else some (Token.tag ['!'] text, c)
  if startsBlank c.rest || (flow && c.rest.head? = some ',') then some (token, c) else none

/-- Opens brackets. -/
def openFlow? (s : Scanner) (t : Token) : Option Scanner := do
  let s ← s.savePlace?
  some { s.take 1 t with places := none :: s.places, keyAllowed := true }

/-- Closes brackets. -/
def closeFlow? (s : Scanner) (t : Token) : Option Scanner := do
  let s ← s.dropPlace?
  some { s.take 1 t with
    places := if s.inFlow then s.places.drop 1 else s.places, keyAllowed := false }

/-- Reads the mark of an entry of a block sequence. -/
def blockEntry? (s : Scanner) : Option Scanner := do
  if !s.inFlow && !s.keyAllowed then none
  let s ← (s.openBlock s.cursor.column s.count .blockSequenceStart).dropPlace?
  some { s.take 1 .blockEntry with keyAllowed := true }

/-- Reads the mark of an explicit key. -/
def explicitKey? (s : Scanner) : Option Scanner := do
  if !s.inFlow && !s.keyAllowed then none
  let s ← (s.openBlock s.cursor.column s.count .blockMappingStart).dropPlace?
  some { s.take 1 .key with keyAllowed := !s.inFlow }

/-- Reads the mark of a value. What stands at the remembered place becomes the key. -/
def value? (s : Scanner) : Option Scanner :=
  match s.places with
  | some place :: rest =>
    let s := (s.insert place.token .key).openBlock place.column place.token .blockMappingStart
    some { s.take 1 .value with places := none :: rest, keyAllowed := false }
  | _ => do
    if !s.inFlow && !s.keyAllowed then none
    let s := s.openBlock s.cursor.column s.count .blockMappingStart
    some { s.take 1 .value with keyAllowed := !s.inFlow }

/-- Adds the token read up to `c`, behind which no key may start. -/
def finish (s : Scanner) (t : Token) (c : Cursor) : Scanner :=
  { s.push t with cursor := c, keyAllowed := false }

/-- The indicators that no plain scalar starts with. -/
def isIndicator (c : Char) : Bool :=
  c = '-' || c = '?' || c = ':' || isFlowIndicator c || c = '#' || c = '&' || c = '*' || c = '!' ||
    c = '|' || c = '>' || c = '\'' || c = '"' || c = '%' || c = '@' || c = '`'

/-- Whether a plain scalar starts with `b`, before `rest`. -/
def startsPlain (flow : Bool) (b : Char) (rest : List Char) : Bool :=
  !(isBlankOrBreak b || isIndicator b) ||
    (b = '-' && !(match rest with | d :: _ => isBlank d | [] => false)) ||
    (!flow && (b = '?' || b = ':') && !startsBlank rest)

/-- Reads one token. `limit` exceeds the length of the text. -/
def step? (limit : Nat) (s : Scanner) : Option Scanner := do
  let s := skipToToken limit s
  let s ← s.dropStale?
  let s := s.closeBlocks s.cursor.column
  let c := s.cursor
  let flow := s.inFlow
  match c.rest with
  | [] => some s
  | b :: rest =>
    if c.column = 0 && b = '%' then directive? limit s
    else if c.atMark ['-', '-', '-'] then do
      let s ← s.leaveBlocks?
      some (s.take 3 .documentStart)
    else if c.atMark ['.', '.', '.'] then do
      let s ← s.leaveBlocks?
      some (s.take 3 .documentEnd)
    else if b = '[' then s.openFlow? .flowSequenceStart
    else if b = '{' then s.openFlow? .flowMappingStart
    else if b = ']' then s.closeFlow? .flowSequenceEnd
    else if b = '}' then s.closeFlow? .flowMappingEnd
    else if b = ',' then do
      let s ← s.dropPlace?
      some { s.take 1 .flowEntry with keyAllowed := true }
    else if b = '-' && startsBlank rest then s.blockEntry?
    else if b = '?' && (flow || startsBlank rest) then s.explicitKey?
    else if b = ':' && (flow || startsBlank rest) then s.value?
    else if b = '*' || b = '&' then do
      let s ← s.savePlace?
      let (name, c) ← anchorName? (c.skip 1)
      some (s.finish (if b = '*' then .alias name else .anchor name) c)
    else if b = '!' then do
      let s ← s.savePlace?
      let (token, c) ← tag? limit flow c
      some (s.finish token c)
    else if (b = '|' || b = '>') && !flow then do
      let s ← s.dropPlace?
      let (text, c) ← blockScalar? limit (b = '|') s.indent (c.skip 1)
      some { s.finish (.scalar false text) c with keyAllowed := true }
    else if b = '\'' || b = '"' then do
      let s ← s.savePlace?
      let (text, c) ← quotedScalar? limit (b = '\'') limit [] (c.skip 1)
      some (s.finish (.scalar false text) c)
    else if startsPlain flow b rest then do
      let s ← s.savePlace?
      let (text, broken, c) ← plainScalar? limit flow (s.indent + 1).toNat limit [] Gap.none c
      some { s.finish (.scalar true text) c with keyAllowed := broken }
    else none

/-- Reads tokens up to the end of the text. -/
def run? (limit : Nat) : (fuel : Nat) → Scanner → Option Scanner
  | 0, _ => none
  | fuel + 1, s => do
    let s ← step? limit s
    if s.cursor.rest.isEmpty then s.leaveBlocks? else run? limit fuel s

end Scanner

/-- The tokens of a text; absent when the text is none. -/
def tokens? (cs : List Char) : Option (List Token) :=
  if cs.all isAllowed then do
    let limit := cs.length + 1
    let s ← Scanner.run? limit limit (Scanner.start cs)
    some s.tokens.reverse
  else none

end BlockFlow.Yaml
