import BlockFlow.Yaml.Plain
import BlockFlow.Yaml.Cursor
import BlockFlow.Text.Blank

/-!
Written form of tagged values. A tag stands before its value; collections follow as blocks, one
entry a line, and scalars are plain where that is safe.
-/

namespace BlockFlow.Yaml

namespace Tagged

/-- What has been written so far. -/
structure Page where
  /-- The characters, the last one first. -/
  written : List Char
  column : Nat
  /-- Whether a blank or nothing comes right before. -/
  spaced : Bool
  /-- Whether only indentation and entry marks stand on the line. -/
  margin : Bool

namespace Page

def blank : Page := ⟨[], 0, true, true⟩

def put (p : Page) (cs : List Char) : Page :=
  { p with written := cs.reverse ++ p.written, column := p.column + cs.length }

def newline (p : Page) : Page := { p with written := '\n' :: p.written, column := 0 }

/-- Goes to column `indent` of a line that holds nothing but entry marks. -/
def goTo (p : Page) (indent : Nat) : Page :=
  let p := if !p.margin || indent < p.column || (p.column = indent && !p.spaced) then p.newline
    else p
  { p.put (List.replicate (indent - p.column) ' ') with spaced := true, margin := true }

/-- Writes an indicator, behind a space if asked for and nothing else separates it. -/
def indicator (p : Page) (text : List Char) (space spaced margin : Bool) : Page :=
  let p := if space && !p.spaced then p.put [' '] else p
  { p.put text with spaced := spaced, margin := p.margin && margin }

/-- Writes a word, a space before it. -/
def word (p : Page) (text : List Char) : Page :=
  let p := if p.spaced then p else p.put [' ']
  { p.put text with spaced := false, margin := false }

end Page

/-- The characters that need no escape between double quotes. -/
def isPrintable (c : Char) : Bool :=
  let n := c.toNat
  n = 0x0A || (0x20 ≤ n && n ≤ 0x7E) || (0xA0 ≤ n && n ≤ 0xD7FF) ||
    (0xE000 ≤ n && n ≤ 0xFFFD && n ≠ 0xFEFF) || 0x10000 ≤ n

/-- How a scalar may be written. -/
structure Allowed where
  plain : Bool
  single : Bool
  block : Bool
  multiline : Bool

/-- Whether a character makes the text read as something other than a plain scalar. -/
def indicates (first afterBlank beforeBlank : Bool) (c : Char) : Bool :=
  if first then
    c = '#' || c = ',' || c = '[' || c = ']' || c = '{' || c = '}' || c = '&' || c = '*' ||
      c = '!' || c = '|' || c = '>' || c = '\'' || c = '"' || c = '%' || c = '@' || c = '`' ||
      ((c = '?' || c = ':' || c = '-') && beforeBlank)
  else (c = ':' && beforeBlank) || (c = '#' && afterBlank)

/-- Whether any character of the text is such an indicator. -/
def anyIndicates : (first afterBlank : Bool) → List Char → Bool
  | _, _, [] => false
  | first, afterBlank, c :: cs =>
    indicates first afterBlank (startsBlank cs) c || anyIndicates false (isBlankOrBreak c) cs

/-- Whether a character that satisfies `p` is followed by one that satisfies `q`. -/
def adjacent (p q : Char → Bool) : List Char → Bool
  | a :: b :: rest => (p a && q b) || adjacent p q (b :: rest)
  | _ => false

/-- How a text may be written as a scalar. -/
def allowed (cs : List Char) : Allowed :=
  match cs.head?, cs.getLast? with
  | some first, some last =>
    let isSpace (c : Char) := c = ' '
    let edge := isSpace first || isBreak first || isSpace last || isBreak last
    let breakSpace := adjacent isBreak isSpace cs
    let special := adjacent isSpace isBreak cs || cs.any fun c => !isPrintable c
    let marked := cs.take 3 = "---".toList || cs.take 3 = "...".toList
    let multiline := cs.any isBreak
    { plain := !(edge || breakSpace || special || multiline || marked || anyIndicates true true cs)
      single := !(breakSpace || special)
      block := !(isSpace last || special)
      multiline := multiline }
  | _, _ => ⟨true, true, false, false⟩

inductive ScalarStyle where
  | plain
  | single
  | double
  | literal
  deriving DecidableEq

/-- The words that older schemas read as something other than a string. -/
def ambiguousWords : List String :=
  ["true", "false", "null", "~", "y", "yes", "n", "no", "on", "off", "nil", "nan"]

/-- Whether a reader might take a plain text for something other than a string. -/
def isAmbiguous (cs : List Char) : Bool :=
  match cs with
  | [] => true
  | c :: _ =>
    Text.isDigit c || c = '-' || c = '.' || c = '+' ||
      ambiguousWords.any fun w => cs.map Char.toLower = w.toList

/-- The style that a string asks for. -/
def wanted (cs : List Char) : ScalarStyle :=
  if cs.contains '\n' then .literal
  else
    match Plain.value? cs with
    | some (.str _) => if isAmbiguous cs then .single else .plain
    | _ => .single

/-- The style that a string gets. -/
def chosen (simpleKey : Bool) (style : ScalarStyle) (cs : List Char) : ScalarStyle :=
  let a := allowed cs
  let style := if simpleKey && a.multiline then .double else style
  let style := if style = .plain && (!a.plain || (cs.isEmpty && simpleKey)) then .single else style
  let style := if style = .single && !a.single then .double else style
  if style = .literal && (!a.block || simpleKey) then .double else style

/-- A number below sixteen as an upper case hexadecimal digit. -/
def hexDigit (n : Nat) : Char := if n < 10 then Char.ofNat (48 + n) else Char.ofNat (55 + n)

/-- The last `width` hexadecimal digits of a number. -/
def hexDigits (n : Nat) : (width : Nat) → List Char
  | 0 => []
  | width + 1 => hexDigits (n / 16) width ++ [hexDigit (n % 16)]

/-- A character between double quotes. -/
def escape (c : Char) : List Char :=
  let n := c.toNat
  if isPrintable c && !isBreak c && c ≠ '"' && c ≠ '\\' then [c]
  else '\\' ::
    (if n = 0 then ['0'] else if n = 7 then ['a'] else if n = 8 then ['b']
    else if n = 9 then ['t'] else if n = 10 then ['n'] else if n = 11 then ['v']
    else if n = 12 then ['f'] else if n = 13 then ['r'] else if n = 27 then ['e']
    else if c = '"' then ['"'] else if c = '\\' then ['\\']
    else if n = 0x85 then ['N'] else if n = 0xA0 then ['_']
    else if n = 0x2028 then ['L'] else if n = 0x2029 then ['P']
    else if n ≤ 0xFF then 'x' :: hexDigits n 2
    else if n ≤ 0xFFFF then 'u' :: hexDigits n 4
    else 'U' :: hexDigits n 8)

/-- Writes text between single quotes; quotes are doubled. -/
def putSingle (indent : Nat) : (broken : Bool) → List Char → Page → Page
  | broken, [], p => if broken then p.goTo indent else p
  | broken, c :: cs, p =>
    if c = ' ' then putSingle indent broken cs (p.put [c])
    else if isBreak c then
      let p := if !broken && c = '\n' then p.newline else p
      putSingle indent true cs { p with written := c :: p.written, column := 0, margin := true }
    else
      let p := if broken then p.goTo indent else p
      let p := p.put (if c = '\'' then ['\'', '\''] else [c])
      putSingle indent false cs { p with margin := false }

/-- Writes the lines of a literal block scalar. -/
def putLiteral (indent : Nat) : (broken : Bool) → List Char → Page → Page
  | _, [], p => p
  | broken, c :: cs, p =>
    if isBreak c then
      putLiteral indent true cs { p with written := c :: p.written, column := 0, margin := true }
    else
      let p := if broken then p.goTo indent else p
      putLiteral indent false cs { p.put [c] with margin := false }

/-- The indicators behind the mark of a literal: the indentation when the text starts blank, and
what becomes of the breaks at its end. -/
def literalHints (cs : List Char) : List Char :=
  let starts := match cs with
    | c :: _ => c = ' ' || isBreak c
    | [] => false
  let indent := if starts then ['2'] else []
  let chomp := match cs.reverse with
    | [] => ['-']
    | last :: before =>
      if !isBreak last then ['-']
      else match before with
        | [] => ['+']
        | c :: _ => if isBreak c then ['+'] else []
  indent ++ chomp

/-- Writes a scalar whose later lines are indented by `indent`. -/
def putScalar (indent : Nat) (style : ScalarStyle) (cs : List Char) (p : Page) : Page :=
  match style with
  | .plain =>
    let p := if cs.isEmpty then p else if p.spaced then p else p.put [' ']
    { p.put cs with spaced := false, margin := false }
  | .single =>
    let p := p.indicator ['\''] true false false
    (putSingle indent false cs p).indicator ['\''] false false false
  | .double =>
    let p := p.indicator ['"'] true false false
    (p.put (cs.flatMap escape)).indicator ['"'] false false false
  | .literal =>
    let p := p.indicator ['|'] true false false
    let p := (p.indicator (literalHints cs) false false false).newline
    putLiteral indent true cs { p with spaced := true, margin := true }

/-- What stands behind the mark of a tag: a name that brings its own mark gets no second one. -/
def tagStem (tag : String) : List Char :=
  match tag.toList with
  | '!' :: rest => rest
  | name => name

/-- A tag as written: behind a mark, characters that a tag may not hold escaped. A mark with nothing
behind it is spelled out between angle brackets. -/
def tagText (tag : String) : List Char :=
  let safe (c : Char) := isWord c || (";/?:@&=+$,_.~*'()[]".toList).contains c
  let bytes (c : Char) : List Char :=
    (String.singleton c).toUTF8.toList.flatMap fun b => '%' :: hexDigits b.toNat 2
  match tagStem tag with
  | [] => "!<%21>".toList
  | stem => '!' :: stem.flatMap fun c => if safe c then [c] else bytes c

/-- The scalar text and the style it asks for. -/
def scalarText? : Value → Option (List Char × ScalarStyle)
  | .null => some ("null".toList, .plain)
  | .bool b => some ((Value.boolText b).toList, .plain)
  | .int i => some (Json.intText i, .plain)
  | .float x => some (Decimal.documentStyle.write x, .plain)
  | .str s => some (s.toList, wanted s.toList)
  | _ => none

/-- Whether a key fits before its colon on one line. Its tag counts without the escapes. -/
def isSimpleKey (key : Value) : Bool :=
  let (tagWidth, v) := match key with
    | .tagged t v => (1 + Text.byteWidth (tagStem t), v)
    | v => (0, v)
  match v with
  | .seq items => items.isEmpty && tagWidth ≤ 128
  | .map entries => entries.isEmpty && tagWidth ≤ 128
  | v =>
    match scalarText? v with
    | some (cs, _) => !(cs.any isBreak) && tagWidth + Text.byteWidth cs ≤ 128
    | none => false

/-- Where a value is written. -/
inductive Place where
  | root
  | item
  | entry
  | simpleKey
  deriving DecidableEq

/-- Only entry values and keys count as inside a mapping. -/
def Place.inMapping : Place → Bool
  | .entry => true
  | .simpleKey => true
  | _ => false

/-- A key that cannot be told from a tag when it is the only one of a mapping without a tag: a
tagged one, or a mapping with one entry. -/
def isUnwritableKey : Value → Bool
  | .tagged _ _ => true
  | .map [_] => true
  | _ => false

mutual

/-- Writes a value in a block indented by `indent`, negative at the outside. -/
def putValue (indent : Int) (place : Place) (tag : Option String) : Value → Page → Option Page
  | .tagged t v, p => if tag.isSome then none else putValue indent place (some t) v p
  | .seq items, p =>
    let p := (tag.map tagText).elim p p.word
    if items.isEmpty then
      some ((p.indicator ['['] true true false).indicator [']'] false false false)
    else
      let inner := if indent < 0 then 0 else if place.inMapping && !p.margin then indent
        else indent + 2
      putItems inner items p
  | .map entries, p =>
    let p := (tag.map tagText).elim p p.word
    if entries.isEmpty then
      some ((p.indicator ['{'] true true false).indicator ['}'] false false false)
    else if tag.isNone && entries.length = 1 && entries.any (isUnwritableKey ·.1) then none
    else putEntries (if indent < 0 then 0 else indent + 2) entries p
  | v, p =>
    let (cs, style) := (scalarText? v).getD ([], .plain)
    let style := chosen (place = .simpleKey) style cs
    let p := (tag.map tagText).elim p p.word
    some (putScalar (if indent < 0 then 2 else (indent + 2).toNat) style cs p)

def putItems (indent : Int) : List Value → Page → Option Page
  | [], p => some p
  | item :: rest, p => do
    let p := (p.goTo indent.toNat).indicator ['-'] true false true
    let p ← putValue indent .item none item p
    putItems indent rest p

def putEntries (indent : Int) : List (Value × Value) → Page → Option Page
  | [], p => some p
  | (key, value) :: rest, p => do
    let p := p.goTo indent.toNat
    let p ←
      if isSimpleKey key then do
        let p ← putValue indent .simpleKey none key p
        some (p.indicator [':'] false false false)
      else do
        let p ← putValue indent .entry none key (p.indicator ['?'] true false true)
        some ((p.goTo indent.toNat).indicator [':'] true false true)
    let p ← putValue indent .entry none value p
    putEntries indent rest p

end

/-- The written form of a tagged value; a few mappings with tagged keys have none. -/
def render? (v : Value) : Option (List Char) :=
  (putValue (-1) .root none v Page.blank).map fun p => Text.trimEnd p.written.reverse

end Tagged

end BlockFlow.Yaml
