import BlockFlow.Text.Alphanumeric

/-!
JSON as written. A source keeps what a reader may still object to: the digits of numbers, repeated
members, and strings whose escapes spell no text.
-/

namespace BlockFlow.Json

inductive Source where
  | null
  | bool (value : Bool)
  /-- The number as written. -/
  | number (written : List Char)
  /-- The string meant, absent when an escaped surrogate has no partner. -/
  | str (meant : Option String)
  | arr (items : List Source)
  | obj (members : List (Option String × Source))
  deriving Inhabited

namespace Source

def isSpace (c : Char) : Bool := c = ' ' || c = '\n' || c = '\t' || c = '\r'

def skipSpace (cs : List Char) : List Char := cs.dropWhile isSpace

/-- Reads four hexadecimal digits. -/
def readHex4? : List Char → Option (Nat × List Char)
  | a :: b :: c :: d :: rest => (Text.natOfDigits? 16 [a, b, c, d]).map fun n => (n, rest)
  | _ => none

/-- The character of a simple escape. -/
def simpleEscape? (c : Char) : Option Char :=
  if c = '"' then some '"' else if c = '\\' then some '\\' else if c = '/' then some '/'
  else if c = 'b' then some (Char.ofNat 8) else if c = 'f' then some (Char.ofNat 12)
  else if c = 'n' then some '\n' else if c = 'r' then some '\r'
  else if c = 't' then some '\t' else none

/-- Reads the rest of a string behind its opening quote. The characters so far are `done`, in
reverse, or absent once a surrogate without partner was met. -/
def readString? : (fuel : Nat) → (done : Option (List Char)) → List Char →
    Option (Option String × List Char)
  | 0, _, _ => none
  | _ + 1, _, [] => none
  | fuel + 1, done, c :: cs =>
    if c = '"' then some (done.map fun cs => String.ofList cs.reverse, cs)
    else if c = '\\' then
      match cs with
      | 'u' :: more => do
        let (unit, rest) ← readHex4? more
        if 0xD800 ≤ unit && unit ≤ 0xDBFF then
          match rest with
          | '\\' :: 'u' :: tail =>
            let (low, rest') ← readHex4? tail
            if 0xDC00 ≤ low && low ≤ 0xDFFF then
              let code := 0x10000 + (unit - 0xD800) * 0x400 + (low - 0xDC00)
              readString? fuel (done.map (Char.ofNat code :: ·)) rest'
            else readString? fuel none rest
          | _ => readString? fuel none rest
        else if 0xDC00 ≤ unit && unit ≤ 0xDFFF then readString? fuel none rest
        else readString? fuel (done.map (Char.ofNat unit :: ·)) rest
      | e :: rest => do
        let meant ← simpleEscape? e
        readString? fuel (done.map (meant :: ·)) rest
      | [] => none
    else if c.toNat < 32 then none
    else readString? fuel (done.map (c :: ·)) cs

/-- Splits off the digits at the front. -/
def digits (cs : List Char) : List Char × List Char :=
  (cs.takeWhile Text.isDigit, cs.dropWhile Text.isDigit)

/-- Splits off a number: no superfluous zeros, and digits on both sides of a point and behind an
exponent mark. -/
def readNumber? (cs : List Char) : Option (List Char × List Char) := do
  let (sign, cs) := match cs with
    | '-' :: rest => (['-'], rest)
    | rest => ([], rest)
  let (whole, cs) := digits cs
  if whole.isEmpty || (whole.length > 1 && whole.head? == some '0') then none
  let (fraction, cs) ← match cs with
    | '.' :: rest =>
      let (ds, rest) := digits rest
      if ds.isEmpty then none else some ('.' :: ds, rest)
    | rest => some ([], rest)
  let (power, cs) ← match cs with
    | e :: rest =>
      if e = 'e' || e = 'E' then
        let (mark, rest) := match rest with
          | '+' :: more => (['+'], more)
          | '-' :: more => (['-'], more)
          | more => ([], more)
        let (ds, rest) := digits rest
        if ds.isEmpty then none else some (e :: (mark ++ ds), rest)
      else some ([], e :: rest)
    | [] => some ([], [])
  some (sign ++ whole ++ fraction ++ power, cs)

mutual

/-- Reads a value, blanks before it allowed. -/
def readValue? : (fuel : Nat) → List Char → Option (Source × List Char)
  | 0, _ => none
  | fuel + 1, cs =>
    match skipSpace cs with
    | 'n' :: 'u' :: 'l' :: 'l' :: rest => some (.null, rest)
    | 't' :: 'r' :: 'u' :: 'e' :: rest => some (.bool true, rest)
    | 'f' :: 'a' :: 'l' :: 's' :: 'e' :: rest => some (.bool false, rest)
    | '"' :: rest => do
      let (s, rest) ← readString? (rest.length + 1) (some []) rest
      some (.str s, rest)
    | '[' :: rest =>
      match skipSpace rest with
      | ']' :: rest => some (.arr [], rest)
      | rest => do
        let (items, rest) ← readItems? fuel rest
        some (.arr items, rest)
    | '{' :: rest =>
      match skipSpace rest with
      | '}' :: rest => some (.obj [], rest)
      | rest => do
        let (members, rest) ← readMembers? fuel rest
        some (.obj members, rest)
    | rest => do
      let (written, rest) ← readNumber? rest
      some (.number written, rest)

def readItems? : (fuel : Nat) → List Char → Option (List Source × List Char)
  | 0, _ => none
  | fuel + 1, cs => do
    let (item, rest) ← readValue? fuel cs
    match skipSpace rest with
    | ',' :: rest => do
      let (items, rest) ← readItems? fuel rest
      some (item :: items, rest)
    | ']' :: rest => some ([item], rest)
    | _ => none

def readMembers? : (fuel : Nat) → List Char → Option (List (Option String × Source) × List Char)
  | 0, _ => none
  | fuel + 1, cs =>
    match skipSpace cs with
    | '"' :: rest => do
      let (key, rest) ← readString? (rest.length + 1) (some []) rest
      match skipSpace rest with
      | ':' :: rest => do
        let (value, rest) ← readValue? fuel rest
        match skipSpace rest with
        | ',' :: rest => do
          let (members, rest) ← readMembers? fuel rest
          some ((key, value) :: members, rest)
        | '}' :: rest => some ([(key, value)], rest)
        | _ => none
      | _ => none
    | _ => none

end

/-- Reads a value that takes up the whole text but for blanks. -/
def parse? (cs : List Char) : Option Source := do
  let (value, rest) ← readValue? (2 * cs.length + 2) cs
  if (skipSpace rest).isEmpty then some value else none

end Source

end BlockFlow.Json
