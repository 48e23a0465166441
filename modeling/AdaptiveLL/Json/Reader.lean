import AdaptiveLL.Json.Basic

/-!
# Reading JSON

`Json.parse?` reads one value, with blanks around it and nothing else. The grammar is the strict
one: no leading zeros and no control characters inside strings. An escaped surrogate that is not part
of a pair makes its string ill-formed, but not the value around it. Every step of the reader takes at
least one character, so the length of the text bounds the depth of the recursion.
-/

set_option autoImplicit false

namespace AdaptiveLL.Json

/-- Drops leading blanks. -/
def skipBlanks : List Char → List Char
  | c :: rest => if c == ' ' || c == '\n' || c == '\r' || c == '\t' then skipBlanks rest else c :: rest
  | [] => []

/-- The value of a hexadecimal digit of either case. -/
def hexValue? (c : Char) : Option Nat :=
  if '0' ≤ c ∧ c ≤ '9' then some (c.toNat - '0'.toNat)
  else if 'a' ≤ c ∧ c ≤ 'f' then some (c.toNat - 'a'.toNat + 10)
  else if 'A' ≤ c ∧ c ≤ 'F' then some (c.toNat - 'A'.toNat + 10)
  else none

/-- The number that four hexadecimal digits spell. -/
def hexQuad? (a b c d : Char) : Option Nat := do
  return ((← hexValue? a) * 16 + (← hexValue? b)) * 256 + (← hexValue? c) * 16 + (← hexValue? d)

/-- The character of a short escape. -/
def shortEscape? : Char → Option Char
  | '"' => some '"'
  | '\\' => some '\\'
  | '/' => some '/'
  | 'b' => some (Char.ofNat 8)
  | 'f' => some (Char.ofNat 12)
  | 'n' => some '\n'
  | 'r' => some '\r'
  | 't' => some '\t'
  | _ => none

/-- The character that an escaped surrogate stands for together with the escape that follows it. -/
def surrogatePair? (high : Nat) : List Char → Option Char
  | '\\' :: 'u' :: a :: b :: c :: d :: _ => do
    let low ← hexQuad? a b c d
    if 0xD800 ≤ high ∧ high < 0xDC00 ∧ 0xDC00 ≤ low ∧ low < 0xE000 then
      return Char.ofNat (0x10000 + (high - 0xD800) * 0x400 + (low - 0xDC00))
    else none
  | _ => none

/-- Reads the rest of a string after its opening quote; `done` holds what was read, reversed, as long
as that is a text. -/
def stringBody : List Char → Option (List Char) → Option (Option String × List Char)
  | '"' :: rest, done => some (done.map fun cs => String.ofList cs.reverse, rest)
  | '\\' :: 'u' :: a :: b :: c :: d :: rest, done => do
    let code ← hexQuad? a b c d
    if 0xD800 ≤ code ∧ code < 0xE000 then
      match surrogatePair? code rest, rest with
      | some c, _ :: _ :: _ :: _ :: _ :: _ :: rest => stringBody rest (done.map (c :: ·))
      | _, rest => stringBody rest none
    else stringBody rest (done.map (Char.ofNat code :: ·))
  | '\\' :: c :: rest, done => do
    let c ← shortEscape? c
    stringBody rest (done.map (c :: ·))
  | c :: rest, done =>
    if c.toNat < 32 ∨ c = '\\' then none else stringBody rest (done.map (c :: ·))
  | [], _ => none

/-- The leading decimal digits and what follows them. -/
def digits (cs : List Char) : List Char × List Char := cs.span Char.isDigit

/-- The number that decimal digits spell. -/
def digitsValue (ds : List Char) : Nat :=
  ds.foldl (fun n d => n * 10 + (d.toNat - '0'.toNat)) 0

/-- Reads a fraction, if there is one; a point needs a digit after it. -/
def fraction? : List Char → Option (List Char × List Char)
  | '.' :: rest =>
    let (ds, rest) := digits rest
    if ds.isEmpty then none else some ('.' :: ds, rest)
  | cs => some ([], cs)

/-- Reads an exponent, if there is one; its mark needs a digit after the optional sign. -/
def exponent? : List Char → Option (List Char × List Char)
  | c :: rest =>
    if c == 'e' || c == 'E' then
      let (sign, rest) := match rest with
        | '+' :: rest => (['+'], rest)
        | '-' :: rest => (['-'], rest)
        | rest => ([], rest)
      let (ds, rest) := digits rest
      if ds.isEmpty then none else some (c :: (sign ++ ds), rest)
    else some ([], c :: rest)
  | [] => some ([], [])

/-- Reads a number. Minus zero is not a whole number. -/
def number? (cs : List Char) : Option (Json × List Char) := do
  let (negative, cs) := match cs with
    | '-' :: rest => (true, rest)
    | cs => (false, cs)
  let (whole, cs) := digits cs
  if whole.isEmpty ∨ (whole.length > 1 ∧ whole.head? = some '0') then none
  let (frac, cs) ← fraction? cs
  let (expo, cs) ← exponent? cs
  let value := digitsValue whole
  if frac.isEmpty ∧ expo.isEmpty ∧ ¬ (negative ∧ value = 0) then
    return (.int (if negative then -value else value), cs)
  else
    return (.real (String.ofList ((if negative then ['-'] else []) ++ whole ++ frac ++ expo)), cs)

mutual

/-- Reads one value. -/
def value? : Nat → List Char → Option (Json × List Char)
  | 0, _ => none
  | fuel + 1, cs =>
    match skipBlanks cs with
    | 'n' :: 'u' :: 'l' :: 'l' :: rest => some (.null, rest)
    | 't' :: 'r' :: 'u' :: 'e' :: rest => some (.bool true, rest)
    | 'f' :: 'a' :: 'l' :: 's' :: 'e' :: rest => some (.bool false, rest)
    | '"' :: rest => (stringBody rest (some [])).map fun r => (r.1.elim .illFormed .str, r.2)
    | '[' :: rest =>
      match skipBlanks rest with
      | ']' :: rest => some (.arr [], rest)
      | rest => items? fuel rest []
    | '\x7b' :: rest =>
      match skipBlanks rest with
      | '\x7d' :: rest => some (.obj [], rest)
      | rest => members? fuel rest (some [])
    | rest => number? rest

/-- Reads the items of an array up to its end; `done` holds those read, reversed. -/
def items? : Nat → List Char → List Json → Option (Json × List Char)
  | 0, _, _ => none
  | fuel + 1, cs, done => do
    let (item, rest) ← value? fuel cs
    match skipBlanks rest with
    | ',' :: rest => items? fuel rest (item :: done)
    | ']' :: rest => some (.arr (item :: done).reverse, rest)
    | _ => none

/-- Reads the members of an object up to its end; `done` holds those read, reversed, as long as their
names are texts. -/
def members? : Nat → List Char → Option (List (String × Json)) → Option (Json × List Char)
  | 0, _, _ => none
  | fuel + 1, cs, done => do
    match skipBlanks cs with
    | '"' :: rest =>
      let (name, rest) ← stringBody rest (some [])
      match skipBlanks rest with
      | ':' :: rest =>
        let (value, rest) ← value? fuel rest
        let done := return (← name, value) :: (← done)
        match skipBlanks rest with
        | ',' :: rest => members? fuel rest done
        | '\x7d' :: rest => some (done.elim .illFormed (.obj ·.reverse), rest)
        | _ => none
      | _ => none
    | _ => none

end

/-- Reads a text that holds exactly one value. -/
def parse? (text : String) : Option Json := do
  let cs := text.toList
  let (value, rest) ← value? (cs.length + 1) cs
  if (skipBlanks rest).isEmpty then return value else none

end AdaptiveLL.Json
