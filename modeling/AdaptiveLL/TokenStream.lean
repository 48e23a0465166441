import AdaptiveLL.Signed
import AdaptiveLL.TokenSource

/-!
# Token streams

A stream reads tokens from a source as far as they are asked for and keeps them all, each with its
place. It shows only the tokens of one channel, and the end of the input; its position is always at
one of those. A parser looks ahead and behind, moves on, and returns to earlier places.

The places and distances that a caller names are numbers of 64 bits, and what is counted from them stays
in 64 bits: the greatest place and the least distance have no successor and no opposite there.
-/

set_option autoImplicit false

namespace AdaptiveLL

/-- The tokens of a source as a parser sees them. The type `η` is that of the state of the user
code. -/
structure TokenStream (η : Type) where
  source : TokenSource η
  tokens : Array Token := #[]
  /-- The place of the current token; none before the first access. -/
  pos : Option Nat := none
  channel : Int := defaultChannel
  fetchedEof : Bool := false

namespace TokenStream

variable {η : Type}

/-- The greatest place that a caller can name. -/
def lastPlace : Nat := 18446744073709551615

/-- The least distance that a caller can name. -/
def leastDistance : Int := -9223372036854775808

/-- A step on a stream. -/
abbrev StreamM (η : Type) := StateT (TokenStream η) Session

/-- The state of the user code. -/
def hooks (s : TokenStream η) : η := s.source.hooks

/-- Changes the state of the user code. -/
def setHooks (s : TokenStream η) (h : η) : TokenStream η := { s with source := s.source.setHooks h }

/-! ## Reading from the source -/

/-- Reads one token into the buffer. -/
def fetchOne (fuel : Nat) : StreamM η Token := do
  let s ← get
  let (t, source) ← (TokenSource.nextToken fuel).run s.source
  let t := { t with index := some s.tokens.size }
  set { s with source, tokens := s.tokens.push t, fetchedEof := t.isEof }
  return t

/-- Reads up to `n` tokens, but none behind the end of the input; gives their number. -/
def fetch (fuel : Nat) : Nat → StreamM η Nat
  | 0 => return 0
  | n + 1 => do
    if (← get).fetchedEof then return 0
    let _ ← fetchOne fuel
    return (← fetch fuel n) + 1

/-- Reads tokens until the buffer reaches a place, if the source has that many. -/
def require (fuel i : Nat) : StreamM η Unit := do
  let _ ← fetch fuel (i + 1 - (← get).tokens.size)

/-- Is the token shown? -/
def shows (s : TokenStream η) (t : Token) : Bool := t.channel == s.channel || t.isEof

/-- The first shown token at or behind a place; the last token when there is none. -/
def nextShown (fuel : Nat) : Nat → Nat → StreamM η Nat
  | 0, _ => failure
  | rounds + 1, i => do
    require fuel i
    let s ← get
    match s.tokens[i]? with
    | none => return s.tokens.size - 1
    | some t => if s.shows t then return i else nextShown fuel rounds (i + 1)

/-- The first shown token at or behind a place. -/
def shownFrom (fuel i : Nat) : StreamM η Nat := nextShown fuel fuel i

/-- The place of the current token; on the first access the stream moves to the first shown one. -/
def current (fuel : Nat) : StreamM η Nat := do
  match (← get).pos with
  | some p => return p
  | none =>
    let p ← shownFrom fuel 0
    modify ({ · with pos := some p })
    return p

/-- Reads up to 1000 tokens at a time until the end of the input. -/
def fillFrom (fuel : Nat) : Nat → StreamM η Unit
  | 0 => failure
  | rounds + 1 => do
    if (← fetch fuel 1000) = 1000 then fillFrom fuel rounds

/-- Reads the whole source. -/
def fill (fuel : Nat) : StreamM η Unit := do
  let _ ← current fuel
  fillFrom fuel fuel

/-! ## Looking around -/

/-- The last shown token at or before a place. -/
def shownBefore? (s : TokenStream η) (i : Nat) : Option Nat :=
  let shown := match s.tokens[i]? with
    | some t => s.shows t
    | none => false
  if shown then some i
  else
    match i with
    | 0 => none
    | j + 1 => s.shownBefore? j

/-- The place `n` shown tokens before a place. -/
def back? (s : TokenStream η) : Nat → Nat → Option Nat
  | 0, i => some i
  | _ + 1, 0 => none
  | n + 1, i + 1 =>
    match s.shownBefore? i with
    | some j => s.back? n j
    | none => none

/-- The place `n` shown tokens behind a place, but not behind the end of the input. -/
def ahead (fuel : Nat) : Nat → Nat → StreamM η Nat
  | 0, i => return i
  | n + 1, i => do
    match (← get).tokens[i]? with
    | none => return i
    | some t => if t.isEof then return i else ahead fuel n (← shownFrom fuel (i + 1))

/-- The token `k` places ahead: 1 is the current one, -1 the one before. The least distance is its own
opposite, so that no step back is made for it. -/
def lt (fuel : Nat) (k : Int) : StreamM η (Option Token) := do
  let p ← current fuel
  if k = 0 then return none
  else if k < 0 then
    let s ← get
    return (s.back? (signed64 (-k)).toNat p).bind fun i => s.tokens[i]?
  else
    let i ← ahead fuel (k - 1).toNat p
    return (← get).tokens[i]?

/-- The type of the token `k` places ahead. -/
def la (fuel : Nat) (k : Int) : StreamM η Int := do
  return ((← lt fuel k).map (·.type)).getD invalidType

/-- The buffered token at a place. -/
def get? (s : TokenStream η) (i : Nat) : Option Token := s.tokens[i]?

/-- The place of the current token; 0 before the first access. -/
def index (s : TokenStream η) : Nat := s.pos.getD 0

/-- The number of buffered tokens. -/
def size (s : TokenStream η) : Nat := s.tokens.size

/-! ## Moving -/

/-- Moves to the first shown token at or behind a place of the buffer. -/
def returnTo (fuel i : Nat) : StreamM η Unit := do
  let _ ← current fuel
  let p ← shownFrom fuel i
  modify ({ · with pos := some p })

/-- Moves to the first shown token at or behind any place. The number of tokens up to `lastPlace` comes
out as 0, so nothing is read for it, and the stream moves to the last token in the buffer. -/
def seek (fuel i : Nat) : StreamM η Unit := do
  if i = lastPlace then
    let _ ← current fuel
    modify fun s => { s with pos := some (s.tokens.size - 1) }
  else returnTo fuel i

/-- Moves to the next shown token; stays at the end of the input. -/
def consume (fuel : Nat) : StreamM η Unit := do
  let p ← current fuel
  match (← get).tokens[p]? with
  | none => return ()
  | some t =>
    if !t.isEof then
      let next ← shownFrom fuel (p + 1)
      modify ({ · with pos := some next })

/-! ## Text -/

/-- The text of a token: its own, or that of its span in the source. -/
def tokenText (s : TokenStream η) (t : Token) : String :=
  match t.text with
  | some text => text
  | none => (s.source.text? t.start t.stop).getD ""

/-- The text of `n` buffered tokens from a place on, up to the end of the input. -/
def textFrom (s : TokenStream η) : Nat → Nat → String
  | 0, _ => ""
  | n + 1, i =>
    match s.tokens[i]? with
    | none => ""
    | some t => if t.isEof then "" else s.tokenText t ++ s.textFrom n (i + 1)

/-- The text of the tokens from one place to another, both included. -/
def textBetween (s : TokenStream η) (start stop : Nat) : String :=
  s.textFrom (stop + 1 - start) start

/-- The text of all tokens. -/
def text (fuel : Nat) : StreamM η String := do
  fill fuel
  let s ← get
  return s.textBetween 0 (s.tokens.size - 1)

end TokenStream

end AdaptiveLL
