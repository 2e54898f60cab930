import ScopedEffects.Number.Binary64

/-! Reading JSON text from left to right, one expected shape at a time. The first fault ends the
reading, and its kind says what was wrong: malformed text, a well-formed value of another shape, or
text that ends too early. A value that nobody asks for is skipped without looking at its meaning:
its numbers may be out of range and its escapes may name no character. -/

namespace ScopedEffects.Json

inductive Fault where
  | malformed
  | shape
  | ended
  deriving DecidableEq, Repr

abbrev Reader (α : Type) := StateT (List Char) (Except Fault) α

namespace Reader

def fault {α : Type} (f : Fault) : Reader α := fun _ => .error f

def isBlank (c : Char) : Bool := c = ' ' || c = '\n' || c = '\t' || c = '\r'

/-- The next character, not consumed. -/
def peek : Reader (Option Char) := do return (← get).head?

def advance : Reader Unit := modify List.tail

/-- The next character, consumed; the end of the text counts as `atEnd`. -/
def next (atEnd : Fault) : Reader Char := do
  match ← get with
  | [] => fault atEnd
  | c :: rest => set rest; return c

/-- The next character after blanks, not consumed. -/
def peekToken : Reader (Option Char) := do
  modify (List.dropWhile isBlank)
  peek

/-- A number of steps that no loop over the rest of the text exceeds. -/
def budget : Reader Nat := do return (← get).length + 1

/-- The given characters, one by one. -/
def literal : List Char → Reader Unit
  | [] => pure ()
  | c :: rest => do
    let d ← next .ended
    if c = d then literal rest else fault .malformed

/-- All digits that follow. -/
def digits : Reader (List Char) := do
  let text ← get
  set (text.dropWhile Char.isDigit)
  return text.takeWhile Char.isDigit

/-! Strings -/

def hexValue (c : Char) : Option Nat :=
  if c.isDigit then some (c.toNat - '0'.toNat)
  else if 'a' ≤ c ∧ c ≤ 'f' then some (c.toNat - 'a'.toNat + 10)
  else if 'A' ≤ c ∧ c ≤ 'F' then some (c.toNat - 'A'.toNat + 10)
  else none

/-- Four hexadecimal digits. They are taken as four bytes, so fewer bytes than that end the text. -/
def hexUnit : Reader Nat := do
  let text ← get
  match text.take 4 |>.mapM hexValue with
  | some [a, b, c, d] => set (text.drop 4); return ((a * 16 + b) * 16 + c) * 16 + d
  | _ => fault (if text.foldr (fun c n => c.utf8Size + n) 0 < 4 then .ended else .malformed)

/-- The character of an escape of one letter. -/
def shortEscape : Char → Option Char
  | '"' => some '"'
  | '\\' => some '\\'
  | '/' => some '/'
  | 'b' => some '\x08'
  | 'f' => some '\x0c'
  | 'n' => some '\n'
  | 'r' => some '\r'
  | 't' => some '\t'
  | _ => none

def isLeading (n : Nat) : Bool := 0xd800 ≤ n && n ≤ 0xdbff

def isTrailing (n : Nat) : Bool := 0xdc00 ≤ n && n ≤ 0xdfff

/-- The character of an escape with hexadecimal digits: one unit, or a pair of surrogates. -/
def unicodeEscape : Reader Char := do
  let unit ← hexUnit
  if isTrailing unit then fault .malformed
  if !isLeading unit then return Char.ofNat unit
  literalOr '\\'
  literalOr 'u'
  let trail ← hexUnit
  if isTrailing trail then
    return Char.ofNat (0x10000 + (unit - 0xd800) * 0x400 + (trail - 0xdc00))
  else fault .malformed
where
  literalOr (c : Char) : Reader Unit := do
    if (← next .ended) = c then pure () else fault .malformed

/-- The characters up to the closing quote, in reverse, added to those already read. -/
def stringRest : Nat → List Char → Reader (List Char)
  | 0, _ => fault .ended
  | fuel + 1, read => do
    let c ← next .ended
    if c = '"' then return read
    else if c = '\\' then
      let letter ← next .ended
      if letter = 'u' then stringRest fuel ((← unicodeEscape) :: read)
      else
        match shortEscape letter with
        | some d => stringRest fuel (d :: read)
        | none => fault .malformed
    else if c.toNat < 0x20 then fault .malformed
    else stringRest fuel (c :: read)

/-- A string whose opening quote has been consumed. -/
def stringBody : Reader String := do
  return String.ofList (← stringRest (← budget) []).reverse

/-- Passes over a string whose opening quote has been consumed. -/
def skipString : Nat → Reader Unit
  | 0 => fault .ended
  | fuel + 1 => do
    let c ← next .ended
    if c = '"' then return ()
    else if c = '\\' then
      let letter ← next .ended
      if letter = 'u' then
        let _ ← hexUnit
        skipString fuel
      else if (shortEscape letter).isSome then skipString fuel
      else fault .malformed
    else if c.toNat < 0x20 then fault .malformed
    else skipString fuel

/-! Numbers -/

/-- A number as written: a natural number below `2 ^ 64`, or any other number. -/
inductive Number where
  | natural (n : Nat)
  | other
  deriving DecidableEq, Repr

def wordLimit : Nat := Nat.pow 2 64

/-- Digits folded into a number as long as it stays below the word limit, and how many were. -/
def foldDigits (start : Nat) : List Char → Nat × Nat
  | [] => (start, 0)
  | c :: rest =>
    let n := start * 10 + (c.toNat - '0'.toNat)
    if n < wordLimit then
      let (value, used) := foldDigits n rest
      (value, used + 1)
    else (start, 0)

/-- Fails when the number leaves the range of binary floating point. -/
def inRange (significand : Nat) (exponent : Int) : Reader Number :=
  if significand = 0 || exponent < 0 then return .other
  else if 308 < exponent then fault .malformed
  else
    let scaled := (Binary64.ofNat significand).mul (Binary64.ofDecimal false 1 exponent)
    if scaled.isFinite then return .other else fault .malformed

/-- Exponents are kept below this bound. -/
def exponentLimit : Nat := Nat.pow 2 31

/-- The exponent part, at its letter. -/
def exponentPart (significand : Nat) (start : Int) : Reader Number := do
  advance
  let sign ← peek
  if sign = some '+' || sign = some '-' then advance
  let first ← next .ended
  if !first.isDigit then fault .malformed
  let rest ← digits
  let value := (first :: rest).foldl (fun n c => n * 10 + (c.toNat - '0'.toNat)) 0
  let positive := sign ≠ some '-'
  if exponentLimit ≤ value then
    if significand ≠ 0 && positive then fault .malformed else return .other
  else inRange significand (if positive then start + value else start - value)

/-- The fraction and what follows it, at the point. -/
def fractionPart (significand : Nat) (start : Int) : Reader Number := do
  advance
  let places ← digits
  let (value, used) := foldDigits significand places
  if places.isEmpty then fault (if (← peek).isSome then .malformed else .ended)
  let exponent := start - used
  match ← peek with
  | some 'e' | some 'E' => exponentPart value exponent
  | _ => inRange value exponent

/-- What follows the whole part of a number. `dropped` digits did not fit into the significand. -/
def afterWhole (positive : Bool) (significand dropped : Nat) : Reader Number := do
  match ← peek with
  | some '.' => fractionPart significand dropped
  | some 'e' | some 'E' => exponentPart significand dropped
  | _ =>
    if dropped ≠ 0 then inRange significand dropped
    else return if positive then .natural significand else .other

/-- A number whose sign, if any, has been consumed. -/
def number (positive : Bool) : Reader Number := do
  let first ← next .ended
  if first = '0' then
    if ((← peek).map Char.isDigit).getD false then fault .malformed
    afterWhole positive 0 0
  else if first.isDigit then
    let rest ← digits
    let (significand, used) := foldDigits 0 (first :: rest)
    afterWhole positive significand (rest.length + 1 - used)
  else fault .malformed

/-- Passes over a number whose sign has been consumed. The end of the text is malformed here. -/
def skipNumber : Reader Unit := do
  let first ← next .malformed
  if first = '0' then
    if ((← peek).map Char.isDigit).getD false then fault .malformed
  else if first.isDigit then
    let _ ← digits
  else fault .malformed
  if (← peek) = some '.' then
    advance
    if (← digits).isEmpty then fault .malformed
  match ← peek with
  | some 'e' | some 'E' =>
    advance
    match ← peek with
    | some '+' | some '-' => advance
    | _ => pure ()
    if (← digits).isEmpty then fault .malformed
  | _ => pure ()

/-! Values -/

/-- The value at hand has another shape than the one asked for. It is read as far as it takes to
tell that it is well formed at its start. -/
def mismatch {α : Type} : Reader α := do
  match ← peek with
  | some 'n' => advance; literal ['u', 'l', 'l']; fault .shape
  | some 't' => advance; literal ['r', 'u', 'e']; fault .shape
  | some 'f' => advance; literal ['a', 'l', 's', 'e']; fault .shape
  | some '-' => advance; let _ ← number false; fault .shape
  | some '"' => advance; let _ ← stringBody; fault .shape
  | some '[' | some '\x7b' => fault .shape
  | some c =>
    if c.isDigit then
      let _ ← number true
      fault .shape
    else fault .malformed
  | none => fault .malformed

def string : Reader String := do
  match ← peekToken with
  | none => fault .ended
  | some '"' => advance; stringBody
  | some _ => mismatch

/-- A natural number below `2 ^ 64`. -/
def word : Reader Nat := do
  match ← peekToken with
  | none => fault .ended
  | some c =>
    if c = '-' then
      advance
      let _ ← number false
      fault .shape
    else if c.isDigit then
      match ← number true with
      | .natural n => return n
      | .other => fault .shape
    else mismatch

/-- `null`, or what `reader` reads. -/
def nullable {α : Type} (reader : Reader α) : Reader (Option α) := do
  if (← peekToken) = some 'n' then
    advance
    literal ['u', 'l', 'l']
    return none
  else
    return some (← reader)

/-- The kinds of brackets that are open around a skipped value. -/
inductive Bracket where
  | list
  | object
  deriving DecidableEq, Repr

def Bracket.closing : Bracket → Char
  | .list => ']'
  | .object => '\x7d'

/-- What a skipper expects next: a value, or what may follow one. `fresh` says that a bracket was
just opened, so that it may close at once. -/
inductive Expect where
  | value
  | follow
  | fresh

/-- Passes over the name and the colon of a member. -/
def skipName : Reader Unit := do
  match ← peekToken with
  | none => fault .ended
  | some '"' => advance
  | some _ => fault .malformed
  skipString (← budget)
  match ← peekToken with
  | none => fault .ended
  | some ':' => advance
  | some _ => fault .malformed

/-- Passes over one value and all that it holds. -/
def skipFrom : Nat → List Bracket → Expect → Reader Unit
  | 0, _, _ => fault .ended
  | fuel + 1, outer, .value => do
    match ← peekToken with
    | none => fault .ended
    | some 'n' => advance; literal ['u', 'l', 'l']; skipFrom fuel outer .follow
    | some 't' => advance; literal ['r', 'u', 'e']; skipFrom fuel outer .follow
    | some 'f' => advance; literal ['a', 'l', 's', 'e']; skipFrom fuel outer .follow
    | some '-' => advance; skipNumber; skipFrom fuel outer .follow
    | some '"' => advance; skipString (← budget); skipFrom fuel outer .follow
    | some '[' => advance; skipFrom fuel (.list :: outer) .fresh
    | some '\x7b' => advance; skipFrom fuel (.object :: outer) .fresh
    | some c =>
      if c.isDigit then
        skipNumber
        skipFrom fuel outer .follow
      else fault .malformed
  | _ + 1, [], _ => return ()
  | fuel + 1, b :: outer, expect => do
    match ← peekToken with
    | none => fault .ended
    | some c =>
      if c = b.closing then
        advance
        skipFrom fuel outer .follow
      else
        match expect with
        | .fresh => pure ()
        | _ => if c = ',' then advance else fault .malformed
        if b = .object then skipName
        skipFrom fuel (b :: outer) .value

def skip : Reader Unit := do skipFrom (2 * (← budget)) [] .value

/-- Nothing but blanks may follow. -/
def finish : Reader Unit := do
  if (← peekToken).isSome then fault .malformed

/-- What a reader reads from a text that holds the value alone. -/
def run {α : Type} (reader : Reader α) (text : String) : Except Fault α :=
  (StateT.run (do let a ← reader; finish; return a) text.toList).map Prod.fst

end Reader

end ScopedEffects.Json
