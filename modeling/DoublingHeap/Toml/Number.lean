import DoublingHeap.Toml.Quoted

/-! # Numbers

Integers are signed and fit 64 bits; they are written in base ten, or without a sign in base
sixteen, eight or two. Between two digits an underscore may stand. A floating-point number has a
fraction, an exponent or both, or is infinite or no number; one that is finite as written must not
exceed the largest finite number (`Decimal.exceedsFinite`). -/

namespace DoublingHeap.Toml.Number

attribute [local instance (high)] instPowNat

open Toml.Parser

/-- Whether a character is a decimal digit. -/
def isDigit (c : Char) : Bool := '0' ≤ c && c ≤ '9'

/-- The number that digits spell in a base. -/
def ofDigits (base : Nat) (digits : List Char) : Nat :=
  digits.foldl (fun n c => n * base + (Bytes.Hex.digitValue? c).getD 0) 0

/-- More digits, with an underscore before each if wanted. -/
def moreDigits (isDigit : Char → Bool) : Parser (List Char) :=
  repeated (satisfy isDigit <|> do let _ ← char '_'; satisfy isDigit)

/-- At least one digit, leading zeros allowed. -/
def digits (isDigit : Char → Bool) : Parser (List Char) := do
  let first ← satisfy isDigit
  let rest ← moreDigits isDigit
  return first :: rest

/-- A sign, if there is one; whether it is a minus. -/
def sign : Parser Bool := do
  return (← option (char '+' <|> char '-')) == some '-'

/-- The digits of a whole number without leading zeros. -/
def wholeDigits : Parser (List Char) :=
  (do
    let first ← satisfy fun c => '1' ≤ c && c ≤ '9'
    let rest ← moreDigits isDigit
    return first :: rest)
  <|> do return [← satisfy isDigit]

/-! ### Integers -/

/-- The number, if it fits 64 bits with a sign. -/
def signed64? (n : Int) : Option Int :=
  if -0x8000000000000000 ≤ n ∧ n < 0x8000000000000000 then some n else none

/-- A number in another base, after the mark of the base. -/
def marked (mark : String) (base : Nat) (isDigit : Char → Bool) : Parser Int := do
  word mark
  return ofDigits base (← digits isDigit)

/-- An integer in base ten. -/
def decimalInteger : Parser Int := do
  let negative ← sign
  let n := ofDigits 10 (← wholeDigits)
  return if negative then -(n : Int) else n

/-- An integer. -/
def integer : Parser Int :=
  (marked "0x" 16 (fun c => (Bytes.Hex.digitValue? c).isSome)
    <|> marked "0o" 8 (fun c => '0' ≤ c && c ≤ '7')
    <|> marked "0b" 2 (fun c => c == '0' || c == '1')
    <|> decimalInteger).filterMap signed64?

/-! ### Floating-point numbers -/

/-- The number `± digits · 10 ^ exponent`. -/
structure Decimal where
  negative : Bool
  digits : Nat
  exponent : Int

/-- The least positive number that rounds to infinity in binary floating point of 64 bits: half a
step above the largest finite number. -/
def finiteLimit : Nat := 0x3fffffffffffff * (2 : Nat) ^ (970 : Nat)

/-- Whether a number rounds to infinity above. A number of `n` digits before its exponent lies
between two powers of ten, which decides all but the close cases; those are compared exactly. -/
def Decimal.exceedsFinite (d : Decimal) : Bool :=
  if d.negative || d.digits == 0 then false
  else
    let n := (Nat.toDigits 10 d.digits).length
    match d.exponent with
    | .ofNat e => 310 ≤ n + e || finiteLimit ≤ d.digits * 10 ^ e
    | .negSucc e => 308 + (e + 1) < n && finiteLimit * 10 ^ (e + 1) ≤ d.digits

/-- The digits after a point. -/
def fraction : Parser (List Char) := do
  let _ ← char '.'
  digits isDigit

/-- A power of ten. -/
def exponent : Parser Int := do
  let _ ← char 'e' <|> char 'E'
  let negative ← sign
  let n := ofDigits 10 (← digits isDigit)
  return if negative then -(n : Int) else n

/-- A whole number with a fraction, an exponent or both. -/
def decimal : Parser Decimal := do
  let negative ← sign
  let whole ← wholeDigits
  let (part, power) ← (do return ([], ← exponent))
    <|> do return (← fraction, (← option exponent).getD 0)
  return ⟨negative, ofDigits 10 (whole ++ part), power - part.length⟩

/-- An infinity, or no number. -/
def special : Parser Unit := do
  let _ ← sign
  word "inf" <|> word "nan"

/-- A floating-point number, as it is written. -/
def float : Parser String :=
  recognized <| (decimal.filterMap fun d => if d.exceedsFinite then none else some ()) <|> special

end DoublingHeap.Toml.Number
