import DoublingHeap.Toml.Number

/-! # Dates and times

A moment is a date, a time of day, or a date and a time, which an offset from universal time may
follow. Months have the days that the calendar gives them, and a minute may have a leap second. -/

namespace DoublingHeap.Toml.Moment

open Toml.Parser

attribute [local instance (high)] instPowNat

/-- The number that exactly `n` digits spell. -/
def digits : Nat → Parser Nat
  | 0 => return 0
  | n + 1 => do
    let d ← satisfy Number.isDigit
    let rest ← digits n
    return (d.toNat - '0'.toNat) * 10 ^ n + rest

/-- Two digits that spell a number between two bounds. -/
def twoDigits (least greatest : Nat) : Parser Nat :=
  (digits 2).filterMap fun n => if least ≤ n ∧ n ≤ greatest then some n else none

/-- Whether a year has a 29th of February. -/
def isLeapYear (year : Nat) : Bool := year % 4 == 0 && (year % 100 != 0 || year % 400 == 0)

/-- The days of a month. -/
def daysIn (year month : Nat) : Nat :=
  if month = 2 then if isLeapYear year then 29 else 28
  else if month = 4 ∨ month = 6 ∨ month = 9 ∨ month = 11 then 30
  else 31

/-- Year, month and day of the month. -/
def date : Parser Unit := do
  let year ← digits 4
  let _ ← char '-'
  let month ← twoDigits 1 12
  let _ ← char '-'
  let day ← twoDigits 1 31
  if daysIn year month < day then failure

/-- Hour, minute and second, with a fraction of a second if wanted. -/
def time : Parser Unit := do
  let _ ← twoDigits 0 23
  let _ ← char ':'
  let _ ← twoDigits 0 59
  let _ ← char ':'
  let _ ← twoDigits 0 60
  let _ ← option do
    let _ ← char '.'
    takeWhile1 Number.isDigit

/-- The offset of a place from universal time. -/
def zone : Parser Unit :=
  (do let _ ← char 'Z' <|> char 'z')
  <|> do
    let _ ← char '+' <|> char '-'
    let _ ← twoDigits 0 23
    let _ ← char ':'
    let _ ← twoDigits 0 59

/-- A moment, as it is written. -/
def moment : Parser String :=
  recognized <|
    (do
      date
      let _ ← option do
        let _ ← satisfy fun c => c == 'T' || c == 't' || c == ' '
        time
        option zone)
    <|> time

end DoublingHeap.Toml.Moment
