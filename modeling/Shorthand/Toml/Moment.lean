import Shorthand.Count
import Shorthand.Document

/-!
# TOML dates and times

Dates, times of day, and both together with or without their distance from universal time. In a
document a moment counts as a table with a single entry, which holds its normal form: a capital `T`
between date and time, a capital `Z` for universal time, and no more digits of a fraction than it
needs.
-/

namespace Shorthand.Toml

/-- A day of the calendar. -/
structure Date where
  year : Nat
  month : Nat
  day : Nat
deriving Repr, DecidableEq

/-- The seconds of a time of day. -/
structure Seconds where
  whole : Nat
  /-- The fraction, if one is written. -/
  nanoseconds : Option Nat
deriving Repr, DecidableEq

/-- A time of day. -/
structure Time where
  hour : Nat
  minute : Nat
  /-- The seconds, if they are written. -/
  seconds : Option Seconds
deriving Repr, DecidableEq

/-- The distance of a local time from universal time. -/
inductive Zone
  /-- Universal time itself, written as a letter. -/
  | universal
  /-- So many minutes ahead of universal time. -/
  | ahead (minutes : Int)
deriving Repr, DecidableEq

/-- A date, a time of day, or both. -/
inductive Moment
  | date (day : Date)
  | time (clock : Time)
  | dateTime (day : Date) (clock : Time) (zone : Option Zone)
deriving Repr, DecidableEq

/-! ### Normal form -/

/-- The digits of a fraction of a second. Zeros at the end are left out, but for the first digit. -/
def fractionDigits (nanoseconds : Nat) : List Char :=
  let digits := ((Count.paddedDigits 9 nanoseconds).reverse.dropWhile (· == '0')).reverse
  if digits.isEmpty then ['0'] else digits

/-- A number of hours or minutes behind a colon, or of months or days behind a hyphen. -/
def pairBehind (mark : Char) (n : Nat) : List Char :=
  mark :: Count.paddedDigits 2 n

/-- The normal form of a date. -/
def Date.text (date : Date) : List Char :=
  Count.paddedDigits 4 date.year ++ pairBehind '-' date.month ++ pairBehind '-' date.day

/-- The normal form of seconds, with the colon before them. -/
def Seconds.text (seconds : Seconds) : List Char :=
  pairBehind ':' seconds.whole ++
    match seconds.nanoseconds with
    | none => []
    | some nanoseconds => '.' :: fractionDigits nanoseconds

/-- The normal form of a time of day. -/
def Time.text (time : Time) : List Char :=
  Count.paddedDigits 2 time.hour ++ pairBehind ':' time.minute ++
    (time.seconds.map Seconds.text).getD []

/-- The normal form of a distance from universal time. None at all has a plus sign. -/
def Zone.text : Zone → List Char
  | .universal => ['Z']
  | .ahead minutes =>
    let size := minutes.natAbs
    pairBehind (if minutes < 0 then '-' else '+') (size / 60) ++ pairBehind ':' (size % 60)

/-- The normal form of a moment. -/
def Moment.text : Moment → List Char
  | .date day => day.text
  | .time clock => clock.text
  | .dateTime day clock zone => day.text ++ 'T' :: clock.text ++ (zone.map Zone.text).getD []

/-- The table that a moment counts as. -/
def Moment.document (moment : Moment) : Document :=
  .table [(some "$__toml_private_datetime", .text (String.ofList moment.text))]

/-! ### Reading -/

/-- The number that exactly `count` digits at the beginning spell, and what follows them. -/
def readDigits? (count : Nat) (cs : List Char) : Option (Nat × List Char) :=
  let digits := cs.take count
  if digits.length = count ∧ digits.all Char.isDigit then
    some (Nat.ofDigitChars 10 digits 0, cs.drop count)
  else none

/-- What follows `c` at the beginning. -/
def readChar? (c : Char) (cs : List Char) : Option (List Char) :=
  if cs.head? = some c then some cs.tail else none

/-- The number of days of a month. -/
def daysInMonth (year month : Nat) : Nat :=
  if month = 2 then
    if year % 4 = 0 ∧ (year % 100 ≠ 0 ∨ year % 400 = 0) then 29 else 28
  else if month = 4 ∨ month = 6 ∨ month = 9 ∨ month = 11 then 30
  else 31

/-- The date at the beginning, and what follows it. -/
def readDate? (cs : List Char) : Option (Date × List Char) := do
  let (year, cs) ← readDigits? 4 cs
  let (month, cs) ← readDigits? 2 (← readChar? '-' cs)
  let (day, cs) ← readDigits? 2 (← readChar? '-' cs)
  if 1 ≤ month ∧ month ≤ 12 ∧ 1 ≤ day ∧ day ≤ daysInMonth year month then
    some ({ year, month, day }, cs)
  else none

/-- The nanoseconds that the digits behind a decimal point spell. Those behind the ninth are
dropped. -/
def nanosecondsOf (digits : List Char) : Nat :=
  Nat.ofDigitChars 10 ((digits ++ List.replicate 9 '0').take 9) 0

/-- The fraction of a second at the beginning, which may be missing, and what follows it. -/
def readFraction? : List Char → Option (Option Nat × List Char)
  | '.' :: cs =>
    let digits := cs.takeWhile Char.isDigit
    if digits.isEmpty then none
    else some (some (nanosecondsOf digits), cs.dropWhile Char.isDigit)
  | cs => some (none, cs)

/-- The seconds at the beginning, which may be missing, and what follows them. There is a sixtieth
second where one has to be added to a minute. -/
def readSeconds? : List Char → Option (Option Seconds × List Char)
  | ':' :: cs => do
    let (whole, cs) ← readDigits? 2 cs
    let (nanoseconds, cs) ← readFraction? cs
    if whole ≤ 60 then some (some { whole, nanoseconds }, cs) else none
  | cs => some (none, cs)

/-- The hours and minutes at the beginning, and what follows them. -/
def readHourMinute? (cs : List Char) : Option (Nat × Nat × List Char) := do
  let (hour, cs) ← readDigits? 2 cs
  let (minute, cs) ← readDigits? 2 (← readChar? ':' cs)
  if hour ≤ 23 ∧ minute ≤ 59 then some (hour, minute, cs) else none

/-- The time of day at the beginning, and what follows it. -/
def readTime? (cs : List Char) : Option (Time × List Char) := do
  let (hour, minute, cs) ← readHourMinute? cs
  let (seconds, cs) ← readSeconds? cs
  some ({ hour, minute, seconds }, cs)

/-- The distance from universal time with this text, or none if there is no text. -/
def zone? : List Char → Option (Option Zone)
  | [] => some none
  | c :: cs =>
    if c = 'Z' ∨ c = 'z' then if cs.isEmpty then some (some .universal) else none
    else if c = '+' ∨ c = '-' then
      match readHourMinute? cs with
      | some (hour, minute, []) =>
        let size : Int := 60 * hour + minute
        some (some (.ahead (if c = '-' then -size else size)))
      | _ => none
    else none

/-- Whether `c` stands between a date and a time. -/
def isTimeMark (c : Char) : Bool :=
  c == 'T' || c == 't' || c == ' '

/-- The moment with this text. Only a time behind a date has a distance from universal time. -/
def moment? (text : List Char) : Option Moment :=
  match readDate? text with
  | some (date, []) => some (.date date)
  | some (date, mark :: cs) => do
    let (time, cs) ← readTime? cs
    let zone ← zone? cs
    if isTimeMark mark then some (.dateTime date time zone) else none
  | none =>
    match readTime? text with
    | some (time, []) => some (.time time)
    | _ => none

/-- Whether the text is a date, behind which a time may follow. -/
def isDate (text : List Char) : Bool :=
  (readDate? text).any (·.2.isEmpty)

end Shorthand.Toml
