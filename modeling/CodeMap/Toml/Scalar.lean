/-
Numbers and dates of TOML. A number or date is a run of characters without
blanks, so it is split off first and then read as a whole.
-/
import CodeMap.Limits
import CodeMap.Toml.Value

namespace CodeMap.Toml

/-- The digits of a number in which underscores may stand between digits. -/
def joinedDigits? (isDigit : Char → Bool) : List Char → Option (List Char)
  | [] => none
  | [c] => if isDigit c then some [c] else none
  | c :: '_' :: rest => if isDigit c then (joinedDigits? isDigit rest).map (c :: ·) else none
  | c :: rest => if isDigit c then (joinedDigits? isDigit rest).map (c :: ·) else none

/-- The value of a digit in any base up to sixteen. -/
def digitValue (c : Char) : Nat :=
  if c.isDigit then c.toNat - 48
  else if 'a' ≤ c ∧ c ≤ 'f' then c.toNat - 87
  else c.toNat - 55

def ofDigits (base : Nat) (digits : List Char) : Nat :=
  digits.foldl (fun n c => n * base + digitValue c) 0

def isHexDigit (c : Char) : Bool :=
  c.isDigit || ('a' ≤ c && c ≤ 'f') || ('A' ≤ c && c ≤ 'F')

/-- Splits off a sign. -/
def splitSign : List Char → Bool × List Char
  | '-' :: rest => (true, rest)
  | '+' :: rest => (false, rest)
  | cs => (false, cs)

/-- Whole numbers are those of 64 bits. -/
def wholeInRange? (n : Int) : Option Toml :=
  if fitsSigned64 n then some (.integer n) else none

/-- The digits of a decimal whole number; no zero stands in front. -/
def decimalDigits? (cs : List Char) : Option (List Char) :=
  match cs with
  | '0' :: _ :: _ => none
  | _ => joinedDigits? Char.isDigit cs

def readInteger? (cs : List Char) : Option Toml :=
  let inBase (base : Nat) (isDigit : Char → Bool) (digits : List Char) : Option Toml :=
    (joinedDigits? isDigit digits).bind fun ds => wholeInRange? (ofDigits base ds)
  match cs with
  | '0' :: 'x' :: rest => inBase 16 isHexDigit rest
  | '0' :: 'o' :: rest => inBase 8 (fun c => '0' ≤ c && c ≤ '7') rest
  | '0' :: 'b' :: rest => inBase 2 (fun c => c == '0' || c == '1') rest
  | _ =>
    let (negative, digits) := splitSign cs
    (decimalDigits? digits).bind fun ds =>
      let n : Int := ofDigits 10 ds
      wholeInRange? (if negative then -n else n)

/-- Whether an exponent is well formed; none is required. -/
def isExponent : List Char → Bool
  | [] => true
  | c :: rest =>
    (c == 'e' || c == 'E') && (joinedDigits? Char.isDigit (splitSign rest).2).isSome

def readFloat? (cs : List Char) : Option Toml :=
  let (_, body) := splitSign cs
  if body = ['i', 'n', 'f'] ∨ body = ['n', 'a', 'n'] then some (.float (String.ofList cs))
  else
    let isRun (c : Char) : Bool := c.isDigit || c == '_'
    let whole := body.takeWhile isRun
    match body.dropWhile isRun with
    | [] => none
    | '.' :: rest =>
      let fraction := rest.takeWhile isRun
      if (decimalDigits? whole).isSome && (joinedDigits? Char.isDigit fraction).isSome &&
          isExponent (rest.dropWhile isRun) then some (.float (String.ofList cs))
      else none
    | rest =>
      if (decimalDigits? whole).isSome && isExponent rest then some (.float (String.ofList cs))
      else none

-- =================================================================== dates

/-- Reads exactly `n` digits. -/
def fixedDigits? (n : Nat) (cs : List Char) : Option (Nat × List Char) :=
  let digits := cs.take n
  if digits.length = n ∧ digits.all Char.isDigit then some (ofDigits 10 digits, cs.drop n)
  else none

/-- How many days a month has. -/
def daysIn (year month : Nat) : Nat :=
  if month = 2 then
    if year % 4 = 0 ∧ (year % 100 ≠ 0 ∨ year % 400 = 0) then 29 else 28
  else if [4, 6, 9, 11].contains month then 30
  else 31

/-- Drops an expected character. -/
def dropChar? (c : Char) : List Char → Option (List Char)
  | [] => none
  | d :: rest => if d = c then some rest else none

def readDate? (cs : List Char) : Option (List Char) := do
  let (year, cs) ← fixedDigits? 4 cs
  let (month, cs) ← fixedDigits? 2 (← dropChar? '-' cs)
  let (day, cs) ← fixedDigits? 2 (← dropChar? '-' cs)
  if 1 ≤ month ∧ month ≤ 12 ∧ 1 ≤ day ∧ day ≤ daysIn year month then some cs else none

def readTime? (cs : List Char) : Option (List Char) := do
  let (hour, cs) ← fixedDigits? 2 cs
  let (minute, cs) ← fixedDigits? 2 (← dropChar? ':' cs)
  let (second, cs) ← fixedDigits? 2 (← dropChar? ':' cs)
  if hour ≤ 23 ∧ minute ≤ 59 ∧ second ≤ 60 then
    match cs with
    | '.' :: d :: rest => if d.isDigit then some (rest.dropWhile Char.isDigit) else none
    | ['.'] => none
    | _ => some cs
  else none

def isOffset (cs : List Char) : Bool :=
  match cs with
  | [] => true
  | ['Z'] => true
  | ['z'] => true
  | sign :: rest =>
    (sign == '+' || sign == '-') &&
    (match fixedDigits? 2 rest with
      | some (hour, ':' :: rest) =>
        match fixedDigits? 2 rest with
        | some (minute, []) => hour ≤ 23 && minute ≤ 59
        | _ => false
      | _ => false)

/-- A date, a time, or both with an optional offset. -/
def isDatetime (cs : List Char) : Bool :=
  match readDate? cs with
  | some [] => true
  | some (mark :: rest) =>
    [' ', 'T', 't'].contains mark &&
    (match readTime? rest with
      | some offset => isOffset offset
      | none => false)
  | none => readTime? cs == some []

/-- Reads a run of characters as a number or date. -/
def readScalar? (run : List Char) : Option Toml :=
  if isDatetime run then some (.datetime (String.ofList run))
  else (readInteger? run).or (readFloat? run)

/-- Characters of numbers and dates. -/
def isScalarChar (c : Char) : Bool :=
  c.isAlphanum || c == '_' || c == '+' || c == '-' || c == '.' || c == ':'

/-- Splits off a number or date. A single blank may divide a date from a time. -/
def splitScalar (cs : List Char) : List Char × List Char :=
  let run := cs.takeWhile isScalarChar
  let rest := cs.dropWhile isScalarChar
  match readDate? run, rest with
  | some [], ' ' :: d :: rest' =>
    if d.isDigit then
      (run ++ ' ' :: (d :: rest').takeWhile isScalarChar, (d :: rest').dropWhile isScalarChar)
    else (run, rest)
  | _, _ => (run, rest)

end CodeMap.Toml
