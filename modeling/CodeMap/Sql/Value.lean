/-
Values of queries: their order, their arithmetic, and how they turn into each
other. Whole numbers have 64 bits; a result that does not fit becomes a
floating point number.
-/
import CodeMap.Decimal.Shortest
import CodeMap.Limits

namespace CodeMap.Sql

inductive Value where
  | null
  | integer (n : Int)
  | real (x : Float)
  | text (s : String)
  | blob (bytes : List UInt8)
  deriving Inhabited, Repr

/-- What a column prefers to hold. -/
inductive Affinity where
  | none
  | text
  | numeric
  deriving DecidableEq, Repr, Inhabited

namespace Value

def ofBool (b : Bool) : Value := integer (if b then 1 else 0)

/-- A truth value that may be unknown. -/
def ofTruth : Option Bool → Value
  | some b => ofBool b
  | none => null

/-- A whole number if it has 64 bits, else the nearest floating point number. -/
def ofInt (n : Int) : Value :=
  if fitsSigned64 n then integer n else real (Float.ofInt n)

/-- A floating point number as text, in at most fifteen digits. -/
def realText (x : Float) : String :=
  let sign := if x < 0 then "-" else ""
  if x.isNaN then ""
  else if x.isInf then sign ++ "Inf"
  else if x == 0.0 then "0.0"
  else
    let d := Decimal.rounded 15 x.abs
    let point := (Decimal.digitCount d.digits : Int) + d.scale
    let mark (e : Int) : String :=
      let digits := toString e.natAbs
      (if e < 0 then "e-" else "e+") ++ (if digits.length < 2 then "0" else "") ++ digits
    let body :=
      if -4 < point ∧ point ≤ 15 then Decimal.positional d
      else if d.digits < 10 then
        toString d.digits ++ ".0" ++ mark (point - 1)
      else Decimal.exponential mark d
    sign ++ body

/-- The text of a value; none for null. Blobs that are no text have none. -/
def toText? : Value → Option String
  | null => none
  | integer n => some (toString n)
  | real x => some (realText x)
  | text s => some s
  | blob bytes => String.fromUTF8? ⟨bytes.toArray⟩

/-- The digits at the start of a list. -/
def leadingDigits (cs : List Char) : List Char := cs.takeWhile Char.isDigit

/-- A number read from the start of a text: the number and what follows it. -/
def readNumber? (cs : List Char) : Option (Value × List Char) :=
  let (negative, body) :=
    match cs with
    | '-' :: rest => (true, rest)
    | '+' :: rest => (false, rest)
    | _ => (false, cs)
  let whole := leadingDigits body
  let rest := body.drop whole.length
  let (fraction, rest, hasPoint) :=
    match rest with
    | '.' :: after => (leadingDigits after, after.drop (leadingDigits after).length, true)
    | _ => ([], rest, false)
  if whole.isEmpty && fraction.isEmpty then none
  else
    let (exponent, rest, hasExponent) : Int × List Char × Bool :=
      match rest with
      | e :: after =>
        if e == 'e' || e == 'E' then
          let (minus, digits) :=
            match after with
            | '-' :: ds => (true, ds)
            | '+' :: ds => (false, ds)
            | _ => (false, after)
          let ds := leadingDigits digits
          if ds.isEmpty then (0, rest, false)
          else
            let n : Int := (String.ofList ds).toNat!
            (if minus then -n else n, digits.drop ds.length, true)
        else (0, rest, false)
      | [] => (0, rest, false)
    let digits := ((whole ++ fraction).foldl (fun n c => n * 10 + (c.toNat - 48)) 0 : Nat)
    if hasPoint || hasExponent then
      let scale := exponent - fraction.length
      let capped := max (-1000) (min scale 1000)
      let x := Decimal.read ⟨digits, capped⟩
      some (real (if negative then -x else x), rest)
    else
      let n : Int := digits
      some (ofInt (if negative then -n else n), rest)

def isSpace (c : Char) : Bool := c == ' ' || ('\t' ≤ c && c ≤ '\r')

/-- A text that is a number through and through, as that number. -/
def numericText? (s : String) : Option Value :=
  match readNumber? (s.toList.dropWhile isSpace) with
  | some (v, rest) => if rest.all isSpace then some v else none
  | none => none

/-- The number a value counts as in arithmetic. -/
def toNumber : Value → Value
  | null => null
  | integer n => integer n
  | real x => real x
  | text s => ((readNumber? (s.toList.dropWhile isSpace)).map (·.1)).getD (integer 0)
  | blob bytes =>
    let s := (String.fromUTF8? ⟨bytes.toArray⟩).getD ""
    ((readNumber? (s.toList.dropWhile isSpace)).map (·.1)).getD (integer 0)

def toFloat : Value → Float
  | integer n => Float.ofInt n
  | real x => x
  | _ => 0.0

/-- Converts a value to what a column prefers. -/
def prefer : Affinity → Value → Value
  | .numeric, text s => (numericText? s).getD (text s)
  | .text, integer n => text (toString n)
  | .text, real x => text (realText x)
  | _, v => v

/-- Whether a value counts as true; null counts as neither. -/
def truth (v : Value) : Option Bool :=
  match v.toNumber with
  | integer n => some (n != 0)
  | real x => some (x != 0.0)
  | _ => none

/-- Kinds of values in their order. -/
def rank : Value → Nat
  | null => 0
  | integer _ | real _ => 1
  | text _ => 2
  | blob _ => 3

def orderFloats (a b : Float) : Ordering := if a < b then .lt else if b < a then .gt else .eq

def orderBytes : List UInt8 → List UInt8 → Ordering
  | [], [] => .eq
  | [], _ :: _ => .lt
  | _ :: _, [] => .gt
  | a :: as, b :: bs => (compare a b).then (orderBytes as bs)

/-- Null first, then numbers, texts and blobs. -/
def order (a b : Value) : Ordering :=
  match a, b with
  | integer m, integer n => compare m n
  | integer m, real y => orderFloats (Float.ofInt m) y
  | real x, integer n => orderFloats x (Float.ofInt n)
  | real x, real y => orderFloats x y
  | text s, text t => compare s t
  | blob xs, blob ys => orderBytes xs ys
  | _, _ => compare a.rank b.rank

def isNull : Value → Bool
  | null => true
  | _ => false

/-- Arithmetic on whole numbers where both are whole, else on floating point
numbers; with null the result is null. -/
def arithmetic (whole : Int → Int → Option Int) (floating : Float → Float → Float) (a b : Value) :
    Value :=
  let ofFloat (x : Float) : Value := if x.isNaN then null else real x
  match a.toNumber, b.toNumber with
  | null, _ => null
  | _, null => null
  | integer m, integer n =>
    match whole m n with
    | some k =>
      if fitsSigned64 k then integer k
      else ofFloat (floating (Float.ofInt m) (Float.ofInt n))
    | none => null
  | x, y => ofFloat (floating x.toFloat y.toFloat)

def add : Value → Value → Value := arithmetic (fun a b => some (a + b)) (· + ·)

def sub : Value → Value → Value := arithmetic (fun a b => some (a - b)) (· - ·)

def mul : Value → Value → Value := arithmetic (fun a b => some (a * b)) (· * ·)

/-- Division of whole numbers goes toward zero; by zero it is null. -/
def div (a b : Value) : Value :=
  match b.toNumber with
  | real y => if y == 0.0 then null else arithmetic (fun _ _ => none) (· / ·) a b
  | _ =>
    match a.toNumber, b.toNumber with
    | real _, integer 0 => null
    | _, _ => arithmetic (fun a b => if b = 0 then none else some (a.tdiv b)) (· / ·) a b

/-- A number as a whole number, toward zero. -/
def toWhole (v : Value) : Int :=
  match v.toNumber with
  | integer n => n
  | real x => if x < 0 then -((-x).toUInt64.toNat : Int) else (x.toUInt64.toNat : Int)
  | _ => 0

/-- The remainder of whole numbers has the sign of the first. -/
def rem (a b : Value) : Value :=
  if a.isNull || b.isNull then null
  else
    let n := b.toWhole
    if n = 0 then null
    else
      let r := a.toWhole.tmod n
      match a.toNumber, b.toNumber with
      | integer _, integer _ => integer r
      | _, _ => real (Float.ofInt r)

/-- Joins texts. -/
def concat (a b : Value) : Value :=
  match a.toText?, b.toText? with
  | some s, some t => text (s ++ t)
  | _, _ => null

end Value

end CodeMap.Sql
