/-
Decimal digits of floating point numbers, found with whole numbers only. A
finite number is m · 2^q; its neighbours with n digits are the two multiples of
a power of ten around it, and the fewest digits that read back are those of the
first n for which a neighbour reads back.
-/
namespace CodeMap.Decimal

/-- A decimal number `digits · 10^scale`. -/
structure Scaled where
  digits : Nat
  scale : Int
  deriving DecidableEq, Repr

/-- A positive fraction. -/
structure Fraction where
  num : Nat
  den : Nat

/-- The absolute value of a finite number. -/
def fractionOf (x : Float) : Fraction :=
  let bits := x.toBits.toNat
  let exponent := bits / Nat.pow 2 52 % 2048
  let fraction := bits % Nat.pow 2 52
  if exponent = 0 then ⟨fraction, Nat.pow 2 1074⟩
  else if 1075 ≤ exponent then ⟨(Nat.pow 2 52 + fraction) * Nat.pow 2 (exponent - 1075), 1⟩
  else ⟨Nat.pow 2 52 + fraction, Nat.pow 2 (1075 - exponent)⟩

/-- How many digits a whole number has. -/
def digitCount (n : Nat) : Nat := (Nat.toDigits 10 n).length

/-- Where the first digit of a fraction stands: the least `k` such that the
fraction is below 10^k, or one more. -/
def magnitude (f : Fraction) : Int := (digitCount f.num : Int) - (digitCount f.den : Int) + 1

/-- A fraction times a power of ten. -/
def shifted (f : Fraction) (k : Int) : Fraction :=
  if 0 ≤ k then ⟨f.num * Nat.pow 10 k.toNat, f.den⟩ else ⟨f.num, f.den * Nat.pow 10 (-k).toNat⟩

/-- The exact magnitude: below 10^k and not below 10^(k-1). -/
def exactMagnitude (f : Fraction) : Int :=
  let k := magnitude f
  let g := shifted f (1 - k)
  if g.num < g.den then k - 1 else k

/-- The largest decimal of `n` digits not above a fraction, and whether it is
the nearer neighbour. -/
def lowerNeighbour (f : Fraction) (n : Nat) : Scaled × Bool :=
  let scale := exactMagnitude f - n
  let g := shifted f (-scale)
  (⟨g.num / g.den, scale⟩, 2 * (g.num % g.den) ≤ g.den)

/-- The number a decimal reads as. -/
def read (d : Scaled) : Float :=
  if 0 ≤ d.scale then Float.ofScientific (d.digits * Nat.pow 10 d.scale.toNat) false 0
  else Float.ofScientific d.digits true (-d.scale).toNat

/-- The decimal of `n` digits that reads back, the nearer one of two. -/
def readsBack? (x : Float) (f : Fraction) (n : Nat) : Option Scaled :=
  let (lower, nearer) := lowerNeighbour f n
  let upper : Scaled := { lower with digits := lower.digits + 1 }
  let fits (d : Scaled) : Bool := (read d).toBits == x.toBits
  let candidates := if nearer then [lower, upper] else [upper, lower]
  candidates.find? fits

/-- The fewest digits that read back as a positive finite number. -/
def shortest (x : Float) : Scaled :=
  let f := fractionOf x
  ((List.range 17).findSome? fun i => readsBack? x f (i + 1)).getD (lowerNeighbour f 17).1

/-- Drops the zeros at the end of the digits. -/
def trimZeros : Nat → Scaled → Scaled
  | 0, d => d
  | fuel + 1, d =>
    if d.digits ≠ 0 ∧ d.digits % 10 = 0 then trimZeros fuel ⟨d.digits / 10, d.scale + 1⟩ else d

/-- The decimal of `n` digits nearest to a positive finite number. -/
def rounded (n : Nat) (x : Float) : Scaled :=
  let (lower, nearer) := lowerNeighbour (fractionOf x) n
  trimZeros n (if nearer then lower else { lower with digits := lower.digits + 1 })

/-- The digits of a whole number. -/
def digitChars (n : Nat) : List Char := Nat.toDigits 10 n

/-- A decimal in positional notation, with at least one digit on each side of
the point. -/
def positional (d : Scaled) : String :=
  let ds := digitChars d.digits
  let point := (ds.length : Int) + d.scale
  if 0 ≤ d.scale then String.ofList (ds ++ List.replicate d.scale.toNat '0' ++ ['.', '0'])
  else if 0 < point then
    String.ofList (ds.take point.toNat ++ '.' :: ds.drop point.toNat)
  else String.ofList ('0' :: '.' :: List.replicate (-point).toNat '0' ++ ds)

/-- A decimal with one digit before the point and an exponent. `mark` stands
between the two. -/
def exponential (mark : Int → String) (d : Scaled) : String :=
  let ds := digitChars d.digits
  let exponent := (ds.length : Int) + d.scale - 1
  let body :=
    match ds with
    | [c] => [c]
    | c :: rest => c :: '.' :: rest
    | [] => []
  String.ofList body ++ mark exponent

end CodeMap.Decimal
