/-
JSON values and how they are printed. The entries of an object are printed in
the order in which they stand.
-/
import CodeMap.Decimal.Shortest
import CodeMap.Limits

namespace CodeMap

inductive Json where
  | null
  | boolean (value : Bool)
  | integer (value : Int)
  | real (value : Float)
  | string (text : String)
  | array (items : List Json)
  | object (entries : List (String × Json))
  deriving Inhabited

namespace Json

def natural (n : Nat) : Json := integer n

/-- A value or null. -/
def optional {α : Type} (f : α → Json) : Option α → Json
  | some a => f a
  | none => null

/-- Four hexadecimal digits. -/
def hex4 (n : Nat) : List Char :=
  [n / 4096 % 16, n / 256 % 16, n / 16 % 16, n % 16].map Nat.digitChar

/-- A character inside quotes. -/
def escapeChar (c : Char) : List Char :=
  match c with
  | '"' => ['\\', '"']
  | '\\' => ['\\', '\\']
  | '\n' => ['\\', 'n']
  | '\r' => ['\\', 'r']
  | '\t' => ['\\', 't']
  | '\x08' => ['\\', 'b']
  | '\x0c' => ['\\', 'f']
  | c => if c.toNat < 32 then '\\' :: 'u' :: hex4 c.toNat else [c]

/-- A text in quotes. -/
def quote (s : String) : String :=
  String.ofList ('"' :: s.toList.flatMap escapeChar ++ ['"'])

/-- A finite number in the fewest digits that read back: positional where its
first digit is at most sixteen places before or five places after the point. -/
def realText (x : Float) : String :=
  let sign := if x.toBits.toNat > maxSigned64 then "-" else ""
  if x == 0.0 then sign ++ "0.0"
  else
    let d := Decimal.trimZeros 20 (Decimal.shortest x.abs)
    let point := (Decimal.digitCount d.digits : Int) + d.scale
    sign ++
      if -5 < point ∧ point ≤ 16 then Decimal.positional d
      else Decimal.exponential (fun e => "e" ++ toString e) d

/-- Numbers that are not finite are printed as null. -/
def scalarText : Json → String
  | null => "null"
  | boolean true => "true"
  | boolean false => "false"
  | integer n => toString n
  | real x => if x.isFinite then realText x else "null"
  | string s => quote s
  | array _ => "[]"
  | object _ => "\x7b\x7d"

mutual

/-- The value on one line, without blanks. -/
def compact : Json → String
  | array items => "[" ++ String.intercalate "," (compactItems items) ++ "]"
  | object entries => "\x7b" ++ String.intercalate "," (compactEntries entries) ++ "\x7d"
  | v => scalarText v

def compactItems : List Json → List String
  | [] => []
  | v :: rest => compact v :: compactItems rest

def compactEntries : List (String × Json) → List String
  | [] => []
  | (k, v) :: rest => (quote k ++ ":" ++ compact v) :: compactEntries rest

end

/-- The start of a line at a depth. -/
def indent (depth : Nat) : String := "\n" ++ String.join (List.replicate depth "  ")

mutual

/-- The value over several lines, two blanks per depth. -/
def prettyAt (depth : Nat) : Json → String
  | array [] => "[]"
  | object [] => "\x7b\x7d"
  | array items =>
    "[" ++ indent (depth + 1) ++
      String.intercalate ("," ++ indent (depth + 1)) (prettyItems (depth + 1) items) ++
      indent depth ++ "]"
  | object entries =>
    "\x7b" ++ indent (depth + 1) ++
      String.intercalate ("," ++ indent (depth + 1)) (prettyEntries (depth + 1) entries) ++
      indent depth ++ "\x7d"
  | v => scalarText v

def prettyItems (depth : Nat) : List Json → List String
  | [] => []
  | v :: rest => prettyAt depth v :: prettyItems depth rest

def prettyEntries (depth : Nat) : List (String × Json) → List String
  | [] => []
  | (k, v) :: rest => (quote k ++ ": " ++ prettyAt depth v) :: prettyEntries depth rest

end

/-- The value over several lines. -/
def pretty (v : Json) : String := prettyAt 0 v

end Json

end CodeMap
