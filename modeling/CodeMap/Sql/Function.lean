/-
Functions of queries: those of single values, and those that sum up the rows of
a group.
-/
import CodeMap.Sql.Value

namespace CodeMap.Sql

/-- Matches a text against a pattern with a sign for any run of characters and
one for any single character. -/
def matchPattern (run single : Char) (same : Char → Char → Bool) :
    List Char → List Char → Bool
  | [], cs => cs.isEmpty
  | p :: ps, cs =>
    if p = run then anyTail (matchPattern run single same ps) cs
    else
      match cs with
      | [] => false
      | c :: rest => (p = single || same p c) && matchPattern run single same ps rest
where
  anyTail (test : List Char → Bool) : List Char → Bool
    | [] => test []
    | c :: rest => test (c :: rest) || anyTail test rest

/-- `LIKE`: letters count alike in both cases. -/
def isLike (pattern text : String) : Bool :=
  matchPattern '%' '_' (fun a b => a.toLower == b.toLower) pattern.toList text.toList

/-- `GLOB`: letters count as they are. -/
def isGlob (pattern text : String) : Bool :=
  matchPattern '*' '?' (· == ·) pattern.toList text.toList

/-- Position of a text in another, counted from one; zero if it is not there. -/
def positionOf (part : List Char) : Nat → List Char → Nat
  | n, [] => if part.isEmpty then n else 0
  | n, c :: rest => if part.isPrefixOf (c :: rest) then n else positionOf part (n + 1) rest

/-- A part of a list, from a place counted from one, or from the end. -/
def slice {α : Type} (start : Int) (length : Option Int) (xs : List α) : List α :=
  let n : Int := xs.length
  let first := if start > 0 then start - 1 else if start < 0 then n + start else -1
  match length with
  | none => xs.drop (max first 0).toNat
  | some l =>
    let (low, high) := if l < 0 then (first + l, first) else (first, first + l)
    let low' := max low 0
    (xs.drop low'.toNat).take (high - low').toNat

/-- Texts of the kinds of values. -/
def typeName : Value → String
  | .null => "null"
  | .integer _ => "integer"
  | .real _ => "real"
  | .text _ => "text"
  | .blob _ => "blob"

/-- A value where a function finds nothing to work on is null. -/
def onText (f : String → Value) (v : Value) : Value :=
  match v.toText? with
  | some s => f s
  | none => .null

def trimChars (set : List Char) (left right : Bool) (s : String) : String :=
  let cs := s.toList
  let cs := if left then cs.dropWhile set.contains else cs
  let cs := if right then (cs.reverse.dropWhile set.contains).reverse else cs
  String.ofList cs

/-- The larger or smaller of two values. -/
def extreme (larger : Bool) (a b : Value) : Value :=
  match b.order a with
  | .gt => if larger then b else a
  | .lt => if larger then a else b
  | .eq => a

/-- Hexadecimal digits of bytes. -/
def hexText (bytes : List UInt8) : String :=
  String.ofList (bytes.flatMap fun b =>
    [(Nat.digitChar (b.toNat / 16)).toUpper, (Nat.digitChar (b.toNat % 16)).toUpper])

/-- Rounds to a number of places, halves away from zero. -/
def roundTo (places : Nat) (x : Float) : Float :=
  let scale := Float.ofNat (Nat.pow 10 places)
  (x * scale).round / scale

/-- A value as it is written in a statement. -/
def quoted : Value → String
  | .null => "NULL"
  | .integer n => toString n
  | .real x => Value.realText x
  | .text s => "'" ++ s.replace "'" "''" ++ "'"
  | .blob bytes => "X'" ++ hexText bytes ++ "'"

/-- Functions of single values; none if there is no such function with so many
arguments. -/
def applyFunction? (name : String) (args : List Value) : Option Value :=
  match name, args with
  | "length", [.null] => some .null
  | "length", [.blob bytes] => some (.integer bytes.length)
  | "length", [v] => some (onText (fun s => .integer s.length) v)
  | "lower", [v] => some (onText (fun s => .text s.toLower) v)
  | "upper", [v] => some (onText (fun s => .text s.toUpper) v)
  | "typeof", [v] => some (.text (typeName v))
  | "abs", [v] =>
    some (match v.toNumber with
      | .integer n => .ofInt n.natAbs
      | .real x => .real x.abs
      | _ => .null)
  | "coalesce", _ :: _ :: _ => some ((args.find? fun v => !v.isNull).getD .null)
  | "ifnull", [a, b] => some (if a.isNull then b else a)
  | "nullif", [a, b] => some (if !b.isNull && a.order b = .eq then .null else a)
  | "iif", [c, a, b] => some (if c.truth = some true then a else b)
  | "substr", v :: start :: rest => substr v start rest
  | "substring", v :: start :: rest => substr v start rest
  | "replace", [v, a, b] =>
    some (match v.toText?, a.toText?, b.toText? with
      | some s, some a, some b => .text (if a = "" then s else s.replace a b)
      | _, _, _ => .null)
  | "trim", v :: rest => trimmed true true v rest
  | "ltrim", v :: rest => trimmed true false v rest
  | "rtrim", v :: rest => trimmed false true v rest
  | "instr", [v, part] =>
    some (match v.toText?, part.toText? with
      | some s, some p => .integer (positionOf p.toList 1 s.toList)
      | _, _ => .null)
  | "hex", [.blob bytes] => some (.text (hexText bytes))
  | "hex", [v] => some (.text (hexText (v.toText?.getD "").toUTF8.toList))
  | "quote", [v] => some (.text (quoted v))
  | "unicode", [v] =>
    some (match (v.toText?.getD "").toList with
      | c :: _ => .integer c.toNat
      | [] => .null)
  | "char", codes => some (.text (String.ofList (codes.map fun c => Char.ofNat c.toWhole.toNat)))
  | "zeroblob", [n] => some (.blob (List.replicate n.toWhole.toNat 0))
  | "sign", [v] =>
    some (match v.toNumber with
      | .integer n => .integer n.sign
      | .real x => .integer (if x < 0 then -1 else if x > 0 then 1 else 0)
      | _ => .null)
  | "round", [v] => some (rounded v 0)
  | "round", [v, places] => some (rounded v places.toWhole.toNat)
  | "min", a :: b :: rest => some (spread false (a :: b :: rest))
  | "max", a :: b :: rest => some (spread true (a :: b :: rest))
  | _, _ => none
where
  substr (v start : Value) (rest : List Value) : Option Value :=
    let length? : Option (Option Int) :=
      match rest with
      | [] => some none
      | [l] => some (some l.toWhole)
      | _ => none
    length?.map fun length =>
      match v with
      | .null => .null
      | .blob bytes => .blob (slice start.toWhole length bytes)
      | _ => onText (fun s => .text (String.ofList (slice start.toWhole length s.toList))) v
  trimmed (left right : Bool) (v : Value) (rest : List Value) : Option Value :=
    match rest with
    | [] => some (onText (fun s => .text (trimChars [' '] left right s)) v)
    | [set] =>
      some (match v.toText?, set.toText? with
        | some s, some set => .text (trimChars set.toList left right s)
        | _, _ => .null)
    | _ => none
  rounded (v : Value) (places : Nat) : Value :=
    match v.toNumber with
    | .null => .null
    | n => .real (roundTo places n.toFloat)
  spread (larger : Bool) (args : List Value) : Value :=
    match args with
    | [] => .null
    | a :: rest => if args.any Value.isNull then .null else rest.foldl (extreme larger) a

/-- Names of the functions of single values. -/
def singleFunctions : List String :=
  ["length", "lower", "upper", "typeof", "abs", "coalesce", "ifnull", "nullif", "iif", "substr",
    "substring", "replace", "trim", "ltrim", "rtrim", "instr", "hex", "quote", "unicode", "char",
    "zeroblob", "sign", "round", "min", "max"]

/-- Functions that sum up a group. -/
def groupFunctions : List String :=
  ["count", "sum", "total", "avg", "min", "max", "group_concat"]

/-- Whether there is a function of a name. -/
def isFunction (name : String) : Bool :=
  singleFunctions.contains name || groupFunctions.contains name

/-- Whether a call sums up a group. -/
def sumsUp (name : String) (argCount : Nat) : Bool :=
  groupFunctions.contains name && (argCount ≤ 1 || name == "group_concat")

/-- Values in their first places, each once. -/
def distinctValues (vs : List Value) : List Value :=
  vs.eraseDupsBy fun a b => a.order b == .eq

/-- Sums up the values of a group that are not null. -/
def summarize? (name : String) (values : List Value) (separator : String) : Option Value :=
  match name with
  | "count" => some (.integer values.length)
  | "sum" =>
    some (match values with
      | [] => .null
      | _ => values.foldl .add (.integer 0))
  | "total" => some (.real (values.foldl (fun x v => x + v.toNumber.toFloat) 0.0))
  | "avg" =>
    some (if values.isEmpty then .null
      else .real (values.foldl (fun x v => x + v.toNumber.toFloat) 0.0 / Float.ofNat values.length))
  | "min" => some (pick false values)
  | "max" => some (pick true values)
  | "group_concat" =>
    some (if values.isEmpty then .null
      else .text (String.intercalate separator (values.map fun v => v.toText?.getD "")))
  | _ => none
where
  pick (larger : Bool) : List Value → Value
    | [] => .null
    | a :: rest => rest.foldl (extreme larger) a

end CodeMap.Sql
