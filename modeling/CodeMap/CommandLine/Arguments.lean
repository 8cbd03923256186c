/-
Command line arguments: options that take a value, flags, and positional
arguments. Options may stand anywhere; two dashes end them. A value may follow
its option as the next argument, unless it looks like an option itself, or
after an equals sign.
-/
import CodeMap.Limits

namespace CodeMap.CommandLine

/-- Why arguments make no command. -/
inductive Stop where
  /-- They are wrong. -/
  | usage
  /-- They ask for help. -/
  | help
  /-- They ask for the version. -/
  | version
  deriving DecidableEq, Repr

/-- What a command takes. -/
structure Shape where
  /-- Options that take a value. -/
  options : List String
  /-- Of these, the ones that may be given more than once. -/
  repeatable : List String
  /-- Flags, with the letter that is short for them. -/
  flags : List (String × Char)
  /-- Whether a letter asks for the version. -/
  hasVersion : Bool

/-- Arguments, sorted out. -/
structure Arguments where
  options : List (String × String) := []
  flags : List String := []
  positional : List String := []

namespace Arguments

/-- Adds an option; most may be given once only. -/
def addOption (a : Arguments) (shape : Shape) (name value : String) : Except Stop Arguments :=
  if (a.options.lookup name).isSome && !shape.repeatable.contains name then .error .usage
  else .ok { a with options := a.options ++ [(name, value)] }

/-- Adds a flag; it may be given once only. -/
def addFlag (a : Arguments) (name : String) : Except Stop Arguments :=
  if a.flags.contains name then .error .usage else .ok { a with flags := a.flags ++ [name] }

/-- Adds the flags of a run of letters. -/
def addLetters (shape : Shape) : List Char → Arguments → Except Stop Arguments
  | [], a => .ok a
  | c :: rest, a =>
    match shape.flags.find? (·.2 = c) with
    | some (name, _) => do addLetters shape rest (← a.addFlag name)
    | none =>
      if c = 'h' then .error .help
      else if c = 'V' && shape.hasVersion then .error .version
      else .error .usage

/-- All values of an option. -/
def values (a : Arguments) (name : String) : List String :=
  (a.options.filter (·.1 = name)).map (·.2)

/-- The value of an option. -/
def value? (a : Arguments) (name : String) : Option String := a.options.lookup name

end Arguments

/-- Whether an argument looks like an option. -/
def looksLikeOption (arg : String) : Bool :=
  match arg.toList with
  | '-' :: _ :: _ => true
  | _ => false

/-- Splits an argument at its first equals sign. -/
def splitEquals (cs : List Char) : String × Option String :=
  let name := cs.takeWhile (· ≠ '=')
  match cs.drop name.length with
  | _ :: value => (String.ofList name, some (String.ofList value))
  | [] => (String.ofList name, none)

/-- Sorts out arguments. `pending` is an option that waits for its value. With
`stopAtPositional` the first positional argument ends the scan and is left with
all that follows it. -/
def scan (shape : Shape) (stopAtPositional : Bool) :
    Option String → List String → Arguments → Except Stop (Arguments × List String)
  | some _, [], _ => .error .usage
  | some name, value :: rest, a =>
    if looksLikeOption value then .error .usage
    else do scan shape stopAtPositional none rest (← a.addOption shape name value)
  | none, [], a => .ok (a, [])
  | none, arg :: rest, a =>
    match arg.toList with
    | ['-', '-'] =>
      if stopAtPositional then .ok (a, rest)
      else .ok ({ a with positional := a.positional ++ rest }, [])
    | '-' :: '-' :: body =>
      let (name, value) := splitEquals body
      if (shape.flags.lookup name).isSome then
        if value.isSome then .error .usage
        else do scan shape stopAtPositional none rest (← a.addFlag name)
      else if shape.options.contains name then
        match value with
        | some v => do scan shape stopAtPositional none rest (← a.addOption shape name v)
        | none => scan shape stopAtPositional (some name) rest a
      else if name = "help" then .error .help
      else if name = "version" && shape.hasVersion then .error .version
      else .error .usage
    | '-' :: c :: letters => do
      scan shape stopAtPositional none rest (← Arguments.addLetters shape (c :: letters) a)
    | _ =>
      if stopAtPositional then .ok (a, arg :: rest)
      else scan shape stopAtPositional none rest { a with positional := a.positional ++ [arg] }

/-- A whole number of 64 bits. -/
def whole? (text : String) : Option Nat :=
  let digits :=
    match text.toList with
    | '+' :: rest => rest
    | cs => cs
  if digits.isEmpty || !digits.all Char.isDigit then none
  else
    let n := digits.foldl (fun n c => n * 10 + (c.toNat - 48)) 0
    if n ≤ maxUnsigned64 then some n else none

/-- Splits at every comma. -/
def splitCommas : List Char → List (List Char)
  | [] => [[]]
  | c :: rest =>
    match splitCommas rest with
    | [] => [[c]]
    | piece :: pieces => if c = ',' then [] :: piece :: pieces else (c :: piece) :: pieces

end CodeMap.CommandLine
