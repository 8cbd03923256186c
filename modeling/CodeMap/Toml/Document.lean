/-
Reading a TOML document.
-/
import CodeMap.Toml.Text

namespace CodeMap.Toml

/-- Skips blanks, line endings and comments. -/
def skipLines : Nat → List Char → List Char
  | 0, cs => cs
  | fuel + 1, cs =>
    match skipComment? (skipSpaces cs) with
    | [] => []
    | rest =>
      match newline? rest with
      | some rest => skipLines fuel rest
      | none => rest

/-- Splits a key into the way to its table and the last part. -/
def splitKey (parts : List String) : List String × String :=
  (parts.dropLast, parts.getLast?.getD "")

/-- The entries of a table as those of an inline table. -/
def closeInline : Toml → Toml
  | table _ entries => inlineTable entries
  | t => t

mutual

/-- Reads a value. -/
def value? : Nat → List Char → Option (Toml × List Char)
  | 0, _ => none
  | fuel + 1, cs =>
    match cs with
    | '"' :: _ => (text? cs).map fun (s, rest) => (.string s, rest)
    | '\'' :: _ => (text? cs).map fun (s, rest) => (.string s, rest)
    | '[' :: rest => items? fuel [] rest
    | '{' :: rest =>
      match skipSpaces rest with
      | '}' :: rest => some (.inlineTable [], rest)
      | rest => entries? fuel empty rest
    | _ =>
      let (run, rest) := splitScalar cs
      if run = ['t', 'r', 'u', 'e'] then some (.boolean true, rest)
      else if run = ['f', 'a', 'l', 's', 'e'] then some (.boolean false, rest)
      else (readScalar? run).map fun v => (v, rest)

/-- Reads the items of an array after its bracket or a comma. -/
def items? : Nat → List Toml → List Char → Option (Toml × List Char)
  | 0, _, _ => none
  | fuel + 1, done, cs =>
    match skipLines cs.length cs with
    | ']' :: rest => some (.array done.reverse, rest)
    | body =>
      match value? fuel body with
      | none => none
      | some (v, rest) =>
        match skipLines rest.length rest with
        | ',' :: rest => items? fuel (v :: done) rest
        | ']' :: rest => some (.array (v :: done).reverse, rest)
        | _ => none

/-- Reads the entries of an inline table after its brace or a comma. -/
def entries? : Nat → Toml → List Char → Option (Toml × List Char)
  | 0, _, _ => none
  | fuel + 1, done, cs =>
    match key? cs.length cs with
    | some (parts, '=' :: rest) =>
      match value? fuel (skipSpaces rest) with
      | none => none
      | some (v, rest) =>
        let (path, key) := splitKey parts
        match assign path key v done with
        | none => none
        | some done =>
          match skipSpaces rest with
          | ',' :: rest => entries? fuel done rest
          | '}' :: rest => some (closeInline done, rest)
          | _ => none
    | _ => none

end

/-- A document that is being read: what was read, and the table that the last
header opened. -/
structure Draft where
  document : Toml
  current : List String

/-- Takes a header. -/
def Draft.header? (d : Draft) (listed : Bool) (parts : List String) : Option Draft :=
  let (path, key) := splitKey parts
  let change := if listed then openListed key else openTable key
  (adjust false change path d.document).map fun document => ⟨document, parts⟩

/-- Takes a key and its value. -/
def Draft.assign? (d : Draft) (parts : List String) (v : Toml) : Option Draft :=
  let (path, key) := splitKey parts
  (adjust false (assign path key v) d.current d.document).map fun document =>
    { d with document }

/-- Drops the brackets that close a header. -/
def closeHeader? (listed : Bool) : List Char → Option (List Char)
  | ']' :: ']' :: rest => if listed then some rest else none
  | ']' :: rest => if listed then none else some rest
  | _ => none

/-- Reads a header after its opening brackets. -/
def readHeader? (listed : Bool) (d : Draft) (cs : List Char) : Option (Draft × List Char) := do
  let (parts, rest) ← key? cs.length cs
  let rest ← closeHeader? listed rest
  let d ← d.header? listed parts
  return (d, ← lineEnd? rest)

/-- Reads a line with a key and a value. -/
def readAssignment? (d : Draft) (cs : List Char) : Option (Draft × List Char) := do
  let (parts, rest) ← key? cs.length cs
  let rest ← dropChar? '=' rest
  let (v, rest) ← value? cs.length (skipSpaces rest)
  let d ← d.assign? parts v
  return (d, ← lineEnd? rest)

/-- Reads line after line. -/
def readLines? : Nat → Draft → List Char → Option Toml
  | 0, _, _ => none
  | fuel + 1, d, cs =>
    match skipLines cs.length cs with
    | [] => some d.document
    | '[' :: '[' :: rest => (readHeader? true d rest).bind fun (d, rest) => readLines? fuel d rest
    | '[' :: rest => (readHeader? false d rest).bind fun (d, rest) => readLines? fuel d rest
    | rest => (readAssignment? d rest).bind fun (d, rest) => readLines? fuel d rest

/-- Reads a document; a malformed one is none. -/
def parse? (text : String) : Option Toml :=
  let cs :=
    match text.toList with
    | '\uFEFF' :: rest => rest
    | cs => cs
  readLines? (cs.length + 1) ⟨empty, []⟩ cs

end CodeMap.Toml
