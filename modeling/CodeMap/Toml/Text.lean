/-
Strings and keys of TOML.
-/
import CodeMap.Toml.Scalar

namespace CodeMap.Toml

/-- Blanks within a line. -/
def isSpace (c : Char) : Bool := c == ' ' || c == '\t'

def skipSpaces (cs : List Char) : List Char := cs.dropWhile isSpace

/-- Characters that no string and no comment may hold. -/
def isControl (c : Char) : Bool := (c.toNat < 32 && c != '\t') || c.toNat == 127

/-- Reads a line ending. -/
def newline? : List Char → Option (List Char)
  | '\n' :: rest => some rest
  | '\r' :: '\n' :: rest => some rest
  | _ => none

/-- Reads `n` hexadecimal digits as a character. -/
def hexChar? (n : Nat) (cs : List Char) : Option (Char × List Char) :=
  let digits := cs.take n
  if digits.length = n ∧ digits.all isHexDigit then
    let code := ofDigits 16 digits
    if code.isValidChar then some (Char.ofNat code, cs.drop n) else none
  else none

/-- Reads what follows a backslash. -/
def escape? : List Char → Option (Char × List Char)
  | 'b' :: rest => some ('\x08', rest)
  | 't' :: rest => some ('\t', rest)
  | 'n' :: rest => some ('\n', rest)
  | 'f' :: rest => some ('\x0c', rest)
  | 'r' :: rest => some ('\r', rest)
  | '"' :: rest => some ('"', rest)
  | '\\' :: rest => some ('\\', rest)
  | 'u' :: rest => hexChar? 4 rest
  | 'U' :: rest => hexChar? 8 rest
  | _ => none

/-- Reads a string in double quotes after the opening one. -/
def basicText? : Nat → List Char → List Char → Option (String × List Char)
  | 0, _, _ => none
  | _, _, [] => none
  | fuel + 1, done, c :: rest =>
    if c = '"' then some (String.ofList done.reverse, rest)
    else if c = '\\' then
      match escape? rest with
      | some (e, rest) => basicText? fuel (e :: done) rest
      | none => none
    else if isControl c then none
    else basicText? fuel (c :: done) rest

/-- Reads a string in single quotes after the opening one. -/
def literalText? (cs : List Char) : Option (String × List Char) :=
  let text := cs.takeWhile fun c => c != '\'' && !isControl c
  match cs.drop text.length with
  | '\'' :: rest => some (String.ofList text, rest)
  | _ => none

/-- Skips the blanks and line endings after a backslash that ends a line; the
backslash has to be followed by a line ending, with nothing but blanks before
it. -/
def skipFolded? (cs : List Char) : Option (List Char) :=
  match newline? (skipSpaces cs) with
  | some rest => some (rest.dropWhile fun c => isSpace c || c == '\n' || c == '\r')
  | none => none

/-- The quotes at the start of a text. -/
def leadingQuotes (quote : Char) (cs : List Char) : Nat := (cs.takeWhile (· = quote)).length

/-- Reads a string over several lines after its three opening quotes. Up to two
quotes may stand anywhere in it, also right before the closing three. -/
def linesText? (quote : Char) (escapes : Bool) :
    Nat → List Char → List Char → Option (String × List Char)
  | 0, _, _ => none
  | _, _, [] => none
  | fuel + 1, done, c :: rest =>
    if c = quote then
      let n := leadingQuotes quote (c :: rest)
      if n ≥ 6 then none
      else if n ≥ 3 then
        some (String.ofList (List.replicate (n - 3) quote ++ done).reverse, (c :: rest).drop n)
      else linesText? quote escapes fuel (quote :: done) rest
    else if c = '\\' && escapes then
      match skipFolded? rest with
      | some rest => linesText? quote escapes fuel done rest
      | none =>
        match escape? rest with
        | some (e, rest) => linesText? quote escapes fuel (e :: done) rest
        | none => none
    else
      match newline? (c :: rest) with
      | some rest => linesText? quote escapes fuel ('\n' :: done) rest
      | none => if isControl c then none else linesText? quote escapes fuel (c :: done) rest

/-- Drops a line ending right after the opening quotes. -/
def skipFirstNewline (cs : List Char) : List Char := (newline? cs).getD cs

/-- Reads a string. -/
def text? (cs : List Char) : Option (String × List Char) :=
  match cs with
  | '"' :: '"' :: '"' :: rest => linesText? '"' true cs.length [] (skipFirstNewline rest)
  | '\'' :: '\'' :: '\'' :: rest => linesText? '\'' false cs.length [] (skipFirstNewline rest)
  | '"' :: rest => basicText? cs.length [] rest
  | '\'' :: rest => literalText? rest
  | _ => none

/-- Characters of a key without quotes. -/
def isKeyChar (c : Char) : Bool := c.isAlphanum || c == '_' || c == '-'

/-- Reads one part of a key. -/
def keyPart? (cs : List Char) : Option (String × List Char) :=
  match cs with
  | '"' :: rest => basicText? cs.length [] rest
  | '\'' :: rest => literalText? rest
  | _ =>
    let key := cs.takeWhile isKeyChar
    if key.isEmpty then none else some (String.ofList key, cs.drop key.length)

/-- Reads a key with its dots, and the blanks around it. -/
def key? : Nat → List Char → Option (List String × List Char)
  | 0, _ => none
  | fuel + 1, cs =>
    match keyPart? (skipSpaces cs) with
    | none => none
    | some (part, rest) =>
      match skipSpaces rest with
      | '.' :: rest => (key? fuel rest).map fun (parts, rest) => (part :: parts, rest)
      | rest => some ([part], rest)

/-- Skips a comment. -/
def skipComment? (cs : List Char) : List Char :=
  match cs with
  | '#' :: rest => rest.dropWhile fun c => !isControl c
  | _ => cs

/-- Reads the rest of a line that holds nothing more. -/
def lineEnd? (cs : List Char) : Option (List Char) :=
  match skipComment? (skipSpaces cs) with
  | [] => some []
  | rest => newline? rest

end CodeMap.Toml
