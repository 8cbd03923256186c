/-
Tokens of queries. A token knows where it starts and stops, counted in bytes.
-/
namespace CodeMap.Sql

inductive TokenKind where
  /-- A word without quotes: a keyword or a name. -/
  | word
  /-- A name in quotes. -/
  | name
  | string
  | blob
  | number
  | parameter
  | symbol
  /-- Something that starts no token. -/
  | illegal
  deriving DecidableEq, Repr, Inhabited

/-- A token. `text` is what it stands for: a name without its quotes, the
contents of a string, the digits of a blob. -/
structure Token where
  kind : TokenKind
  text : String
  source : String
  start : Nat
  stop : Nat
  deriving Repr, Inhabited

/-- A word in capital letters. -/
def Token.upper (t : Token) : String := t.text.toUpper

def isWordStart (c : Char) : Bool := c.isAlpha || c == '_' || c.toNat ≥ 128

def isWordChar (c : Char) : Bool := isWordStart c || c.isDigit || c == '$'

def isHex (c : Char) : Bool :=
  c.isDigit || ('a' ≤ c && c ≤ 'f') || ('A' ≤ c && c ≤ 'F')

/-- Reads up to a closing quote; a doubled quote stands for one. Gives the
contents and how many characters were read, the closing quote included. -/
def readQuoted? (quote : Char) : List Char → Option (List Char × Nat)
  | [] => none
  | [c] => if c = quote then some ([], 1) else none
  | c :: d :: rest =>
    if c = quote then
      if d = quote then (readQuoted? quote rest).map fun (s, n) => (quote :: s, n + 2)
      else some ([], 1)
    else (readQuoted? quote (d :: rest)).map fun (s, n) => (c :: s, n + 1)

/-- How many characters a number takes. -/
def numberLength (cs : List Char) : Nat :=
  match cs with
  | '0' :: x :: h :: rest =>
    if (x == 'x' || x == 'X') && isHex h then 3 + (rest.takeWhile isHex).length
    else decimalLength cs
  | _ => decimalLength cs
where
  decimalLength (cs : List Char) : Nat :=
    let whole := (cs.takeWhile Char.isDigit).length
    let (fraction, rest) :=
      match cs.drop whole with
      | '.' :: after =>
        let n := (after.takeWhile Char.isDigit).length
        (n + 1, after.drop n)
      | rest => (0, rest)
    let exponent :=
      match rest with
      | e :: after =>
        if e == 'e' || e == 'E' then
          let sign :=
            match after with
            | '-' :: _ => 1
            | '+' :: _ => 1
            | _ => 0
          let n := ((after.drop sign).takeWhile Char.isDigit).length
          if n = 0 then 0 else 1 + sign + n
        else 0
      | [] => 0
    whole + fraction + exponent

/-- How many characters a block comment takes after its opening; one that is
not closed takes everything. -/
def commentLength : List Char → Nat
  | [] => 0
  | '*' :: '/' :: _ => 2
  | _ :: rest => commentLength rest + 1

/-- Symbols of two characters. -/
def longSymbols : List (List Char) :=
  [['|', '|'], ['<', '='], ['>', '='], ['<', '>'], ['!', '='], ['=', '='], ['<', '<'], ['>', '>']]

def shortSymbols : List Char :=
  ['+', '-', '*', '/', '%', '=', '<', '>', '(', ')', ',', '.', ';', '&', '|', '~']

/-- What starts at the start of a text: nothing but blanks or a comment, or a
token; and how many characters it takes. -/
def readToken (cs : List Char) : Option (TokenKind × List Char) × Nat :=
  match cs with
  | [] => (none, 0)
  | c :: rest =>
    if c == ' ' || ('\t' ≤ c && c ≤ '\r') then (none, 1)
    else if c = '-' && rest.head? = some '-' then (none, (cs.takeWhile (· ≠ '\n')).length)
    else if c = '/' && rest.head? = some '*' then (none, 2 + commentLength (rest.drop 1))
    else if (c == 'x' || c == 'X') && rest.head? == some '\'' then
      let digits := (rest.drop 1).takeWhile isHex
      if digits.length % 2 = 0 && (rest.drop (1 + digits.length)).head? == some '\'' then
        (some (.blob, digits), digits.length + 3)
      else (some (.illegal, []), 2 + ((rest.drop 1).takeWhile (· ≠ '\'')).length)
    else if isWordStart c then
      let word := cs.takeWhile isWordChar
      (some (.word, word), word.length)
    else if c.isDigit || (c == '.' && (rest.head?.map Char.isDigit).getD false) then
      let n := numberLength cs
      let tail := (cs.drop n).takeWhile isWordChar
      if tail.isEmpty then (some (.number, cs.take n), n)
      else (some (.illegal, []), n + tail.length)
    else if c == '\'' then
      match readQuoted? '\'' rest with
      | some (s, n) => (some (.string, s), n + 1)
      | none => (some (.illegal, []), cs.length)
    else if c == '"' || c == '\x60' then
      match readQuoted? c rest with
      | some (s, n) => (some (.name, s), n + 1)
      | none => (some (.illegal, []), cs.length)
    else if c == '[' then
      let s := rest.takeWhile (· ≠ ']')
      if (rest.drop s.length).isEmpty then (some (.illegal, []), cs.length)
      else (some (.name, s), s.length + 2)
    else if c == '?' then
      let digits := rest.takeWhile Char.isDigit
      (some (.parameter, digits), digits.length + 1)
    else if c == ':' || c == '@' || c == '$' then
      let word := rest.takeWhile isWordChar
      if word.isEmpty then (some (.illegal, []), 1)
      else (some (.parameter, c :: word), word.length + 1)
    else if longSymbols.contains (cs.take 2) then (some (.symbol, cs.take 2), 2)
    else if shortSymbols.contains c then (some (.symbol, [c]), 1)
    else (some (.illegal, []), 1)

/-- The size of a list of characters in bytes. -/
def bytesIn (cs : List Char) : Nat := cs.foldl (fun n c => n + c.utf8Size) 0

/-- The tokens of a text from an offset on. -/
def tokensFrom : Nat → Nat → List Char → List Token
  | 0, _, _ => []
  | _, _, [] => []
  | fuel + 1, offset, c :: rest =>
    let cs := c :: rest
    let (found, n) := readToken cs
    let taken := cs.take (max n 1)
    let stop := offset + bytesIn taken
    let later := tokensFrom fuel stop (cs.drop (max n 1))
    match found with
    | some (kind, text) =>
      ⟨kind, String.ofList text, String.ofList taken, offset, stop⟩ :: later
    | none => later

/-- The tokens of a text. -/
def tokens (text : String) : List Token := tokensFrom text.length 0 text.toList

end CodeMap.Sql
