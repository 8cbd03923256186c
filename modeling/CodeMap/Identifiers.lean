/-
The identifiers of a text, found without a grammar. Languages whose tag
patterns capture no references get their references from here.

The text is cut into segments from left to right. At each position the first
applicable rule takes the segment: a comment to the end of its line, a block
comment, a literal in double quotes (which may span lines), a literal in
single quotes (which may not, unless the line feed is escaped), a maximal word,
and otherwise a single character. An opener without its closer is such a single
character, and the scan goes on right after it.
-/
namespace CodeMap.Identifiers

/-- What a segment of the text is. -/
inductive SegmentKind where
  | lineComment
  | blockComment
  | doubleQuoted
  | singleQuoted
  | word
  | other
  deriving DecidableEq, Repr

/-- A piece of the text. -/
structure Segment where
  kind : SegmentKind
  text : List Char
  deriving DecidableEq, Repr

/-- ASCII letters and the underscore. -/
def startsWord (c : Char) : Bool :=
  ('A' ≤ c && c ≤ 'Z') || ('a' ≤ c && c ≤ 'z') || c == '_'

/-- ASCII letters, digits and the underscore. -/
def continuesWord (c : Char) : Bool := startsWord c || ('0' ≤ c && c ≤ '9')

/-- How many characters run up to and including the first `*/`. -/
def blockLength? : List Char → Option Nat
  | [] => none
  | '*' :: '/' :: _ => some 2
  | _ :: rest => (blockLength? rest).map (· + 1)

/-- How many characters a literal takes after its opening quote, the closing
quote included. A backslash takes the next character with it. -/
def literalLength? (quote : Char) (spansLines : Bool) : List Char → Option Nat
  | [] => none
  | ['\\'] => none
  | '\\' :: _ :: rest => (literalLength? quote spansLines rest).map (· + 2)
  | c :: rest =>
    if c = quote then some 1
    else if c = '\n' && !spansLines then none
    else (literalLength? quote spansLines rest).map (· + 1)

/-- The kind and length of the segment at the start of `c :: rest`. -/
def measure (c : Char) (rest : List Char) : SegmentKind × Nat :=
  let toLineEnd := (rest.takeWhile (· ≠ '\n')).length
  if c = '/' && rest.head? = some '/' then (.lineComment, 1 + toLineEnd)
  else
    match c, rest with
    | '/', '*' :: body =>
      match blockLength? body with
      | some n => (.blockComment, n + 2)
      | none => (.other, 1)
    | '#', _ => (.lineComment, 1 + toLineEnd)
    | '"', _ =>
      match literalLength? '"' true rest with
      | some n => (.doubleQuoted, n + 1)
      | none => (.other, 1)
    | '\'', _ =>
      match literalLength? '\'' false rest with
      | some n => (.singleQuoted, n + 1)
      | none => (.other, 1)
    | _, _ =>
      if startsWord c then (.word, 1 + (rest.takeWhile continuesWord).length) else (.other, 1)

/-- Cuts a text into segments; `fuel` bounds how many are cut, and one per
character is always enough. -/
def cut : Nat → List Char → List Segment
  | 0, _ => []
  | _ + 1, [] => []
  | fuel + 1, c :: rest =>
    let (kind, n) := measure c rest
    ⟨kind, (c :: rest).take n⟩ :: cut fuel ((c :: rest).drop n)

/-- The segments of a text. -/
def segments (text : List Char) : List Segment := cut text.length text

/-- Words that are never reported. -/
def keywords : List String :=
  ["auto", "bool", "break", "case", "catch", "char", "class", "const", "constexpr",
    "continue", "default", "delete", "do", "double", "else", "enum", "explicit", "extern",
    "false", "float", "for", "friend", "goto", "if", "inline", "int", "long", "namespace",
    "new", "noexcept", "nullptr", "operator", "private", "protected", "public", "register",
    "return", "short", "signed", "sizeof", "static", "struct", "switch", "template", "this",
    "throw", "true", "try", "typedef", "typename", "union", "unsigned", "using", "virtual",
    "void", "volatile", "while", "NULL", "and", "as", "def", "elif", "except", "finally",
    "from", "import", "in", "is", "lambda", "None", "not", "or", "pass", "raise", "with",
    "yield", "fn", "let", "mut", "impl", "pub", "use", "mod", "self", "Self", "func",
    "package", "var", "end", "module", "function", "of", "type"]

/-- The word of a segment, if it is one and not a keyword. -/
def Segment.identifier? (s : Segment) : Option String :=
  if s.kind = .word && !keywords.contains (String.ofList s.text) then some (String.ofList s.text)
  else none

/-- The identifiers of a text, in order and with repetitions. -/
def ofText (text : String) : List String :=
  (segments text.toList).filterMap Segment.identifier?

end CodeMap.Identifiers
