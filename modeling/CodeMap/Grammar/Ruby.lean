/-
Ruby: methods, classes and modules, and the calls between them.

Block keywords are openings and `end` is their closing, so that a method or
class is one group. Which keywords open a block is decided on the tokens before
grouping: `if` and its kin open one only where a statement or an operand starts,
not behind a `return` or `yield` that they make conditional; `do` opens none when
a loop keyword before it waits for it, and a method whose body follows an equals
sign has no `end`.

A name is a call when a receiver, parentheses, a block or an argument follows
it; an argument on the same row after a blank is enough.
-/
import CodeMap.Syntax.Rule
import CodeMap.Syntax.Lexer
import CodeMap.Syntax.Pattern

namespace CodeMap.Grammar.Ruby

open Syntax Rule

-- ============================================================ lexical rules

def keywords : List String :=
  ["alias", "and", "begin", "BEGIN", "break", "case", "class", "def", "defined?", "do", "else",
    "elsif", "end", "END", "ensure", "false", "for", "if", "in", "module", "next", "nil", "not",
    "or", "redo", "rescue", "retry", "return", "self", "super", "then", "true", "undef", "unless",
    "until", "when", "while", "yield", "__FILE__", "__LINE__"]

/-- Keywords after which an operand starts. -/
def operandWords : List String :=
  ["and", "or", "not", "if", "unless", "while", "until", "when", "in", "return", "then", "do",
    "else", "elsif", "begin", "ensure", "case", "yield", "rescue"]

/-- Whether an operand may start here. -/
def expectsOperand (x : Context) : Bool :=
  match x.previous with
  | none => true
  | some t =>
    x.fresh ||
    match t.cls with
    | .symbol => true
    | .opening => true
    | .word => operandWords.contains t.text
    | _ => false

/-- The same after a name that a blank parts from what follows it closely. -/
def expectsArgument (x : Context) (next : Option Char) : Bool :=
  x.after (fun t => t.cls = .word && !keywords.contains t.text) && !x.glued &&
    !(next.any fun c => Text.isBlank c || c = '=')

/-- Length of a name with the question or exclamation mark it may end in. -/
def nameRun (cs : List Char) : Nat :=
  let n := (cs.takeWhile isNameRest).length
  match cs.drop n with
  | m :: '=' :: rest =>
    if (m = '?' || m = '!') && (rest.head?.any fun c => c = '=' || c = '~' || c = '>') then n + 1
    else n
  | m :: _ => if m = '?' || m = '!' then n + 1 else n
  | [] => n

/-- Names of operator methods, longer ones first. -/
def operatorNames : List (List Char) :=
  ["[]=", "<=>", "===", "**", "==", "=~", "!=", "!~", "[]", "+@", "-@", "<<", ">>", "<=", ">=",
    "+", "-", "*", "/", "%", "!", "~", "<", ">", "&", "|", "^"].map String.toList

/-- The name after `def`: an operator, or a word that may end in an equals sign. -/
def methodName? (cs : List Char) : Option Nat :=
  match operatorNames.find? (startsWith cs) with
  | some op => some op.length
  | none =>
    match cs with
    | [] => none
    | c :: _ =>
      if isNameStart c then
        let n := nameRun cs
        match cs.drop n with
        | '=' :: d :: _ =>
          if d = '(' || isNameStart d then some (n + 1) else some n
        | _ => some n
      else none

/-- The bracket that closes a percent literal. -/
def closerOf : Char → Char
  | '(' => ')'
  | '[' => ']'
  | '\x7b' => '\x7d'
  | '<' => '>'
  | c => c

/-- Length of a bracketed text after its opening, at the given depth. -/
def percentRun (o c : Char) : Nat → List Char → Nat
  | _, [] => 0
  | d, '\\' :: _ :: cs => percentRun o c d cs + 2
  | d, x :: cs =>
    if x = c then if d = 0 then 1 else percentRun o c (d - 1) cs + 1
    else if x = o then percentRun o c (d + 1) cs + 1
    else percentRun o c d cs + 1

/-- The letters between a percent sign and the opening of its text, if the two
are there. -/
def percentMark? (cs : List Char) : Option (List Char) :=
  let mark := cs.takeWhile fun c => ['w', 'W', 'i', 'I', 'q', 'Q', 'r', 's', 'x'].contains c
  match cs.drop mark.length with
  | o :: _ =>
    if mark.length ≤ 1 && ['(', '[', '\x7b', '<', '|', '!', '/'].contains o then some mark
    else none
  | [] => none

/-- Length of a percent literal after its percent sign. -/
def percentLength? (cs : List Char) : Option Nat :=
  (percentMark? cs).bind fun mark =>
    match cs.drop mark.length with
    | o :: rest => some (mark.length + 1 + percentRun o (closerOf o) 0 rest)
    | [] => none

/-- What opens code inside a text. -/
def hole : List Char := ['#', '\x7b']

/-- Whether some characters hold an opening of code. -/
def hasHole : List Char → Bool
  | [] => false
  | c :: cs => startsWith (c :: cs) hole || hasHole cs

/-- A percent literal with code inside. -/
def percentText? (cs : List Char) : Option TextForm :=
  match percentMark? cs, percentLength? cs with
  | some mark, some n =>
    match cs.drop mark.length with
    | o :: _ =>
      if hasHole (cs.take n) && !(['w', 'i', 'q', 's'].any mark.contains) then
        some ⟨mark.length + 2, [closerOf o], true, some hole, false, true⟩
      else none
    | [] => none
  | _, _ => none

/-- Length of a regular expression after its opening slash. -/
def patternRun : List Char → Option Nat
  | [] => none
  | '\n' :: _ => none
  | '\\' :: _ :: cs => (patternRun cs).map (· + 2)
  | '/' :: cs => some (1 + (cs.takeWhile Char.isAlpha).length)
  | _ :: cs => (patternRun cs).map (· + 1)

/-- Whether an operand may start here with these characters after its sign. -/
def startsLiteral (x : Context) (rest : List Char) : Bool :=
  expectsOperand x || expectsArgument x rest.head?

def heredoc? (x : Context) (cs : List Char) : Option Heredoc :=
  match cs with
  | '<' :: '<' :: rest =>
    let dash := rest.head?.any fun c => c = '-' || c = '~'
    let body := if dash then rest.drop 1 else rest
    let raw := body.head? = some '\''
    let quoted := raw || body.head? = some '"'
    let named := if quoted then body.drop 1 else body
    let mark := named.takeWhile isNameRest
    if (named.head?.any fun c => isNameStart c && (dash || c.isUpper)) && startsLiteral x rest then
      let opener := 2 + (if dash then 1 else 0) + mark.length + (if quoted then 2 else 0)
      some ⟨opener, mark, dash, if raw then none else some hole⟩
    else none
  | _ => none

def special? (x : Context) (cs : List Char) : Option (TokenClass × Nat) :=
  let afterDot := x.after fun t => t.isOneOf .symbol [".", "&."]
  let named :=
    match x.recent with
    | t :: _ :: def_ :: _ => t.isWord "def" || (afterDot && def_.isWord "def")
    | t :: _ => t.isWord "def"
    | [] => false
  if named then (methodName? cs).map fun n => (.word, n)
  else
    match cs with
    | ':' :: c :: rest =>
      if c = ':' || c = '"' then none
      else if isNameStart c then
        some (.text, 1 + nameRun (c :: rest))
      else if expectsOperand x || expectsArgument x (some c) then
        (operatorNames.find? (startsWith (c :: rest))).map fun op => (.text, 1 + op.length)
      else none
    | '@' :: rest => some (.text, 1 + (rest.takeWhile fun c => isNameRest c || c = '@').length)
    | '$' :: c :: rest =>
      some (.text, if isNameStart c then 2 + (rest.takeWhile isNameRest).length else 2)
    | '%' :: rest =>
      if startsLiteral x rest && (percentText? rest).isNone then
        (percentLength? rest).map fun n => (.text, n + 1)
      else none
    | '/' :: rest =>
      if startsLiteral x rest then
        (patternRun rest).bind fun n => if hasHole (rest.take n) then none else some (.text, n + 1)
      else none
    | c :: _ =>
      if isNameStart c then
        let n := nameRun cs
        match cs.drop n with
        | ':' :: d :: _ =>
          if d ≠ ':' && !afterDot && !(x.after (·.isSymbol "?")) then some (.text, n + 1)
          else some (.word, n)
        | [':'] => some (.text, n + 1)
        | _ => some (.word, n)
      else none
    | [] => none

def text? (x : Context) (cs : List Char) : Option TextForm :=
  match cs with
  | '"' :: _ => some ⟨1, ['"'], true, some hole, false, true⟩
  | ':' :: '"' :: _ => some ⟨2, ['"'], true, some hole, false, true⟩
  | '\'' :: _ => some (plainText '\'' true)
  | '\x60' :: _ => some ⟨1, ['\x60'], true, some hole, false, true⟩
  | '%' :: rest => if startsLiteral x rest then percentText? rest else none
  | '/' :: rest =>
    if startsLiteral x rest && (patternRun rest).isSome then
      some ⟨1, ['/'], true, some hole, false, true⟩
    else none
  | _ => none

/-- Whether the row ends the program, so that nothing below it is read. -/
def endsProgram (cs : List Char) : Bool :=
  cs.takeWhile (fun c => c ≠ '\n' && c ≠ '\r') = "__END__".toList

def comment? (x : Context) (cs : List Char) : Option Nat :=
  if x.fresh && startsWith cs "=begin".toList then
    let n := lengthUntil (fun r => startsWith r "\n=end".toList) cs
    some (n + 5)
  else if x.fresh && endsProgram cs then some cs.length
  else lineComment? ['#'] cs

def lexis : Lexis where
  comment? := comment?
  special? := special?
  text? := text?
  startsWord := isNameStart
  continuesWord := isNameRest
  symbols :=
    ["**=", "||=", "&&=", "<<=", ">>=", "<=>", "===", "...", "&.", "::", "=>", "->", "**", "==",
      "!=", "=~", "!~", "<=", ">=", "<<", ">>", "&&", "||", "..", "+=", "-=", "*=", "/=", "%=",
      "|=", "&=", "^="].map String.toList
  markup _ _ := false
  heredoc? := heredoc?

-- ========================================================== block keywords

/-- The tokens after a parenthesis that was just opened, past its closing. -/
def pastParens : Nat → List Token → List Token
  | _, [] => []
  | d, t :: ts =>
    if t.cls = .opening then pastParens (d + 1) ts
    else if t.cls = .closing then if d = 0 then ts else pastParens (d - 1) ts
    else pastParens d ts

/-- Whether the method whose name comes next has a body after an equals sign. -/
def isEndless (ts : List Token) : Bool :=
  let afterName :=
    match ts with
    | _ :: dot :: _ :: rest => if dot.isSymbol "." then rest else ts.drop 1
    | _ => ts.drop 1
  let afterParams :=
    match afterName with
    | p :: rest => if p.isOpening "(" && p.glued then pastParens 0 rest else afterName
    | [] => []
  match afterParams with
  | e :: _ => e.isSymbol "=" && !e.fresh
  | [] => false

/-- Keywords that need no operand: `if` and its kin behind them say when they
apply. -/
def completeWords : List String := ["return", "yield"]

/-- Whether a statement or an operand may start after a token, with a block
keyword of its own. -/
def startsAfter (previous : Option Token) (t : Token) : Bool :=
  match previous with
  | none => true
  | some p =>
    t.fresh ||
    match p.cls with
    | .symbol | .opening => true
    | .word => operandWords.contains p.text && !completeWords.contains p.text
    | _ => false

/-- Marks block keywords as openings and closings. `loopRow` is the row of a loop
keyword that still waits for its `do`. -/
def markBlocks (previous : Option Token) (loopRow : Option Nat) : List Token → List Token
  | [] => []
  | t :: ts =>
    let row := t.extent.start.row
    let isPlain := t.cls ≠ .word ||
      previous.any fun p => p.isOneOf .symbol [".", "&."] || p.isWord "def"
    if isPlain then t :: markBlocks (some t) loopRow ts
    else if t.text == "end" then
      let t' := { t with cls := .closing }
      t' :: markBlocks (some t') loopRow ts
    else if ["class", "module", "begin", "case"].contains t.text ||
        (t.text == "def" && !isEndless ts) ||
        (["if", "unless"].contains t.text && startsAfter previous t) then
      { t with cls := .opening } :: markBlocks (some t) loopRow ts
    else if ["while", "until", "for"].contains t.text && startsAfter previous t then
      { t with cls := .opening } :: markBlocks (some t) (some row) ts
    else if t.text == "do" then
      if loopRow == some row then t :: markBlocks (some t) none ts
      else { t with cls := .opening } :: markBlocks (some t) loopRow ts
    else t :: markBlocks (some t) loopRow ts

/-- Brackets match by shape and `end` closes any block keyword. -/
def blocksMatch (o c : Token) : Bool :=
  if c.text == "end" then
    ["class", "module", "begin", "case", "def", "if", "unless", "while", "until", "for",
      "do"].contains o.text
  else bracketsMatch o c

-- ================================================================== grammar

inductive Part where
  | units
  | unit
  | operand

/-- The rule of a part. -/
def part (p : Part) : Rule Part := call p

def isConstant (t : Token) : Bool :=
  t.cls = .word && !keywords.contains t.text && (t.text.toList.head?.any Char.isUpper)

def isIdentifier (t : Token) : Bool :=
  t.cls = .word && !keywords.contains t.text && !isConstant t

def identifier : Rule Part := leaf (some "identifier") isIdentifier

def constant : Rule Part := leaf (some "constant") isConstant

def keywordGroup (keyword : String) (inner : Rule Part) : Rule Part :=
  group (·.isOpening keyword) inner

/-- The name of a class or module. -/
def scopeName : Rule Part :=
  field "name"
    ((ahead (sepBy constant (symbol "::") ++ absent (symbol "::")) ++
        ((constant ++ absent (symbol "::")) <|>
          node "scope_resolution" (sepBy constant (symbol "::")))) <|>
      node "scope_resolution" (oneOrMore (symbol "::" ++ constant)))

/-- The name of a method. -/
def methodName : Rule Part := field "name" (leaf (some "identifier") (·.cls = .word))

/-- Parameters and body. -/
def methodRest : Rule Part := opt (bracket "(" (part .units)) ++ part .units

def singletonHead : Rule Part :=
  field "object" (firstOf [word "self", constant, identifier, sealed "("]) ++ symbol "."

def methodGroup : Rule Part :=
  firstOf
    [node "singleton_method" (keywordGroup "def" (singletonHead ++ methodName ++ methodRest)),
      node "method" (keywordGroup "def" (methodName ++ methodRest)),
      node "singleton_method"
        (word "def" ++ singletonHead ++ methodName ++ opt (bracket "(" (part .units)) ++
          symbol "=" ++ part .operand),
      node "method"
        (word "def" ++ methodName ++ opt (bracket "(" (part .units)) ++ symbol "=" ++
          part .operand)]

def classGroup : Rule Part :=
  firstOf
    [node "singleton_class" (keywordGroup "class" (symbol "<<" ++ part .units)),
      node "class" (keywordGroup "class" (scopeName ++ part .units)),
      node "module" (keywordGroup "module" (scopeName ++ part .units))]

def sameRow : Rule Part := absent (next (·.fresh))

/-- Words that never start an argument. -/
def notArguments : List String :=
  ["and", "or", "if", "unless", "while", "until", "then", "do", "rescue", "ensure", "else",
    "elsif", "when", "in", "end"]

/-- What shows that a name before it is a call: an argument after a blank, or a
block. -/
def argumentStart : Rule Part :=
  next (fun t => !t.fresh) ++
    firstOf
      [next fun t => t.isOpening "do" || t.isOpening "\x7b",
        next fun t => !t.glued &&
          ((t.cls = .word && !notArguments.contains t.text) || t.cls = .number ||
            t.cls = .text || (t.cls = .opening && !notArguments.contains t.text) ||
            t.isOneOf .symbol ["->", "!", "::"]),
        next (fun t => !t.glued) ++ symbols ["*", "&", "-", "**", "::"] ++ next (·.glued)]

def parens : Rule Part := next (·.glued) ++ bracket "(" (part .units)

def primary : Rule Part :=
  firstOf
    [methodGroup, classGroup,
      node "call" (field "method" (identifier <|> constant) ++ parens),
      node "call" (field "method" identifier ++ ahead argumentStart),
      identifier, constant,
      node "super" (word "super" ++ opt parens),
      words ["self", "nil", "true", "false"],
      leaf (some "literal") fun t => t.cls = .text || t.cls = .number,
      node "group" (group (fun _ => true) (part .units))]

def links : Rule Part :=
  link "call" "receiver"
    (symbols [".", "&."] ++
      (field "method"
          ((leaf (some "constant") isConstant) <|> leaf (some "identifier") (·.cls = .word)) <|>
        ahead (sealed "(")) ++
      opt parens) <|>
  link "call" "receiver" (symbol "::" ++ field "method" identifier ++ opt parens) <|>
  link "call" "receiver" (symbol "::" ++ field "method" constant ++ parens) <|>
  link "scope_resolution" "scope" (symbol "::" ++ field "name" constant) <|>
  link "element_reference" "object" (next (·.glued) ++ bracket "[" (part .units))

def rules : Part → Rule Part
  | .units => many (part .unit)
  | .unit =>
    firstOf
      [word "alias" ++ anything ++ anything, word "undef" ++ anything, part .operand, token]
  | .operand => chain primary links

def grammar : Grammar := ⟨Part, rules, many (part .unit), "program"⟩

def parse (text : String) : Tree :=
  let tokens := (tokenize lexis text).filter (·.cls ≠ .comment)
  grammar.parse (groupTokens blocksMatch (markBlocks none none tokens))

-- ==================================================================== tags

def patterns : List Pattern :=
  [.definition "method" [⟨none, some "name", []⟩, .ofKind "method"],
    .definition "method" [⟨none, some "name", []⟩, .ofKind "singleton_method"],
    .definition "class" [.filling "name" "constant", .ofKind "class"],
    .definition "module" [.filling "name" "constant", .ofKind "module"],
    .reference "call" [.filling "method" "identifier", .ofKind "call"]]

end CodeMap.Grammar.Ruby
