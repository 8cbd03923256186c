/-
Python: lexical rules, layout and the part of the grammar that definitions and
calls depend on.

Layout comes first. A row that is indented deeper than the line before it
belongs to that line's block, and every line becomes a group of its own. A
comment line belongs to the innermost block that its indentation, or that of
the next line, reaches; so a trailing comment at the indentation of a block is
the last thing in the block, and the block ends there.

Expressions are read flatly: of their structure only the chains of calls,
attributes and subscripts matter.
-/
import CodeMap.Syntax.Rule
import CodeMap.Syntax.Lexer
import CodeMap.Syntax.Pattern

namespace CodeMap.Grammar.Python

open Syntax Rule

-- ============================================================ lexical rules

/-- The letters before a quoted text that say how to read it. -/
def isTextMark (c : Char) : Bool :=
  ['r', 'R', 'b', 'B', 'u', 'U', 'f', 'F', 't', 'T'].contains c

def text? (_ : Context) (cs : List Char) : Option TextForm :=
  let marks := (cs.takeWhile isTextMark).take 3
  let body := cs.drop marks.length
  let formatted := marks.any fun c => ['f', 'F', 't', 'T'].contains c
  let hole := if formatted then some ['\x7b'] else none
  let form (quotes : List Char) : TextForm :=
    ⟨marks.length + quotes.length, quotes, true, hole, formatted, quotes.length = 3⟩
  match body with
  | '"' :: '"' :: '"' :: _ => some (form ['"', '"', '"'])
  | '\'' :: '\'' :: '\'' :: _ => some (form ['\'', '\'', '\''])
  | '"' :: _ => some (form ['"'])
  | '\'' :: _ => some (form ['\''])
  | _ => none

def lexis : Lexis where
  comment? _ := lineComment? ['#']
  special? _ _ := none
  text? := text?
  startsWord := isNameStart
  continuesWord := isNameRest
  symbols := [['-', '>'], [':', '='], ['=', '=']]
  markup _ _ := false

/-- Drops the comments between brackets; `depth` counts the open ones. -/
def dropInnerComments : Nat → List Token → List Token
  | _, [] => []
  | depth, t :: ts =>
    match t.cls with
    | .opening => t :: dropInnerComments (depth + 1) ts
    | .closing => t :: dropInnerComments (depth - 1) ts
    | .comment => if depth = 0 then t :: dropInnerComments depth ts else dropInnerComments depth ts
    | _ => t :: dropInnerComments depth ts

-- ================================================================== layout

/-- A logical line. -/
structure Line where
  indent : Nat
  items : List Item
  /-- Whether the line is a comment and nothing else. -/
  isComment : Bool

/-- Splits items into logical lines at every item that starts a row. -/
def linesOf : List Item → List Line
  | [] => []
  | i :: rest =>
    let first := i.firstToken?
    let comment := first.any (·.cls = .comment)
    let indent := (first.map (·.indent)).getD 0
    match linesOf rest with
    | [] => [⟨indent, [i], comment⟩]
    | line :: lines =>
      let next := (line.items.head?.bind Item.firstToken?)
      if next.any (·.fresh) then ⟨indent, [i], comment⟩ :: line :: lines
      else ⟨indent, i :: line.items, comment⟩ :: lines

/-- Lifts the indentation of comment lines to that of the next line. -/
def settleComments : List Line → List Line
  | [] => []
  | line :: rest =>
    let settled := settleComments rest
    if line.isComment then
      let next := (settled.head?.map (·.indent)).getD 0
      { line with indent := max line.indent next } :: settled
    else line :: settled

/-- The indentation of the next line that is not a comment. -/
def nextIndent? : List Line → Option Nat
  | [] => none
  | line :: rest => if line.isComment then nextIndent? rest else some line.indent

/-- Nests lines into blocks; `indent` is that of the block being collected. -/
def nest : Nat → Nat → List Line → List Item × List Line
  | 0, _, lines => ([], lines)
  | _ + 1, _, [] => ([], [])
  | fuel + 1, indent, line :: rest =>
    if line.indent < indent then ([], line :: rest)
    else
      let inner? := if line.isComment then none else nextIndent? rest
      match inner? with
      | some inner =>
        if line.indent < inner then
          let (body, after) := nest fuel inner rest
          let whole := Item.group none (line.items ++ [.group none body none]) none
          let (others, left) := nest fuel indent after
          (whole :: others, left)
        else
          let (others, left) := nest fuel indent rest
          (.group none line.items none :: others, left)
      | none =>
        let (others, left) := nest fuel indent rest
        (.group none line.items none :: others, left)

/-- The lines of a file, nested. -/
def layout (items : List Item) : List Item :=
  let lines := settleComments (linesOf items)
  (nest (2 * lines.length + 2) 0 lines).1

-- ================================================================= grammar

def keywords : List String :=
  ["False", "None", "True", "and", "as", "assert", "async", "await", "break", "class",
    "continue", "def", "del", "elif", "else", "except", "finally", "for", "from", "global",
    "if", "import", "in", "is", "lambda", "nonlocal", "not", "or", "pass", "raise", "return",
    "try", "while", "with", "yield"]

inductive Part where
  | line
  | units
  | unit
  | pattern

/-- The rule of a part. -/
def part (p : Part) : Rule Part := call p

def identifier : Rule Part :=
  leaf (some "identifier") fun t => t.cls = .word && !keywords.contains t.text

/-- Any bracket, or a quoted text with code in it. -/
def anyGroup : Rule Part := group (fun _ => true) (part .units)

def primary : Rule Part :=
  firstOf [identifier, node "group" anyGroup, leaf none fun t => t.cls = .text || t.cls = .number]

/-- Calls, attributes and subscripts. -/
def links : Rule Part :=
  link "call" "function" (field "arguments" (node "argument_list" (bracket "(" (part .units)))) <|>
  link "attribute" "object" (symbol "." ++ field "attribute" identifier) <|>
  link "subscript" "value" (bracket "[" (part .units))

def classDefinition : Rule Part :=
  node "class_definition" (word "class" ++ field "name" identifier ++
    opt (bracket "[" (part .units)) ++
    opt (field "superclasses" (node "argument_list" (bracket "(" (part .units)))) ++
    part .units)

def functionDefinition : Rule Part :=
  node "function_definition" (opt (word "async") ++ word "def" ++ field "name" identifier ++
    opt (bracket "[" (part .units)) ++
    opt (field "parameters" (node "parameters" (bracket "(" (part .units)))) ++
    part .units)

/-- A case of a match: what looks like a call before its colon is a pattern. -/
def caseClause : Rule Part :=
  node "case_clause" (word "case" ++ oneOrMore (absent (symbol ":") ++ absent (word "if") ++
    part .pattern) ++ opt (word "if" ++ many (absent (symbol ":") ++ part .unit)) ++
    symbol ":" ++ part .units)

def rules : Part → Rule Part
  | .line => block (firstOf [classDefinition, functionDefinition, caseClause, part .units])
  | .units => many (part .unit)
  | .unit => firstOf [block (many (part .line)), chain primary links, token]
  | .pattern => group (fun _ => true) (many (part .pattern)) <|> token

def grammar : Grammar := ⟨Part, rules, many (part .line), "module"⟩

def parse (text : String) : Tree :=
  let tokens := dropInnerComments 0 (tokenize lexis text)
  grammar.parse (layout (groupTokens bracketsMatch tokens))

-- ==================================================================== tags

def patterns : List Pattern :=
  [.definition "class" [.filling "name" "identifier", .ofKind "class_definition"],
    .definition "function" [.filling "name" "identifier", .ofKind "function_definition"],
    .reference "call" [.filling "function" "identifier", .ofKind "call"],
    .reference "call"
      [.filling "attribute" "identifier", .filling "function" "attribute", .ofKind "call"]]

end CodeMap.Grammar.Python
