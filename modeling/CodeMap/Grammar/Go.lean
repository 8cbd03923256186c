/-
Go: functions, methods, type declarations, calls and composite literals.

A row end after an operand ends the statement, so calls and literals continue an
operand only on its own row. Between a control keyword and its block a brace
opens the block and never a literal.
-/
import CodeMap.Syntax.Rule
import CodeMap.Syntax.Lexer
import CodeMap.Syntax.Pattern

namespace CodeMap.Grammar.Go

open Syntax Rule

-- ============================================================ lexical rules

def text? (_ : Context) (cs : List Char) : Option TextForm :=
  match cs with
  | '"' :: _ => some (plainText '"' false)
  | '\'' :: _ => some (plainText '\'' false)
  | '\x60' :: _ => some ⟨1, ['\x60'], false, none, false, true⟩
  | _ => none

def lexis : Lexis where
  comment? _ := braceComment? false
  special? _ _ := none
  text? := text?
  startsWord := isNameStart
  continuesWord := isNameRest
  symbols :=
    ["<<=", ">>=", "&^=", "...", ":=", "<-", "&&", "||", "==", "!=", "<=", ">=", "++", "--", "+=",
      "-=", "*=", "/=", "%=", "&=", "|=", "^=", "<<", ">>", "&^"].map String.toList
  markup _ _ := false

-- ================================================================== grammar

def keywords : List String :=
  ["break", "case", "chan", "const", "continue", "default", "defer", "else", "fallthrough", "for",
    "func", "go", "goto", "if", "import", "interface", "map", "package", "range", "return",
    "select", "struct", "switch", "type", "var"]

inductive Part where
  | statement
  | units
  | expr
  | operand
  | headExpr
  | headOperand
  | type
  | typeSpec
  | literalValue

/-- The rule of a part. -/
def part (p : Part) : Rule Part := call p

def isName (t : Token) : Bool := t.cls = .word && !keywords.contains t.text

def identifier : Rule Part := leaf (some "identifier") isName

def typeName : Rule Part := leaf (some "type_identifier") isName

def sameRow : Rule Part := absent (next (·.fresh))

def isBrace (t : Token) : Bool := t.isOpening "\x7b"

def body : Rule Part := field "body" (node "block" (bracket "\x7b" (many (part .statement))))

/-- The result of a function: a list or a single type. -/
def result : Rule Part := opt (sameRow ++ (sealed "(" <|> part .type))

def functionDeclaration : Rule Part :=
  node "function_declaration"
    (word "func" ++ field "name" identifier ++ opt (sealed "[") ++ sealed "(" ++ result ++
      opt (sameRow ++ body))

def methodDeclaration : Rule Part :=
  node "method_declaration"
    (word "func" ++ sealed "(" ++ field "name" (leaf (some "field_identifier") isName) ++
      sealed "(" ++ result ++ opt (sameRow ++ body))

def functionLiteral : Rule Part :=
  node "func_literal" (word "func" ++ sealed "(" ++ result ++ sameRow ++ body)

def typeDeclaration : Rule Part :=
  node "type_declaration"
    (word "type" ++
      (bracket "(" (many (part .typeSpec <|> symbol ";")) <|> part .typeSpec))

/-- A type that is not just a name, as the start of an operand. -/
def typeOperand : Rule Part :=
  firstOf
    [node "slice_type" (bracket "[" (part .units) ++ part .type),
      node "map_type" (word "map" ++ sealed "[" ++ part .type),
      node "channel_type" (word "chan" ++ part .type),
      node "struct_type" (word "struct" ++ sealed "\x7b"),
      node "interface_type" (word "interface" ++ sealed "\x7b"),
      node "function_type" (word "func" ++ sealed "(" ++ result)]

def primary : Rule Part :=
  firstOf
    [functionLiteral, typeOperand, identifier,
      leaf (some "literal") fun t => t.cls = .text || t.cls = .number,
      node "parenthesized_expression" (bracket "(" (part .units))]

def arguments : Rule Part :=
  field "arguments" (node "argument_list" (bracket "(" (part .units)))

/-- Type arguments between a function and its arguments. -/
def typeArguments : Rule Part :=
  node "type_arguments" (bracket "[" (sepBy (part .type) (symbol ",") ++ opt (symbol ",")))

def links : Rule Part :=
  link "call_expression" "function" (sameRow ++ opt typeArguments ++ sameRow ++ arguments) <|>
  link "type_assertion_expression" "operand" (symbol "." ++ sealed "(") <|>
  link "selector_expression" "operand"
    (symbol "." ++ field "field" (leaf (some "field_identifier") (·.cls = .word))) <|>
  link "index_expression" "operand" (sameRow ++ bracket "[" (part .units))

/-- A literal of a named type. -/
def namedLiteral : Rule Part :=
  node "composite_literal" (field "type" typeName ++ sameRow ++ part .literalValue)

/-- A literal of a type that is not just a name. -/
def literalLink : Rule Part :=
  link "composite_literal" "type" (sameRow ++ part .literalValue)

def operators : List String :=
  ["&&", "||", "==", "!=", "<=", ">=", "<", ">", "+", "-", "*", "/", "%", "&", "|", "^", "<<",
    ">>", "&^"]

def prefixOperator : Rule Part := symbols ["+", "-", "!", "^", "*", "&", "<-"]

/-- An expression over a kind of operand. -/
def expressionOver (base : Part) : Rule Part :=
  chain
    (node "unary_expression" (oneOrMore prefixOperator ++ call base) <|> call base)
    (link "binary_expression" "left"
      (sameRow ++ symbols operators ++ many prefixOperator ++ call base))

/-- A control keyword, its head and its block. -/
def control : Rule Part :=
  words ["if", "for", "switch", "select"] ++
    many (absent (next isBrace) ++ (part .headExpr <|> token)) ++ bracket "\x7b" (part .units)

def rules : Part → Rule Part
  | .statement =>
    firstOf
      [functionDeclaration, methodDeclaration, typeDeclaration,
        word "import" ++ (sealed "(" <|> (opt (identifier <|> symbol ".") ++ token)),
        control,
        node "block" (bracket "\x7b" (part .units)),
        part .expr, anything]
  | .units => many (part .statement)
  | .expr => expressionOver .operand
  | .operand => chain (namedLiteral <|> primary) (links <|> literalLink)
  | .headExpr => expressionOver .headOperand
  | .headOperand => chain primary links
  | .type =>
    firstOf
      [node "pointer_type" (symbol "*" ++ part .type),
        node "slice_type" (sealed "[" ++ part .type),
        node "map_type" (word "map" ++ sealed "[" ++ part .type),
        node "channel_type"
          (opt (symbol "<-") ++ word "chan" ++ opt (symbol "<-") ++ part .type),
        node "function_type" (word "func" ++ sealed "(" ++ result),
        node "interface_type" (word "interface" ++ sealed "\x7b"),
        node "struct_type" (word "struct" ++ sealed "\x7b"),
        node "parenthesized_type" (sealed "("),
        chain typeName
          (link "qualified_type" "package" (symbol "." ++ field "name" typeName) <|>
            link "generic_type" "type" (sameRow ++ typeArguments))]
  | .typeSpec =>
    node "type_alias" (field "name" typeName ++ opt (sealed "[") ++ symbol "=" ++ part .type) <|>
      node "type_spec"
        (field "name" typeName ++ firstOf [part .type, sealed "[" ++ part .type])
  | .literalValue =>
    field "body" (node "literal_value" (bracket "\x7b"
      (many (firstOf [part .literalValue, part .expr, anything]))))

def grammar : Grammar := ⟨Part, rules, many (part .statement), "source_file"⟩

def parse (text : String) : Tree :=
  let tokens := (tokenize lexis text).filter (·.cls ≠ .comment)
  grammar.parse (groupTokens bracketsMatch tokens)

-- ==================================================================== tags

def patterns : List Pattern :=
  [.definition "function" [.filling "name" "identifier", .ofKind "function_declaration"],
    .definition "method" [.filling "name" "field_identifier", .ofKind "method_declaration"],
    .definition "class"
      [.filling "name" "type_identifier", .ofKind "type_spec", .ofKind "type_declaration"],
    .reference "call" [.filling "function" "identifier", .ofKind "call_expression"],
    .reference "call"
      [.ofKind "identifier", .filling "function" "parenthesized_expression",
        .ofKind "call_expression"],
    .reference "call"
      [.filling "field" "field_identifier", .filling "function" "selector_expression",
        .ofKind "call_expression"],
    .reference "class" [.filling "type" "type_identifier", .ofKind "composite_literal"]]

end CodeMap.Grammar.Go
