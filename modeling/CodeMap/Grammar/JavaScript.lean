/-
JavaScript and its two typed dialects, with and without markup. The dialects
share one grammar; a `Dialect` says whether types and markup are read.

Expressions are chains. Every expression is read as a single node, so that a
declarator's value is a function exactly when the whole value is one.
-/
import CodeMap.Syntax.Rule
import CodeMap.Syntax.Lexer
import CodeMap.Syntax.Pattern

namespace CodeMap.Grammar.JavaScript

open Syntax Rule

/-- What a dialect adds. -/
structure Dialect where
  types : Bool
  markup : Bool

-- ============================================================ lexical rules

/-- Words after which an expression starts. -/
def expressionWords : List String :=
  ["return", "typeof", "case", "in", "of", "delete", "void", "throw", "new", "else", "do",
    "yield", "await", "instanceof", "default"]

/-- Whether an expression may start here, so that a slash opens a pattern and a
less-than sign opens markup. -/
def expectsExpression (x : Context) : Bool :=
  match x.previous with
  | none => true
  | some t =>
    match t.cls with
    | .symbol => t.text != "++" && t.text != "--"
    | .opening => true
    | .closing => t.text == "\x7d" && x.fresh
    | .word => expressionWords.contains t.text
    | _ => false

/-- Length of a regular expression after its opening slash, its flags included. -/
def patternRun (inClass : Bool) : List Char → Option Nat
  | [] => none
  | '\n' :: _ => none
  | '\\' :: _ :: cs => (patternRun inClass cs).map (· + 2)
  | c :: cs =>
    if c = '/' && !inClass then some (1 + (cs.takeWhile Char.isAlpha).length)
    else if c = '[' then (patternRun true cs).map (· + 1)
    else if c = ']' then (patternRun false cs).map (· + 1)
    else (patternRun inClass cs).map (· + 1)

def isStart (c : Char) : Bool := isNameStart c || c = '$'

def isRest (c : Char) : Bool := isStart c || c.isDigit

def special? (x : Context) (cs : List Char) : Option (TokenClass × Nat) :=
  match cs with
  | '#' :: c :: rest =>
    if isStart c then some (.word, 2 + (rest.takeWhile isRest).length) else none
  | '/' :: rest =>
    if expectsExpression x then (patternRun false rest).map fun n => (.text, n + 1) else none
  | _ => none

def text? (_ : Context) (cs : List Char) : Option TextForm :=
  match cs with
  | '"' :: _ => some (plainText '"' false)
  | '\'' :: _ => some (plainText '\'' false)
  | '\x60' :: _ => some ⟨1, ['\x60'], true, some ['$', '\x7b'], false, true⟩
  | _ => none

/-- A less-than sign before a name that is followed by a comma or a bound opens
type parameters, not markup. -/
def opensMarkup (d : Dialect) (x : Context) (cs : List Char) : Bool :=
  d.markup && expectsExpression x &&
  match cs with
  | '<' :: '>' :: _ => true
  | '<' :: c :: rest =>
    let after := (rest.dropWhile isTagChar).dropWhile Text.isBlank
    isStart c && !(d.types && (startsWith after [','] || startsWith after "extends".toList))
  | _ => false

def comment? (x : Context) (cs : List Char) : Option Nat :=
  if x.previous.isNone && startsWith cs ['#', '!'] then lineComment? ['#', '!'] cs
  else braceComment? false cs

def lexis (d : Dialect) : Lexis where
  comment? := comment?
  special? := special?
  text? := text?
  startsWord := isStart
  continuesWord := isRest
  symbols :=
    ["&&=", "||=", "??=", "**=", "===", "!==", "...", "=>", "?.", "==", "!=", "<=", "&&", "||",
      "??", "++", "--", "+=", "-=", "*=", "/=", "%=", "|=", "&=", "^=", "**"].map String.toList
  markup := opensMarkup d

-- ================================================================== grammar

def reserved : List String :=
  ["break", "case", "catch", "class", "const", "continue", "debugger", "default", "delete", "do",
    "else", "export", "extends", "finally", "for", "function", "if", "import", "in",
    "instanceof", "new", "return", "super", "switch", "this", "throw", "try", "typeof", "var",
    "void", "while", "with", "null", "true", "false", "enum"]

inductive Part where
  | statement
  | expr
  | unary
  | operand
  | primary
  | units
  | params
  | args
  | braces
  | method
  | classMember
  | type
  | typeMembers
  | ascription
  | typeParams
  | typeArgs
  | template
  | markup

/-- The rule of a part. -/
def part (p : Part) : Rule Part := call p

def isName (t : Token) : Bool :=
  t.cls = .word && !reserved.contains t.text && !t.text.startsWith "#"

def identifier : Rule Part := leaf (some "identifier") isName

/-- The name of a class: a type where there are types. -/
def className (d : Dialect) : Rule Part :=
  leaf (some (if d.types then "type_identifier" else "identifier"))
    fun t => isName t && !(d.types && t.text == "implements")

def typeName : Rule Part := leaf (some "type_identifier") isName

def propertyName : Rule Part :=
  firstOf
    [leaf (some "property_identifier") fun t => t.cls = .word && !t.text.startsWith "#",
      leaf (some "private_property_identifier") fun t => t.cls = .word,
      leaf (some "string") fun t => t.cls = .text,
      leaf (some "number") fun t => t.cls = .number,
      node "computed_property_name" (bracket "[" (part .units))]

/-- A rule of the typed dialects. -/
def typed (d : Dialect) (r : Rule Part) : Rule Part := if d.types then r else never

def ascription? (d : Dialect) : Rule Part := opt (typed d (part .ascription))

def typeParams? (d : Dialect) : Rule Part := opt (typed d (part .typeParams))

def typeArgs? (d : Dialect) : Rule Part := opt (typed d (part .typeArgs))

/-- The next item is on the same row as the last. -/
def sameRow : Rule Part := absent (next (·.fresh))

def parameters : Rule Part :=
  field "parameters" (node "formal_parameters" (bracket "(" (part .params)))

def body : Rule Part :=
  field "body" (node "statement_block" (bracket "\x7b" (many (part .statement))))

def decorator : Rule Part := node "decorator" (symbol "@" ++ part .operand)

-- ---------------------------------------------------------------- functions

/-- What follows a function's name. -/
def signature (d : Dialect) : Rule Part := typeParams? d ++ parameters ++ ascription? d

def async? : Rule Part := opt (word "async")

def functionDeclaration (d : Dialect) : Rule Part :=
  node "function_declaration"
    (async? ++ word "function" ++ field "name" identifier ++ signature d ++ body)

def generatorDeclaration (d : Dialect) : Rule Part :=
  node "generator_function_declaration"
    (async? ++ word "function" ++ symbol "*" ++ field "name" identifier ++ signature d ++ body)

/-- An overload: a head without a body. -/
def functionSignature (d : Dialect) : Rule Part :=
  typed d (node "function_signature"
    (async? ++ word "function" ++ opt (symbol "*") ++ field "name" identifier ++ signature d))

def functionExpression (d : Dialect) : Rule Part :=
  node "function_expression"
    (async? ++ word "function" ++ opt (field "name" identifier) ++ signature d ++ body)

def generatorExpression (d : Dialect) : Rule Part :=
  node "generator_function"
    (async? ++ word "function" ++ symbol "*" ++ opt (field "name" identifier) ++ signature d ++
      body)

def arrowFunction (d : Dialect) : Rule Part :=
  let plain := identifier ++ symbol "=>"
  let full := typeParams? d ++ sealed "(" ++ ascription? d ++ symbol "=>"
  let head :=
    (field "parameter" identifier ++ ahead (symbol "=>")) <|>
      (typeParams? d ++ parameters ++ ascription? d)
  let asyncHead := word "async" ++ sameRow
  ahead ((asyncHead ++ (plain <|> full)) <|> plain <|> full) ++
    node "arrow_function"
      (((asyncHead ++ head) <|> head) ++ symbol "=>" ++ (body <|> field "body" (part .expr)))

-- ------------------------------------------------------------------ classes

def classTail (d : Dialect) : Rule Part :=
  typeParams? d ++
  opt (node "class_heritage"
    ((word "extends" ++ part .operand ++ typeArgs? d ++
        opt (typed d (word "implements" ++ sepBy (part .type) (symbol ",")))) <|>
      typed d (word "implements" ++ sepBy (part .type) (symbol ",")))) ++
  field "body" (node "class_body" (bracket "\x7b" (many (part .classMember))))

def classDeclaration (d : Dialect) : Rule Part :=
  node "class_declaration"
    (many decorator ++ word "class" ++ field "name" (className d) ++ classTail d)

def abstractClass (d : Dialect) : Rule Part :=
  typed d (node "abstract_class_declaration"
    (many decorator ++ word "abstract" ++ word "class" ++ field "name" (className d) ++
      classTail d))

def classExpression (d : Dialect) : Rule Part :=
  node "class"
    (many decorator ++ word "class" ++ opt (field "name" (className d)) ++ classTail d)

/-- Words that may stand before the name of a member. -/
def memberModifiers : List String :=
  ["static", "async", "get", "set", "public", "private", "protected", "readonly", "override",
    "abstract", "accessor", "declare"]

/-- A modifier, told from a member of that name by what follows it. -/
def modifier : Rule Part :=
  words memberModifiers ++ next fun t =>
    t.cls = .word || t.cls = .text || t.cls = .number || t.isOpening "[" || t.isSymbol "*"

def method (d : Dialect) : Rule Part :=
  let inside :=
    many modifier ++ opt (symbol "*") ++ field "name" propertyName ++
      opt (typed d (symbol "?")) ++ signature d ++ body
  if d.types then many decorator ++ node "method_definition" inside
  else node "method_definition" (many decorator ++ inside)

def methodSignature (d : Dialect) : Rule Part :=
  typed d (node "method_signature"
    (many modifier ++ opt (symbol "*") ++ field "name" propertyName ++ opt (symbol "?") ++
      signature d))

def fieldDefinition (d : Dialect) : Rule Part :=
  node "field_definition"
    (many decorator ++ many modifier ++ field "name" propertyName ++
      opt (typed d (symbols ["?", "!"])) ++ ascription? d ++
      opt (symbol "=" ++ field "value" (part .expr)))

-- -------------------------------------------------------------- expressions

/-- Operators between two operands. -/
def binaryOperators : List String :=
  ["&&=", "||=", "??=", "**=", "===", "!==", "==", "!=", "<=", "&&", "||", "??", "+=", "-=",
    "*=", "/=", "%=", "|=", "&=", "^=", "**", "+", "-", "*", "/", "%", "<", ">", "=", "&", "|",
    "^"]

def prefixOperator : Rule Part :=
  symbols ["!", "~", "+", "-", "++", "--", "..."] <|>
    (words ["typeof", "void", "delete", "await", "yield"] ++ opt (symbol "*"))

/-- Operators and what they join an expression to. -/
def expressionLinks (d : Dialect) : Rule Part :=
  link "binary_expression" "left"
    (oneOrMore (symbols binaryOperators <|> words ["in", "instanceof"]) ++ part .unary) <|>
  link "ternary_expression" "condition"
    (symbol "?" ++ part .expr ++ symbol ":" ++ part .expr) <|>
  link "as_expression" "expression" (typed d (words ["as", "satisfies"] ++ part .type)) <|>
  link "update_expression" "argument" (sameRow ++ symbols ["++", "--"])

def unary (d : Dialect) : Rule Part :=
  firstOf
    [node "unary_expression" (oneOrMore prefixOperator ++ part .operand),
      typed d (arrowFunction d <|> node "type_assertion" (part .typeArgs ++ part .unary)),
      part .operand,
      word "yield"]

def arguments : Rule Part :=
  field "arguments" (node "arguments" (bracket "(" (part .args)))

def operandLinks (d : Dialect) : Rule Part :=
  link "member_expression" "object" (symbols [".", "?."] ++ field "property" propertyName) <|>
  link "call_expression" "function" (opt (symbol "?.") ++ typeArgs? d ++ arguments) <|>
  link "call_expression" "function" (part .template) <|>
  link "subscript_expression" "object" (opt (symbol "?.") ++ bracket "[" (part .units)) <|>
  link "non_null_expression" "expression" (typed d (sameRow ++ symbol "!"))

/-- What `new` is applied to: no calls. -/
def constructorLinks : Rule Part :=
  link "member_expression" "object" (symbol "." ++ field "property" propertyName) <|>
  link "subscript_expression" "object" (bracket "[" (part .units))

def newExpression (d : Dialect) : Rule Part :=
  node "new_expression"
    (word "new" ++ ((symbol "." ++ propertyName) <|>
      (field "constructor" (chain (part .primary) constructorLinks) ++ typeArgs? d ++
        opt arguments)))

def primary (d : Dialect) : Rule Part :=
  firstOf
    [arrowFunction d, functionExpression d, generatorExpression d, classExpression d,
      newExpression d, identifier,
      words ["this", "super", "null", "true", "false", "import"],
      leaf (some "literal") fun t => t.cls = .text || t.cls = .number,
      leaf (some "private_property_identifier") fun t => t.cls = .word && t.text.startsWith "#",
      part .template,
      node "parenthesized_expression" (bracket "(" (part .units)),
      node "array" (bracket "[" (part .units)),
      node "object" (part .braces),
      part .markup]

-- --------------------------------------------------------------- statements

def declarator (d : Dialect) : Rule Part :=
  node "variable_declarator"
    (field "name" (firstOf [identifier, node "object_pattern" (part .braces),
        node "array_pattern" (bracket "[" (part .units))]) ++
      opt (typed d (symbol "!")) ++ ascription? d ++
      opt (symbol "=" ++ field "value" (part .expr)))

def declaration (d : Dialect) (kind : String) (keywords : List String) : Rule Part :=
  node kind (words keywords ++ sepBy (declarator d) (symbol ",") ++ opt (symbol ";"))

def enumDeclaration (d : Dialect) : Rule Part :=
  typed d (node "enum_declaration"
    (opt (word "const") ++ word "enum" ++ field "name" identifier ++
      field "body" (node "enum_body" (bracket "\x7b" (part .args)))))

def interfaceDeclaration (d : Dialect) : Rule Part :=
  typed d (node "interface_declaration"
    (word "interface" ++ field "name" typeName ++ typeParams? d ++
      opt (word "extends" ++ sepBy (part .type) (symbol ",")) ++
      field "body" (node "interface_body" (bracket "\x7b" (part .typeMembers)))))

def typeAlias (d : Dialect) : Rule Part :=
  typed d (node "type_alias_declaration"
    (word "type" ++ field "name" typeName ++ typeParams? d ++ symbol "=" ++
      field "value" (part .type) ++ opt (symbol ";")))

def moduleDeclaration (d : Dialect) : Rule Part :=
  typed d (node "internal_module"
    (words ["namespace", "module"] ++
      field "name" (chain (identifier <|> leaf (some "string") (·.cls = .text)) constructorLinks) ++
      body))

def statement (d : Dialect) : Rule Part :=
  firstOf
    [symbol ";",
      word "export" ++ opt (word "default"),
      typed d (word "declare" ++ next (·.cls = .word)),
      word "import" ++ identifier ++ symbol "=" ++ word "require" ++ sealed "(",
      enumDeclaration d, interfaceDeclaration d, typeAlias d, moduleDeclaration d,
      abstractClass d, classDeclaration d,
      functionDeclaration d, generatorDeclaration d, functionSignature d,
      declaration d "lexical_declaration" ["const", "let"],
      declaration d "variable_declaration" ["var"],
      words ["if", "for", "while", "with", "switch", "catch"] ++ opt (word "await") ++
        bracket "(" (many (part .statement)),
      words ["return", "throw"] ++ opt (sameRow ++ part .expr),
      word "case" ++ part .expr,
      words ["else", "do", "try", "finally", "default", "break", "continue", "debugger"],
      identifier ++ symbol ":",
      node "statement_block" (bracket "\x7b" (many (part .statement))),
      part .expr,
      anything]

-- -------------------------------------------------------------------- types

def functionType (d : Dialect) : Rule Part :=
  ahead (typeParams? d ++ sealed "(" ++ symbol "=>") ++
    node "function_type" (typeParams? d ++ parameters ++ symbol "=>" ++ part .type)

def typeHead (d : Dialect) : Rule Part :=
  firstOf
    [node "union_type" (symbols ["|", "&"] ++ part .type),
      node "constructor_type" (opt (word "abstract") ++ word "new" ++ functionType d),
      functionType d,
      node "parenthesized_type" (bracket "(" (many (part .type <|> token))),
      node "object_type" (bracket "\x7b" (part .typeMembers)),
      node "tuple_type" (bracket "[" (many (part .type <|> token))),
      node "type_operator"
        (words ["keyof", "unique", "readonly", "infer", "typeof", "asserts"] ++
          next (fun t => t.cls = .word || t.cls = .opening) ++ part .type),
      node "import_type" (word "import" ++ sealed "("),
      leaf (some "predefined_type") (·.isOneOf .word
        ["any", "number", "boolean", "string", "symbol", "void", "unknown", "never", "object"]),
      leaf (some "this_type") (·.isWord "this"),
      leaf (some "literal_type") (·.isOneOf .word ["true", "false", "null", "undefined"]),
      leaf (some "literal_type") fun t => t.cls = .text || t.cls = .number,
      node "literal_type" (symbol "-" ++ leaf none (·.cls = .number)),
      part .template,
      leaf (some "type_identifier") fun t => isName t || t.isWord "const"]

def typeLinks : Rule Part :=
  link "generic_type" "name" (part .typeArgs) <|>
  link "nested_type_identifier" "module" (symbol "." ++ field "name" typeName) <|>
  link "array_type" "element" (sameRow ++ bracket "[" (many (part .type <|> token))) <|>
  link "union_type" "left" (symbols ["|", "&"] ++ part .type) <|>
  link "conditional_type" "left"
    (word "extends" ++ part .type ++ symbol "?" ++ part .type ++ symbol ":" ++ part .type) <|>
  link "type_predicate" "name" (sameRow ++ word "is" ++ part .type)

def ascription : Rule Part :=
  node "type_annotation" (symbol ":" ++ part .type)

def typeMember (d : Dialect) : Rule Part :=
  firstOf
    [symbols [";", ","],
      node "method_signature"
        (many modifier ++ opt (word "new") ++ opt (field "name" propertyName) ++
          opt (symbol "?") ++ signature d),
      node "index_signature"
        (many (words ["readonly"] <|> symbols ["-", "+"]) ++
          bracket "[" (many (absent (symbol ":") ++ token) ++ opt (symbol ":") ++
            many (part .type <|> token)) ++
          many (symbols ["-", "+", "?"]) ++ part .ascription),
      node "property_signature"
        (many modifier ++ field "name" propertyName ++ opt (symbol "?") ++
          opt (part .ascription)),
      anything]

-- --------------------------------------------------------------- everything

def rules (d : Dialect) : Part → Rule Part
  | .statement => statement d
  | .expr => chain (part .unary) (expressionLinks d)
  | .unary => unary d
  | .operand => chain (part .primary) (operandLinks d)
  | .primary => primary d
  | .units => many (firstOf [symbols [",", ";"], part .expr, part .statement])
  | .params =>
    many (firstOf
      [symbols [",", "..."], decorator, symbol "=" ++ part .expr, typed d (part .ascription),
        node "object_pattern" (part .braces), node "array_pattern" (bracket "[" (part .units)),
        identifier, anything])
  | .args => many (firstOf [symbol ",", part .expr, anything])
  | .braces =>
    bracket "\x7b" (many (firstOf
      [symbol ",", part .method, propertyName ++ symbol ":" ++ part .expr, part .expr, anything]))
  | .method => method d
  | .classMember =>
    firstOf
      [symbols [";", ","], part .method, methodSignature d,
        word "static" ++ body,
        typed d (bracket "[" (many token) ++ part .ascription),
        fieldDefinition d, anything]
  | .type => chain (typeHead d) typeLinks
  | .typeMembers => many (typeMember d)
  | .ascription => ascription
  | .typeParams =>
    node "type_parameters"
      (symbol "<" ++ many (absent (symbol ">") ++ (part .type <|> token)) ++ symbol ">")
  | .typeArgs =>
    node "type_arguments"
      (symbol "<" ++ opt (sepBy (part .type) (symbol ",")) ++ opt (symbol ",") ++ symbol ">")
  | .template =>
    node "template_string"
      (bracket "\x60" (many (bracket "$\x7b" (part .units) <|> token)))
  | .markup =>
    node "jsx_element"
      (bracket "<" (many (firstOf [bracket "\x7b" (part .units), part .markup, token])))

def grammar (d : Dialect) : Grammar := ⟨Part, rules d, many (part .statement), "program"⟩

def parse (d : Dialect) (text : String) : Tree :=
  let tokens := (tokenize (lexis d) text).filter (·.cls ≠ .comment)
  (grammar d).parse (groupTokens bracketsMatch tokens)

-- ==================================================================== tags

/-- Functions held by the constants and variables of a block. -/
def functionValue : Pattern :=
  .definition "function"
    [.filling "name" "identifier",
      (Step.ofKind "variable_declarator").needing "value" ["arrow_function", "function_expression"],
      .ofKind "lexical_declaration"]

def methodDefinition : Pattern :=
  .definition "method" [.filling "name" "property_identifier", .ofKind "method_definition"]

def calls : List Pattern :=
  [.reference "call" [.filling "function" "identifier", .ofKind "call_expression"],
    .reference "call"
      [.filling "property" "property_identifier", .filling "function" "member_expression",
        .ofKind "call_expression"],
    .reference "class" [.filling "constructor" "identifier", .ofKind "new_expression"]]

def patterns : List Pattern :=
  [methodDefinition,
    .definition "class" [⟨none, some "name", []⟩, .ofKind "class_declaration"],
    .definition "function" [.filling "name" "identifier", .ofKind "function_declaration"],
    .definition "function"
      [.filling "name" "identifier", .ofKind "generator_function_declaration"],
    functionValue] ++ calls

/-- The patterns of the typed dialects. -/
def typedPatterns : List Pattern :=
  [methodDefinition,
    .definition "class" [.filling "name" "type_identifier", .ofKind "class_declaration"],
    .definition "class" [.filling "name" "type_identifier", .ofKind "abstract_class_declaration"],
    .definition "interface" [.filling "name" "type_identifier", .ofKind "interface_declaration"],
    .definition "enum" [.filling "name" "identifier", .ofKind "enum_declaration"],
    .definition "type" [.filling "name" "type_identifier", .ofKind "type_alias_declaration"],
    .definition "function" [.filling "name" "identifier", .ofKind "function_declaration"],
    functionValue] ++ calls ++
  [.reference "type" [.ofKind "type_identifier", .ofKind "type_annotation"]]

end CodeMap.Grammar.JavaScript
