/-
C and C++: declarations, the declarators in them, and the specifiers of types
and namespaces. A `Dialect` says whether the second language's additions are
read.

Expressions define nothing and are passed over, but a statement is only known to
be an expression after it failed to be a declaration: a name followed by another
name, or by a star, starts a declaration, and a name followed by a parenthesis
does not.
-/
import CodeMap.Syntax.Rule
import CodeMap.Syntax.Lexer
import CodeMap.Syntax.Pattern

namespace CodeMap.Grammar.C

open Syntax Rule

/-- Whether classes, namespaces and templates are read. -/
structure Dialect where
  classes : Bool

-- ============================================================ lexical rules

/-- Length of a preprocessor line, with the rows a backslash joins to it. -/
def directiveRun : List Char → Nat
  | [] => 0
  | '\n' :: _ => 0
  | '\\' :: '\n' :: cs => directiveRun cs + 2
  | '\\' :: '\r' :: '\n' :: cs => directiveRun cs + 3
  | _ :: cs => directiveRun cs + 1

def special? (x : Context) (cs : List Char) : Option (TokenClass × Nat) :=
  match cs with
  | '#' :: _ => if x.fresh then some (.directive, directiveRun cs) else none
  | _ => none

/-- A raw text between a mark of its own and a parenthesis on each side. -/
def rawText? (opener : Nat) (cs : List Char) : Option TextForm :=
  let mark := cs.takeWhile fun c => c ≠ '(' && c ≠ '"' && c ≠ '\n'
  match cs.drop mark.length with
  | '(' :: _ => some ⟨opener + mark.length + 1, ')' :: mark ++ ['"'], false, none, false, true⟩
  | _ => none

def text? (_ : Context) (cs : List Char) : Option TextForm :=
  let marks := cs.takeWhile fun c => ['L', 'u', 'U', '8', 'R'].contains c
  match cs.drop marks.length with
  | '"' :: rest =>
    if marks.getLast? = some 'R' then rawText? (marks.length + 1) rest
    else some { plainText '"' false with opener := marks.length + 1 }
  | '\'' :: _ => some { plainText '\'' false with opener := marks.length + 1 }
  | _ => none

def lexis : Lexis where
  comment? _ := braceComment? false
  special? := special?
  text? := text?
  startsWord := isNameStart
  continuesWord := isNameRest
  symbols :=
    ["...", "->", "::", "&&", "||", "==", "!=", "<=", "++", "--", "+=", "-=", "*=", "/=", "%=",
      "&=", "|=", "^="].map String.toList
  markup _ _ := false

-- ================================================================== grammar

def keywords : List String :=
  ["auto", "break", "case", "const", "continue", "default", "do", "else", "enum", "extern", "for",
    "goto", "if", "inline", "register", "restrict", "return", "sizeof", "static", "struct",
    "switch", "typedef", "union", "volatile", "while", "true", "false", "NULL", "catch", "class",
    "constexpr", "delete", "explicit", "friend", "namespace", "new", "noexcept", "nullptr",
    "operator", "private", "protected", "public", "template", "this", "throw", "try", "typename",
    "using", "virtual", "mutable", "static_assert", "co_return", "co_await", "co_yield",
    "override", "final"]

/-- Words that only the second language reserves. -/
def classWords : List String :=
  ["catch", "class", "constexpr", "delete", "explicit", "friend", "namespace", "new", "noexcept",
    "nullptr", "operator", "private", "protected", "public", "template", "this", "throw", "try",
    "typename", "using", "virtual", "mutable", "static_assert", "co_return", "co_await",
    "co_yield", "override", "final"]

/-- Words that make up the built-in types, alone or together. -/
def primitives : List String :=
  ["void", "char", "short", "int", "long", "float", "double", "signed", "unsigned", "bool",
    "_Bool", "size_t", "wchar_t", "char8_t", "char16_t", "char32_t", "int8_t", "int16_t",
    "int32_t", "int64_t", "uint8_t", "uint16_t", "uint32_t", "uint64_t", "ssize_t", "ptrdiff_t",
    "intptr_t", "uintptr_t", "auto"]

def qualifierWords : List String :=
  ["const", "volatile", "restrict", "static", "extern", "inline", "register", "_Noreturn",
    "_Atomic", "_Thread_local", "__inline", "__inline__", "__restrict", "__extension__"]

def classQualifiers : List String :=
  ["constexpr", "consteval", "constinit", "virtual", "explicit", "mutable", "thread_local",
    "friend", "typename"]

inductive Part where
  | external
  | specifiers
  | declarator
  | memberDeclarator
  | params
  | qualified
  | member
  | templated
  | units
  | templateArgs
  | initializer

/-- The rule of a part. -/
def part (p : Part) : Rule Part := call p

def isName (d : Dialect) (t : Token) : Bool :=
  t.cls = .word && !primitives.contains t.text &&
  !(keywords.contains t.text && (d.classes || !classWords.contains t.text))

def identifier (d : Dialect) : Rule Part := leaf (some "identifier") (isName d)

def typeName (d : Dialect) : Rule Part := leaf (some "type_identifier") (isName d)

/-- A rule of the second language. -/
def extended (d : Dialect) (r : Rule Part) : Rule Part := if d.classes then r else never

/-- A word that may stand anywhere among the specifiers. -/
def qualifier (d : Dialect) : Rule Part :=
  firstOf
    [words qualifierWords, extended d (words classQualifiers),
      words ["__attribute__", "__declspec", "alignas", "_Alignas"] ++ sealed "(",
      node "attribute_declaration" (bracket "[" (sealed "[" ++ done))]

def external : Rule Part := part .external

-- --------------------------------------------------------------- specifiers

/-- Name and body of a struct, union or class. -/
def classTail (d : Dialect) : Rule Part :=
  let name := field "name" (firstOf
    [extended d (ahead (identifier d ++ (symbol "::" <|> part .templateArgs)) ++
        node "qualified_name" (sepBy (typeName d ++ opt (part .templateArgs)) (symbol "::"))),
      typeName d])
  let bases := opt (extended d (opt (word "final") ++ opt (symbol ":" ++
    many (absent (next (·.isOpening "\x7b")) ++ absent (symbol ";") ++ anything))))
  let body := field "body" (node "field_declaration_list" (bracket "\x7b" (many (part .member))))
  many (qualifier d) ++ firstOf [name ++ bases ++ body, body, name]

def enumSpecifier (d : Dialect) : Rule Part :=
  node "enum_specifier"
    (word "enum" ++ (if d.classes then opt (words ["class", "struct"]) else nothing) ++
      firstOf
        [field "name" (typeName d) ++
            opt (symbol ":" ++ oneOrMore (words primitives <|> typeName d)) ++
            opt (field "body" (node "enumerator_list" (sealed "\x7b"))),
          field "body" (node "enumerator_list" (sealed "\x7b"))])

/-- A type with a keyword of its own. -/
def taggedType (d : Dialect) : Rule Part :=
  firstOf
    [node "struct_specifier" (word "struct" ++ classTail d),
      node "union_specifier" (word "union" ++ classTail d),
      extended d (node "class_specifier" (word "class" ++ classTail d)),
      enumSpecifier d]

/-- A named type, with the scopes and template arguments it may have. -/
def namedType (d : Dialect) : Rule Part :=
  if d.classes then
    opt (symbol "::") ++ sepBy (typeName d ++ opt (part .templateArgs)) (symbol "::")
  else typeName d

def typeSpecifier (d : Dialect) : Rule Part :=
  firstOf
    [taggedType d,
      node "primitive_type" (oneOrMore (words primitives <|> qualifier d)),
      extended d (node "decltype" (word "decltype" ++ sealed "(")),
      node "named_type" (namedType d) ++ next fun t =>
        t.cls = .word || t.isOneOf .symbol ["*", "&", "&&", "::", "~"]]

-- -------------------------------------------------------------- declarators

/-- A declared name; a plain one is a leaf of the given kind. -/
def simpleName (d : Dialect) (kind : String) : Rule Part :=
  firstOf
    [extended d (node "destructor_name" (symbol "~" ++ identifier d)),
      extended d (node "operator_name"
        (word "operator" ++
          ((sealed "(" <|> sealed "[") <|>
            oneOrMore (absent (next fun t => t.isOpening "(") ++ anything)))),
      leaf (some kind) (isName d)]

/-- What may follow the parameters of a function. -/
def functionTail (d : Dialect) : Rule Part :=
  many (firstOf
    [words ["__attribute__", "__asm__", "asm"] ++ sealed "(",
      extended d (word "noexcept" ++ opt (sealed "(")),
      extended d (word "throw" ++ sealed "("),
      extended d (words ["const", "volatile", "override", "final"]),
      extended d (symbols ["&", "&&"]),
      extended d (symbol "->" ++ part .specifiers ++ many (symbols ["*", "&", "&&"]))])

def declaratorLinks (d : Dialect) : Rule Part :=
  link "function_declarator" "declarator"
    (field "parameters" (node "parameter_list" (bracket "(" (part .params))) ++ functionTail d) <|>
  link "array_declarator" "declarator" (bracket "[" (part .units))

/-- A declarator without what follows it. `inner` is the part of the declarators
within it, `kind` the kind of its name. -/
def declaratorHead (d : Dialect) (inner : Part) (kind : String) : Rule Part :=
  firstOf
    [node "pointer_declarator"
        (symbol "*" ++ many (qualifier d) ++ field "declarator" (part inner)),
      extended d (node "reference_declarator" (symbols ["&", "&&"] ++ part inner)),
      node "parenthesized_declarator" (bracket "(" (part inner)),
      extended d (part .qualified),
      simpleName d kind]

/-- A declarator without a name. -/
def abstractDeclarator (d : Dialect) : Rule Part :=
  many (symbols ["*", "&", "&&"] <|> qualifier d) ++ opt (symbol "...") ++
    many (sealed "[" <|> sealed "(")

def parameter (d : Dialect) : Rule Part :=
  node "parameter_declaration"
    ((part .specifiers <|> (many (qualifier d) ++ node "named_type" (namedType d))) ++
      many (qualifier d) ++
      (field "declarator" (part .declarator) <|> abstractDeclarator d) ++
      opt (symbol "=" ++ many (absent (symbol ",") ++ anything)))

/-- A declared name with its initial value. -/
def initDeclarator (name : Part) : Rule Part :=
  field "declarator" (part name) ++
    opt (firstOf
      [symbol "=" ++ part .initializer,
        symbol ":" ++ part .initializer,
        node "initializer_list" (bracket "\x7b" (part .units)),
        node "argument_list" (bracket "(" (part .units))])

-- ------------------------------------------------------------- declarations

def block : Rule Part :=
  field "body" (node "compound_statement" (bracket "\x7b" (many external)))

/-- The initialisers between a constructor's head and its body. -/
def constructorInit (d : Dialect) : Rule Part :=
  extended d (symbol ":" ++
    sepBy (namedType d ++ (sealed "(" <|> sealed "\x7b") ++ opt (symbol "..."))
      (symbol ","))

def functionBody (d : Dialect) : Rule Part :=
  firstOf
    [opt (extended d (word "try")) ++ opt (constructorInit d) ++ block,
      extended d (symbol "=" ++ words ["default", "delete"] ++ symbol ";")]

def declaration (kind : String) (name : Part) : Rule Part :=
  node kind (part .specifiers ++ sepBy (initDeclarator name) (symbol ",") ++ symbol ";")

/-- Parameters declared between the head and the body, as the first language
allows. -/
def lateParameters (d : Dialect) : Rule Part :=
  if d.classes then nothing else many (declaration "declaration" .declarator)

/-- A function with its body. Only one with a type is named like a member; a
constructor has none. -/
def functionDefinition (d : Dialect) (name : Part) : Rule Part :=
  firstOf
    [node "function_definition"
        (part .specifiers ++ field "declarator" (part name) ++ lateParameters d ++
          functionBody d),
      extended d (node "function_definition"
        (many (qualifier d) ++ field "declarator" (part .declarator) ++ functionBody d))]

def typeDefinition (d : Dialect) : Rule Part :=
  let name := (typeName d ++ ahead (symbols [",", ";"])) <|> part .declarator
  node "type_definition"
    (word "typedef" ++
      (part .specifiers <|> (many (qualifier d) ++ node "named_type" (namedType d))) ++
      many (qualifier d) ++
      sepBy (field "declarator" name) (symbol ",") ++ symbol ";")

/-- A constructor, destructor or conversion declared without a body. -/
def bareDeclaration (d : Dialect) : Rule Part :=
  extended d (node "declaration"
    (many (qualifier d) ++ ahead (part .declarator ++ symbols [";", "="]) ++
      initDeclarator .declarator ++ symbol ";"))

/-- What has to hold of the arguments of a template. -/
def requiresClause (d : Dialect) : Rule Part :=
  let term := sealed "(" <|> words ["true", "false"] <|> namedType d
  node "requires_clause" (word "requires" ++ sepBy term (symbols ["&&", "||"]))

def templateDeclaration (d : Dialect) (item : Part) : Rule Part :=
  extended d (node "template_declaration"
    (word "template" ++ opt (part .templateArgs) ++ opt (requiresClause d) ++ part item))

def namespaceDefinition (d : Dialect) : Rule Part :=
  extended d (node "namespace_definition"
    (opt (word "inline") ++ word "namespace" ++
      opt (field "name" (node "nested_namespace_specifier"
        (sepBy (leaf (some "namespace_identifier") (isName d)) (symbol "::")))) ++
      field "body" (node "declaration_list" (bracket "\x7b" (many external)))))

/-- Passes over a statement to its end. -/
def toSemicolon : Rule Part := many (absent (symbol ";") ++ part .units) ++ symbol ";"

def expressionWords : List String :=
  ["return", "goto", "throw", "delete", "new", "co_return", "co_await", "co_yield", "sizeof",
    "using", "static_assert", "_Static_assert"]

/-- One item of an expression. -/
def unit : Rule Part :=
  firstOf
    [bracket "\x7b" (many external), bracket "(" (many (part .units)),
      bracket "[" (many (part .units)), token]

def externalItem (d : Dialect) : Rule Part :=
  firstOf
    [symbol ";", leaf (some "directive") (·.cls = .directive),
      typeDefinition d, namespaceDefinition d, templateDeclaration d .templated,
      word "extern" ++ leaf none (·.cls = .text) ++ opt (bracket "\x7b" (many external)),
      functionDefinition d .declarator, declaration "declaration" .declarator,
      many (qualifier d) ++ taggedType d ++ many (qualifier d) ++ symbol ";",
      words expressionWords ++ toSemicolon,
      words ["if", "for", "while", "switch", "catch"] ++
        opt (extended d (word "constexpr")) ++ bracket "(" (many (part .units)),
      words ["else", "do", "try", "default", "break", "continue"],
      word "case" ++ many (absent (symbol ":") ++ part .units) ++ symbol ":",
      identifier d ++ symbol ":",
      node "compound_statement" (bracket "\x7b" (many external)),
      absent (next fun t => t.cls = .directive) ++
        many (absent (symbol ";") ++ absent (next fun t => t.cls = .directive) ++
          absent (next fun t => t.isOpening "\x7b" && t.fresh) ++ part .units) ++ symbol ";",
      part .units]

/-- An item of a class, or one under a template. `self` is the part it is the rule
of, `name` that of the names it declares. -/
def memberItem (d : Dialect) (self name : Part) : Rule Part :=
  firstOf
    [words ["public", "private", "protected"] ++ symbol ":",
      extended d (word "friend" ++ words ["class", "struct", "union"] ++ namedType d ++
        symbol ";"),
      templateDeclaration d self, typeDefinition d, functionDefinition d name,
      declaration "field_declaration" name, bareDeclaration d, external]

def rules (d : Dialect) : Part → Rule Part
  | .external => externalItem d
  | .specifiers =>
    many (qualifier d) ++ field "type" (typeSpecifier d) ++ many (qualifier d)
  | .declarator => chain (declaratorHead d .declarator "identifier") (declaratorLinks d)
  | .memberDeclarator =>
    chain (declaratorHead d .memberDeclarator "field_identifier") (declaratorLinks d)
  | .params =>
    firstOf
      [done,
        sepBy (parameter d) (symbol ",") ++ opt (opt (symbol ",") ++ symbol "...") ++ done,
        symbol "..." ++ done]
  | .qualified =>
    node "qualified_identifier"
      (field "scope" (opt (node "scope"
          (leaf (some "namespace_identifier") (isName d) ++ opt (part .templateArgs)))) ++
        symbol "::" ++ field "name" (part .qualified <|> simpleName d "identifier"))
  | .member => memberItem d .member .memberDeclarator
  | .templated => memberItem d .templated .declarator
  | .units => unit
  | .templateArgs =>
    node "template_argument_list"
      (symbol "<" ++ many (absent (next fun t => t.isOneOf .symbol [">", ";"]) ++
        (part .templateArgs <|> anything)) ++ symbol ">")
  | .initializer =>
    many (absent (symbols [",", ";"]) ++ part .units)

def grammar (d : Dialect) : Grammar := ⟨Part, rules d, many external, "translation_unit"⟩

def parse (d : Dialect) (text : String) : Tree :=
  let tokens := (tokenize lexis text).filter (·.cls ≠ .comment)
  (grammar d).parse (groupTokens bracketsMatch tokens)

-- ==================================================================== tags

def patterns : List Pattern :=
  [.definition "class"
      [.filling "name" "type_identifier", (Step.ofKind "struct_specifier").needing "body" []],
    .definition "class"
      [.filling "name" "type_identifier", .filling "type" "union_specifier",
        .ofKind "declaration"],
    .definition "function" [.filling "declarator" "identifier", .ofKind "function_declarator"],
    .definition "type" [.filling "declarator" "type_identifier", .ofKind "type_definition"],
    .definition "type" [.filling "name" "type_identifier", .ofKind "enum_specifier"]]

/-- The patterns of the second language. -/
def classPatterns : List Pattern :=
  patterns ++
  [.definition "function"
      [.filling "declarator" "field_identifier", .ofKind "function_declarator"],
    .definition "method"
      [.filling "name" "identifier", .filling "declarator" "qualified_identifier",
        .ofKind "function_declarator"],
    .definition "class" [.filling "name" "type_identifier", .ofKind "class_specifier"]]

end CodeMap.Grammar.C
