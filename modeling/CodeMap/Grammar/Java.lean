/-
Java: type declarations with their members, method invocations and object
creation.

The modifiers and annotations of a declaration belong to it, so a declaration
starts where the first of them does.
-/
import CodeMap.Syntax.Rule
import CodeMap.Syntax.Lexer
import CodeMap.Syntax.Pattern

namespace CodeMap.Grammar.Java

open Syntax Rule

-- ============================================================ lexical rules

def isStart (c : Char) : Bool := isNameStart c || c = '$'

def isRest (c : Char) : Bool := isStart c || c.isDigit

def text? (_ : Context) (cs : List Char) : Option TextForm :=
  match cs with
  | '"' :: '"' :: '"' :: _ => some ⟨3, ['"', '"', '"'], true, none, false, true⟩
  | '"' :: _ => some (plainText '"' false)
  | '\'' :: _ => some (plainText '\'' false)
  | _ => none

def lexis : Lexis where
  comment? _ := braceComment? false
  special? _ _ := none
  text? := text?
  startsWord := isStart
  continuesWord := isRest
  symbols :=
    ["...", "->", "::", "&&", "||", "==", "!=", "<=", "++", "--", "+=", "-=", "*=", "/=", "%=",
      "&=", "|=", "^="].map String.toList
  markup _ _ := false

-- ================================================================== grammar

def keywords : List String :=
  ["abstract", "assert", "boolean", "break", "byte", "case", "catch", "char", "class", "const",
    "continue", "default", "do", "double", "else", "enum", "extends", "final", "finally", "float",
    "for", "goto", "if", "implements", "import", "instanceof", "int", "interface", "long",
    "native", "new", "package", "private", "protected", "public", "return", "short", "static",
    "strictfp", "super", "switch", "synchronized", "this", "throw", "throws", "transient", "try",
    "void", "volatile", "while", "true", "false", "null"]

def primitives : List String :=
  ["byte", "short", "int", "long", "char", "float", "double", "boolean", "void"]

def modifierWords : List String :=
  ["public", "protected", "private", "abstract", "static", "final", "strictfp", "default",
    "synchronized", "native", "transient", "volatile", "sealed", "non-sealed"]

inductive Part where
  | statement
  | units
  | typeDeclaration
  | member
  | operand
  | type
  | typeArgs
  | marker
  | classBody

/-- The rule of a part. -/
def part (p : Part) : Rule Part := call p

def isName (t : Token) : Bool := t.cls = .word && !keywords.contains t.text

def identifier : Rule Part := leaf (some "identifier") isName

def modifiers : Rule Part :=
  opt (node "modifiers" (oneOrMore (words modifierWords <|> part .marker)))

def typeParams : Rule Part := opt (part .typeArgs)

def types : Rule Part := node "type_list" (sepBy (part .type) (symbol ","))

def superclass : Rule Part := opt (node "superclass" (word "extends" ++ part .type))

def superInterfaces : Rule Part := opt (node "super_interfaces" (word "implements" ++ types))

def permits : Rule Part := opt (word "permits" ++ types)

def body : Rule Part := field "body" (part .classBody)

def block : Rule Part := field "body" (node "block" (bracket "\x7b" (part .units)))

def classDeclaration : Rule Part :=
  node "class_declaration"
    (modifiers ++ word "class" ++ field "name" identifier ++ typeParams ++ superclass ++
      superInterfaces ++ permits ++ body)

def interfaceDeclaration : Rule Part :=
  node "interface_declaration"
    (modifiers ++ word "interface" ++ field "name" identifier ++ typeParams ++
      opt (node "extends_interfaces" (word "extends" ++ types)) ++ permits ++ body)

def enumConstant : Rule Part :=
  node "enum_constant"
    (many (part .marker) ++ field "name" identifier ++ opt (bracket "(" (part .units)) ++
      opt body ++ opt (symbol ","))

def enumDeclaration : Rule Part :=
  node "enum_declaration"
    (modifiers ++ word "enum" ++ field "name" identifier ++ superInterfaces ++
      field "body" (node "enum_body" (bracket "\x7b"
        (many enumConstant ++ many (part .member)))))

def recordDeclaration : Rule Part :=
  node "record_declaration"
    (modifiers ++ word "record" ++ field "name" identifier ++ typeParams ++ sealed "(" ++
      superInterfaces ++ body)

/-- An element of an annotation type, with its default. -/
def markerElement : Rule Part :=
  node "annotation_type_element_declaration"
    (modifiers ++ field "type" (part .type) ++ field "name" identifier ++ sealed "(" ++
      many (sealed "[") ++
      opt (word "default" ++ many (absent (symbol ";") ++ (part .operand <|> anything))) ++
      symbol ";")

def markerDeclaration : Rule Part :=
  node "annotation_type_declaration"
    (modifiers ++ symbol "@" ++ word "interface" ++ field "name" identifier ++
      field "body" (node "annotation_type_body"
        (bracket "\x7b" (many (markerElement <|> part .member)))))

def throwsClause : Rule Part := opt (word "throws" ++ types)

def methodDeclaration : Rule Part :=
  node "method_declaration"
    (modifiers ++ typeParams ++ many (part .marker) ++ field "type" (part .type) ++
      field "name" identifier ++ field "parameters" (sealed "(") ++ many (sealed "[") ++
      throwsClause ++ (block <|> symbol ";"))

def constructorDeclaration : Rule Part :=
  node "constructor_declaration"
    (modifiers ++ typeParams ++ field "name" identifier ++ field "parameters" (sealed "(") ++
      throwsClause ++ block)

def compactConstructor : Rule Part :=
  node "compact_constructor_declaration" (modifiers ++ field "name" identifier ++ block)

def arguments : Rule Part :=
  field "arguments" (node "argument_list" (bracket "(" (part .units)))

/-- The part of an object creation after `new`. -/
def creation : Rule Part :=
  word "new" ++ many (part .marker) ++ typeParams ++ field "type" (part .type) ++ arguments ++
    opt (part .classBody)

def primary : Rule Part :=
  firstOf
    [node "object_creation_expression" creation,
      word "new" ++ part .type,
      node "method_invocation" (field "name" identifier ++ arguments),
      identifier,
      words ["this", "super", "true", "false", "null"],
      leaf (some "literal") fun t => t.cls = .text || t.cls = .number,
      node "parenthesized_expression" (bracket "(" (part .units)),
      node "dimension" (bracket "[" (part .units)),
      node "block" (bracket "\x7b" (part .units))]

def links : Rule Part :=
  link "method_invocation" "object"
    (symbol "." ++ opt (part .typeArgs) ++ field "name" identifier ++ arguments) <|>
  link "object_creation_expression" "outer" (symbol "." ++ creation) <|>
  link "field_access" "object"
    (symbol "." ++ field "field" (identifier <|> words ["this", "class", "super"])) <|>
  link "array_access" "array" (bracket "[" (part .units)) <|>
  link "method_reference" "object" (symbol "::" ++ (identifier <|> word "new"))

def rules : Part → Rule Part
  | .statement =>
    firstOf
      [part .typeDeclaration,
        word "instanceof" ++ opt (word "final") ++ part .type ++ opt (sealed "("),
        word "case" ++ part .type ++ sealed "(" ++
          ahead (symbols ["->", ":"] <|> word "when"),
        words ["package", "import"] ++ many (absent (symbol ";") ++ anything) ++ symbol ";",
        part .marker, part .operand, anything]
  | .units => many (part .statement)
  | .typeDeclaration =>
    firstOf
      [classDeclaration, interfaceDeclaration, enumDeclaration, recordDeclaration,
        markerDeclaration]
  | .member =>
    firstOf
      [symbol ";", part .typeDeclaration, constructorDeclaration, methodDeclaration,
        compactConstructor,
        opt (word "static") ++ node "block" (bracket "\x7b" (part .units)),
        modifiers ++ field "type" (part .type) ++ identifier, part .statement]
  | .operand => chain primary links
  | .type =>
    chain
      (many (part .marker) ++
        (leaf (some "primitive_type") (·.isOneOf .word primitives) <|>
          leaf (some "type_identifier") isName <|>
          node "wildcard" (symbol "?")))
      (link "generic_type" "type" (part .typeArgs) <|>
        link "scoped_type_identifier" "scope"
          (symbol "." ++ leaf (some "type_identifier") isName) <|>
        link "array_type" "element" (bracket "[" done))
  | .typeArgs =>
    node "type_arguments"
      (symbol "<" ++ many (absent (symbol ">") ++ (part .typeArgs <|> anything)) ++ symbol ">")
  | .marker =>
    node "annotation"
      (symbol "@" ++ absent (word "interface") ++ sepBy identifier (symbol ".") ++
        opt (bracket "(" (part .units)))
  | .classBody => node "class_body" (bracket "\x7b" (many (part .member)))

def grammar : Grammar := ⟨Part, rules, many (part .statement), "program"⟩

def parse (text : String) : Tree :=
  let tokens := (tokenize lexis text).filter (·.cls ≠ .comment)
  grammar.parse (groupTokens bracketsMatch tokens)

-- ==================================================================== tags

def patterns : List Pattern :=
  [.definition "class" [.filling "name" "identifier", .ofKind "class_declaration"],
    .definition "interface" [.filling "name" "identifier", .ofKind "interface_declaration"],
    .definition "enum" [.filling "name" "identifier", .ofKind "enum_declaration"],
    .definition "method" [.filling "name" "identifier", .ofKind "method_declaration"],
    .definition "method" [.filling "name" "identifier", .ofKind "constructor_declaration"],
    .reference "call" [.filling "name" "identifier", .ofKind "method_invocation"],
    .reference "class" [.filling "type" "type_identifier", .ofKind "object_creation_expression"],
    .reference "class" [.ofKind "type_identifier", .ofKind "superclass"],
    .reference "implementation"
      [.ofKind "type_identifier", .ofKind "type_list", .ofKind "super_interfaces"]]

end CodeMap.Grammar.Java
