/-
Rust: items, and the calls and macro invocations inside their bodies.

Patterns and types hold no calls, although parts of them look like calls. They
are passed over as whole items: what stands between `let` and `=`, before the
arrow of a match arm, between `for` and `in`, between the bars of a closure, and
in the head of a function.
-/
import CodeMap.Syntax.Rule
import CodeMap.Syntax.Lexer
import CodeMap.Syntax.Pattern

namespace CodeMap.Grammar.Rust

open Syntax Rule

-- ============================================================ lexical rules

/-- A single quote opens a character if the quote is closed right after it, and
a lifetime otherwise. -/
def special? (_ : Context) (cs : List Char) : Option (TokenClass × Nat) :=
  match cs with
  | '\'' :: '\\' :: _ :: rest =>
    some (.text, 3 + lengthUntil (fun r => startsWith r ['\'']) rest + 1)
  | '\'' :: _ :: '\'' :: _ => some (.text, 3)
  | '\'' :: rest => some (.text, 1 + (rest.takeWhile isNameRest).length)
  | 'b' :: '\'' :: '\\' :: _ :: rest =>
    some (.text, 4 + lengthUntil (fun r => startsWith r ['\'']) rest + 1)
  | 'b' :: '\'' :: _ :: '\'' :: _ => some (.text, 4)
  | 'r' :: '#' :: c :: rest =>
    if isNameStart c then some (.word, 3 + (rest.takeWhile isNameRest).length) else none
  | _ => none

/-- A raw text: a quote between equal numbers of number signs. -/
def rawText? (marks : Nat) (cs : List Char) : Option TextForm :=
  let hashes := (cs.takeWhile (· = '#')).length
  match cs.drop hashes with
  | '"' :: _ =>
    some ⟨marks + hashes + 1, '"' :: List.replicate hashes '#', false, none, false, true⟩
  | _ => none

def text? (_ : Context) (cs : List Char) : Option TextForm :=
  match cs with
  | '"' :: _ => some (plainText '"' true)
  | 'b' :: '"' :: _ => some { plainText '"' true with opener := 2 }
  | 'c' :: '"' :: _ => some { plainText '"' true with opener := 2 }
  | 'r' :: rest => rawText? 1 rest
  | 'b' :: 'r' :: rest => rawText? 2 rest
  | 'c' :: 'r' :: rest => rawText? 2 rest
  | _ => none

def lexis : Lexis where
  comment? _ := braceComment? true
  special? := special?
  text? := text?
  startsWord := isNameStart
  continuesWord := isNameRest
  symbols :=
    ["..=", "...", "=>", "->", "::", "..", "&&", "||", "==", "!=", "<=", "+=", "-=", "*=", "/=",
      "%=", "^=", "|=", "&="].map String.toList
  markup _ _ := false

-- ================================================================== grammar

def keywords : List String :=
  ["as", "break", "const", "continue", "crate", "else", "enum", "extern", "false", "fn", "for",
    "if", "impl", "in", "let", "loop", "match", "mod", "move", "mut", "pub", "ref", "return",
    "self", "static", "struct", "super", "trait", "true", "type", "unsafe", "use", "where",
    "while", "async", "await", "dyn"]

def primitives : List String :=
  ["u8", "i8", "u16", "i16", "u32", "i32", "u64", "i64", "u128", "i128", "isize", "usize", "f32",
    "f64", "bool", "str", "char"]

inductive Part where
  | statement
  | units
  | expr
  | operand
  | arm
  | type
  | typeArgs

/-- The rule of a part. -/
def part (p : Part) : Rule Part := call p

def isName (t : Token) : Bool := t.cls = .word && !keywords.contains t.text

def identifier : Rule Part := leaf (some "identifier") isName

def typeName : Rule Part := leaf (some "type_identifier") isName

/-- Everything up to a token that passes the test. -/
def skipTo (stop : Token → Bool) : Rule Part := many (absent (next stop) ++ anything)

def isBrace (t : Token) : Bool := t.isOpening "\x7b"

def visibility : Rule Part := opt (word "pub" ++ opt (sealed "("))

def generics : Rule Part := opt (part .typeArgs)

/-- Bounds, where clauses and result types before a body. -/
def untilBody : Rule Part := skipTo fun t => isBrace t || t.isSymbol ";"

def body : Rule Part := field "body" (node "block" (bracket "\x7b" (many (part .statement))))

def declarations : Rule Part :=
  field "body" (node "declaration_list" (bracket "\x7b" (many (part .statement))))

def functionHead : Rule Part :=
  visibility ++
    many (words ["async", "unsafe", "const", "default"] <|>
      (word "extern" ++ opt (leaf none (·.cls = .text)))) ++
    word "fn" ++ field "name" identifier ++ generics ++ sealed "(" ++ untilBody

def functionItem : Rule Part := node "function_item" (functionHead ++ body)

def functionSignature : Rule Part :=
  node "function_signature_item" (functionHead ++ symbol ";")

def structItem : Rule Part :=
  node "struct_item"
    (visibility ++ word "struct" ++ field "name" typeName ++ generics ++
      firstOf
        [sealed "(" ++ untilBody ++ symbol ";", symbol ";", untilBody ++ sealed "\x7b"])

def enumItem : Rule Part :=
  node "enum_item"
    (visibility ++ word "enum" ++ field "name" typeName ++ generics ++ untilBody ++
      sealed "\x7b")

def traitItem : Rule Part :=
  node "trait_item"
    (visibility ++ many (words ["unsafe", "auto"]) ++ word "trait" ++ field "name" typeName ++
      generics ++ untilBody ++ declarations)

def implItem : Rule Part :=
  node "impl_item"
    (many (words ["unsafe", "default"]) ++ word "impl" ++ generics ++
      opt (opt (symbol "!") ++ field "trait" (part .type) ++ word "for") ++
      field "type" (part .type) ++ untilBody ++ (declarations <|> symbol ";"))

def modItem : Rule Part :=
  node "mod_item"
    (visibility ++ word "mod" ++ field "name" identifier ++ (declarations <|> symbol ";"))

def typeItem : Rule Part :=
  node "type_item"
    (visibility ++ word "type" ++ field "name" typeName ++ generics ++
      skipTo (fun t => t.isSymbol "=" || t.isSymbol ";") ++ symbol "=" ++
      skipTo (·.isSymbol ";") ++ symbol ";")

def macroRules : Rule Part :=
  node "macro_definition"
    (word "macro_rules" ++ symbol "!" ++ field "name" identifier ++
      (sealed "\x7b" <|> ((sealed "(" <|> sealed "[") ++ symbol ";")))

def attributeItem : Rule Part :=
  node "attribute_item" (symbol "#" ++ opt (symbol "!") ++ sealed "[")

/-- What stands between `let` and the value. -/
def letHead : Rule Part :=
  word "let" ++ skipTo fun t => t.isSymbol "=" || t.isSymbol ";"

def constantHead : Rule Part :=
  visibility ++ words ["const", "static"] ++ opt (word "mut") ++ identifier ++ symbol ":" ++
    skipTo fun t => t.isSymbol "=" || t.isSymbol ";"

def statement : Rule Part :=
  firstOf
    [symbols [";", ","], attributeItem, functionItem, functionSignature, structItem, enumItem,
      traitItem, implItem, modItem, typeItem, macroRules,
      visibility ++ word "use" ++ skipTo (·.isSymbol ";") ++ symbol ";",
      visibility ++ word "extern" ++ opt (leaf none (·.cls = .text)) ++
        bracket "\x7b" (many (part .statement)),
      constantHead, part .expr, token]

-- -------------------------------------------------------------- expressions

def closure : Rule Part :=
  node "closure_expression"
    (many (words ["move", "async", "static"]) ++
      (symbol "||" <|> (symbol "|" ++ skipTo (·.isSymbol "|") ++ symbol "|")) ++
      opt (symbol "->" ++ part .type) ++ part .expr)

def matchExpression : Rule Part :=
  node "match_expression"
    (word "match" ++ many (absent (next isBrace) ++ (part .operand <|> token)) ++
      bracket "\x7b" (many (part .arm)))

def primary : Rule Part :=
  firstOf
    [matchExpression, closure, identifier,
      words ["self", "super", "crate", "true", "false"],
      leaf (some "literal") fun t => t.cls = .text || t.cls = .number,
      node "bracketed_type"
        (symbol "<" ++ skipTo (·.isSymbol ">") ++ symbol ">" ++ next (·.isSymbol "::")),
      node "group" (bracket "(" (part .units)),
      node "array_expression" (bracket "[" (part .units)),
      node "block" (bracket "\x7b" (many (part .statement)))]

def links : Rule Part :=
  link "macro_invocation" "macro"
    (symbol "!" ++ (sealed "(" <|> sealed "[" <|> sealed "\x7b")) <|>
  link "call_expression" "function" (field "arguments" (node "arguments" (bracket "(" (part .units))))
    <|>
  link "await_expression" "value" (symbol "." ++ word "await") <|>
  link "field_expression" "value"
    (symbol "." ++ field "field" (leaf (some "field_identifier") fun t =>
      t.cls = .word || t.cls = .number)) <|>
  link "scoped_identifier" "path"
    (symbol "::" ++ field "name" (leaf (some "identifier") (·.cls = .word))) <|>
  link "generic_function" "function" (symbol "::" ++ part .typeArgs) <|>
  link "index_expression" "value" (bracket "[" (part .units)) <|>
  link "try_expression" "value" (symbol "?")

def operators : List String :=
  ["..=", "...", "..", "&&", "||", "==", "!=", "<=", "+=", "-=", "*=", "/=", "%=", "^=", "|=",
    "&=", "+", "-", "*", "/", "%", "^", "!", "&", "|", "<", ">", "=", "@"]

/-- What may stand before an operand. -/
def prefixes : Rule Part :=
  firstOf
    [letHead ++ opt (symbol "="),
      word "for" ++ skipTo (·.isWord "in") ++ word "in",
      symbols ["-", "*", "!", "&", "&&", "..", "..=", "#"],
      words ["if", "while", "loop", "return", "break", "continue", "else", "unsafe", "async",
        "move", "mut", "ref", "in", "const"]]

-- ---------------------------------------------------------------- the rules

def rules : Part → Rule Part
  | .statement => statement
  | .units => many (part .statement)
  | .expr =>
    chain (node "prefixed" (oneOrMore prefixes ++ opt (part .operand)) <|> part .operand)
      (link "type_cast_expression" "value" (word "as" ++ part .type) <|>
        link "binary_expression" "left"
          (oneOrMore (symbols operators) ++ many prefixes ++ part .operand))
  | .operand => chain primary links
  | .arm =>
    node "match_arm"
      (many attributeItem ++ many (absent (symbol "=>") ++ absent (word "if") ++ anything) ++
        opt (word "if" ++ many (absent (symbol "=>") ++ (part .operand <|> token))) ++
        symbol "=>" ++ part .expr ++ opt (symbol ",")) <|> anything
  | .type =>
    firstOf
      [node "reference_type"
          (symbols ["&", "&&"] ++ opt (leaf none (·.cls = .text)) ++ opt (word "mut") ++
            part .type),
        node "pointer_type" (symbol "*" ++ words ["const", "mut"] ++ part .type),
        node "dynamic_type" (words ["dyn", "impl"] ++ part .type),
        node "tuple_type" (sealed "("),
        node "array_type" (sealed "["),
        node "never_type" (symbol "!"),
        chain
          (firstOf
            [leaf (some "primitive_type") (·.isOneOf .word primitives),
              leaf (some "type_identifier") fun t =>
                isName t || t.isOneOf .word ["self", "super", "crate"],
              node "bracketed_type" (symbol "<" ++ skipTo (·.isSymbol ">") ++ symbol ">")])
          (link "generic_type" "type" (opt (symbol "::") ++ part .typeArgs) <|>
            link "scoped_type_identifier" "path" (symbol "::" ++ field "name" typeName) <|>
            link "function_type" "trait" (sealed "(" ++ opt (symbol "->" ++ part .type)))]
  | .typeArgs =>
    node "type_arguments"
      (symbol "<" ++ many (absent (symbol ">") ++ (part .typeArgs <|> anything)) ++ symbol ">")

def grammar : Grammar := ⟨Part, rules, many (part .statement), "source_file"⟩

def parse (text : String) : Tree :=
  let tokens := (tokenize lexis text).filter (·.cls ≠ .comment)
  grammar.parse (groupTokens bracketsMatch tokens)

-- ==================================================================== tags

def patterns : List Pattern :=
  [.definition "class" [.filling "name" "type_identifier", .ofKind "struct_item"],
    .definition "class" [.filling "name" "type_identifier", .ofKind "enum_item"],
    .definition "interface" [.filling "name" "type_identifier", .ofKind "trait_item"],
    .definition "module" [.filling "name" "identifier", .ofKind "mod_item"],
    .definition "type" [.filling "name" "type_identifier", .ofKind "type_item"],
    .definition "macro" [.filling "name" "identifier", .ofKind "macro_definition"],
    .definition "function" [.filling "name" "identifier", .ofKind "function_item"],
    .reference "call" [.filling "function" "identifier", .ofKind "call_expression"],
    .reference "call"
      [.filling "field" "field_identifier", .filling "function" "field_expression",
        .ofKind "call_expression"],
    .reference "call"
      [.filling "name" "identifier", .filling "function" "scoped_identifier",
        .ofKind "call_expression"],
    .reference "call" [.filling "macro" "identifier", .ofKind "macro_invocation"],
    .reference "implementation" [.filling "trait" "type_identifier", .ofKind "impl_item"],
    .reference "implementation" [.filling "type" "type_identifier", .ofKind "impl_item"]]

end CodeMap.Grammar.Rust
