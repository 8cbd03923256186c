/-
The languages whose files are read for definitions and references, and the
node kinds of each language that make up the structure of a file: functions
on one side, classes and whatever else opens a named scope on the other.
-/
import CodeMap.Path

namespace CodeMap

/-- A supported language, or the lack of one. -/
inductive Language where
  | python
  | javascript
  | typescript
  | tsx
  | rust
  | go
  | java
  | c
  | cpp
  | ruby
  | unknown
  deriving DecidableEq, Repr, Inhabited

/-- The two kinds of structure a file has. -/
inductive Category where
  | function
  | classLike
  deriving DecidableEq, Repr, Inhabited

namespace Category

def name : Category → String
  | function => "function"
  | classLike => "class"

/-- The category of a tag, by the last word of its capture. -/
def ofTagType? (tagType : String) : Option Category :=
  if ["function", "method"].contains tagType then some function
  else if ["class", "interface", "module", "struct", "enum", "trait"].contains tagType then
    some classLike
  else none

end Category

namespace Language

/-- The language of a file name extension. Case counts. -/
def ofExtension (ext : String) : Language :=
  match ext with
  | "py" => python
  | "js" | "jsx" | "mjs" | "cjs" => javascript
  | "ts" => typescript
  | "tsx" => tsx
  | "rs" => rust
  | "go" => go
  | "java" => java
  | "c" | "h" => c
  | "cpp" | "cc" | "cxx" | "hpp" | "hxx" | "hh" => cpp
  | "rb" => ruby
  | _ => unknown

def ofPath (p : Path) : Language :=
  match p.extension? with
  | some ext => ofExtension ext
  | none => unknown

def name : Language → String
  | python => "python"
  | javascript => "javascript"
  | typescript => "typescript"
  | tsx => "tsx"
  | rust => "rust"
  | go => "go"
  | java => "java"
  | c => "c"
  | cpp => "cpp"
  | ruby => "ruby"
  | unknown => "unknown"

/-- Whether files of the language are parsed at all. -/
def isSupported (l : Language) : Bool := l ≠ unknown

/-- Whether the language's tag patterns capture references. Without them the
identifiers of a file stand in for its references. -/
def capturesReferences? : Language → Option Bool
  | unknown => none
  | c | cpp => some false
  | _ => some true

/-- Node kinds that are functions. -/
def functionKinds : Language → List String
  | python => ["function_definition"]
  | javascript | typescript | tsx =>
    ["function_declaration", "generator_function_declaration", "method_definition",
      "arrow_function", "function_expression"]
  | rust => ["function_item"]
  | go => ["function_declaration", "method_declaration", "func_literal"]
  | java => ["method_declaration", "constructor_declaration"]
  | c | cpp => ["function_definition"]
  | ruby => ["method", "singleton_method"]
  | unknown => []

/-- Node kinds that are classes or open a named scope. -/
def classKinds : Language → List String
  | python => ["class_definition"]
  | javascript => ["class_declaration", "class"]
  | typescript | tsx =>
    ["class_declaration", "abstract_class_declaration", "class", "interface_declaration",
      "enum_declaration"]
  | rust => ["struct_item", "enum_item", "trait_item", "impl_item", "mod_item"]
  | go => ["type_declaration"]
  | java => ["class_declaration", "interface_declaration", "enum_declaration"]
  | c => ["struct_specifier", "union_specifier", "enum_specifier"]
  | cpp =>
    ["class_specifier", "struct_specifier", "union_specifier", "enum_specifier",
      "namespace_definition"]
  | ruby => ["class", "module"]
  | unknown => []

/-- The kinds of a category. -/
def kindsOf (l : Language) : Category → List String
  | .function => l.functionKinds
  | .classLike => l.classKinds

/-- The category a node kind has in a language. -/
def categoryOfKind? (l : Language) (kind : String) : Option Category :=
  if l.functionKinds.contains kind then some .function
  else if l.classKinds.contains kind then some .classLike
  else none

end Language

end CodeMap
