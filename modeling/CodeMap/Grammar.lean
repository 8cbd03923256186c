/-
From a language to its syntax trees and tag patterns.
-/
import CodeMap.Language
import CodeMap.Grammar.Python
import CodeMap.Grammar.JavaScript
import CodeMap.Grammar.Rust
import CodeMap.Grammar.Go
import CodeMap.Grammar.Java
import CodeMap.Grammar.C
import CodeMap.Grammar.Ruby

namespace CodeMap.Language

open Syntax

/-- The syntax tree of a source text, for languages that have a grammar. -/
def parse? (l : Language) (text : String) : Option Tree :=
  match l with
  | python => some (Grammar.Python.parse text)
  | javascript => some (Grammar.JavaScript.parse ⟨false, true⟩ text)
  | typescript => some (Grammar.JavaScript.parse ⟨true, false⟩ text)
  | tsx => some (Grammar.JavaScript.parse ⟨true, true⟩ text)
  | rust => some (Grammar.Rust.parse text)
  | go => some (Grammar.Go.parse text)
  | java => some (Grammar.Java.parse text)
  | c => some (Grammar.C.parse ⟨false⟩ text)
  | cpp => some (Grammar.C.parse ⟨true⟩ text)
  | ruby => some (Grammar.Ruby.parse text)
  | unknown => none

/-- The tag patterns of a language. -/
def patterns : Language → List Pattern
  | python => Grammar.Python.patterns
  | javascript => Grammar.JavaScript.patterns
  | typescript | tsx => Grammar.JavaScript.typedPatterns
  | rust => Grammar.Rust.patterns
  | go => Grammar.Go.patterns
  | java => Grammar.Java.patterns
  | c => Grammar.C.patterns
  | cpp => Grammar.C.classPatterns
  | ruby => Grammar.Ruby.patterns
  | unknown => []

end CodeMap.Language
