/-
Queries as they are written: expressions, sources of rows, and what is asked of
them.
-/
import CodeMap.Sql.Value

namespace CodeMap.Sql

inductive Operator where
  | add | sub | mul | div | rem | concat
  | eq | ne | lt | le | gt | ge
  /-- Equality that holds of two nulls as well. -/
  | is | isNot
  | and | or
  | like | glob
  | bitAnd | bitOr | shiftLeft | shiftRight
  deriving DecidableEq, Repr

inductive SignOperator where
  | minus | plus | invert | not
  deriving DecidableEq, Repr

/-- How two queries are put together. -/
inductive Compound where
  | union | unionAll | except | intersect
  deriving DecidableEq, Repr

mutual

inductive Expr where
  | literal (v : Value)
  /-- A column. A name in double quotes that is no column is a text. -/
  | column (table : Option String) (name : String) (quoted : Bool) (offset : Nat)
  | parameter
  | sign (op : SignOperator) (e : Expr)
  | binary (op : Operator) (a b : Expr)
  | between (e low high : Expr)
  | within (e : Expr) (items : List Expr)
  | withinQuery (e : Expr) (q : Query)
  | call (function : String) (distinct : Bool) (all : Bool) (args : List Expr) (offset : Nat)
  | choose (base : Option Expr) (branches : List (Expr × Expr)) (otherwise : Option Expr)
  | cast (e : Expr) (type : String)
  | scalar (q : Query)
  | nonempty (q : Query)

inductive Column where
  | all
  | allOf (table : String)
  /-- An expression with its name, if it was given one, and its text. -/
  | expr (e : Expr) (label : Option String) (text : String)

inductive Source where
  | table (name : String) (label : Option String)
  | derived (q : Query) (label : Option String)

/-- A source, whether rows without a match are kept, and what has to hold. -/
inductive Join where
  | mk (source : Source) (keepsUnmatched : Bool) (condition : Option Expr)

inductive Body where
  | select (distinct : Bool) (columns : List Column) (sources : List Join) (filter : Option Expr)
      (groups : List Expr) (having : Option Expr)
  | values (rows : List (List Expr))

inductive Query where
  | mk (named : List (String × List String × Query)) (first : Body)
      (others : List (Compound × Body)) (order : List (Expr × Bool)) (limit offset : Option Expr)

end

instance : Inhabited Expr := ⟨.parameter⟩

instance : Inhabited Body := ⟨.values []⟩

instance : Inhabited Query := ⟨.mk [] (.values []) [] [] none none⟩

instance : Inhabited Source := ⟨.table "" none⟩

instance : Inhabited Join := ⟨.mk default false none⟩

/-- A statement. -/
inductive Statement where
  /-- Nothing but blanks and comments. -/
  | nothing
  | query (q : Query)
  | pragma (name : String)
  /-- A statement that would change the table of this name, if it names one. -/
  | change (table : Option String)

end CodeMap.Sql
