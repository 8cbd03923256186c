/-
Tables and the orders in which their rows can be read. Rows are kept in the
order in which they were put in. A table may have indexes, and a query that
does not ask for an order shows which of them it was answered from.
-/
import CodeMap.Sql.Value

namespace CodeMap.Sql

/-- Names are the same in both cases of letters. -/
def sameName (a b : String) : Bool := a.toLower == b.toLower

/-- A table: its columns, its rows in order, and the columns of its indexes,
the oldest index first. -/
structure Table where
  columns : List (String × Affinity)
  rows : List (List Value)
  indexes : List (List String) := []
  /-- The column that every index holds besides its own. -/
  rowNumber : Option String := none
  deriving Inhabited

/-- Rows by their values. -/
def orderRows : List Value → List Value → Ordering
  | [], [] => .eq
  | [], _ :: _ => .lt
  | _ :: _, [] => .gt
  | a :: as, b :: bs => (a.order b).then (orderRows as bs)

/-- What a query wants of a table: the columns it reads, or all of them, and
those that have to be equal to something known. -/
structure Demand where
  reads : Option (List String)
  fixed : List String

namespace Table

/-- Whether a list of names holds a name. -/
def holds (names : List String) (name : String) : Bool := names.any (sameName name)

/-- Whether an index alone answers a demand. -/
def covers (t : Table) (index : List String) (d : Demand) : Bool :=
  match d.reads with
  | none => false
  | some names => names.all fun c =>
    holds index c || t.rowNumber.any (sameName c) || !holds (t.columns.map (·.1)) c

/-- How many columns at the front of an index are known. -/
def fixedDepth (index : List String) (d : Demand) : Nat :=
  (index.takeWhile (holds d.fixed)).length

/-- The index with the largest score, the youngest one of several. -/
def bestIndex (score : List String → Nat) (indexes : List (List String)) : Option (List String) :=
  indexes.foldl (fun best index =>
    match best with
    | some b => if score b ≤ score index then some index else best
    | none => some index) none

/-- The index a demand is answered from: the one with most columns known,
among equals one that answers alone. If nothing is known, the narrowest index
that answers alone. -/
def chosenIndex? (t : Table) (d : Demand) : Option (List String) :=
  let searchable := t.indexes.filter fun i => 0 < fixedDepth i d
  if searchable.isEmpty then
    bestIndex (fun i => 100 - i.length) (t.indexes.filter fun i => t.covers i d)
  else
    bestIndex (fun i => 2 * fixedDepth i d + (if t.covers i d then 1 else 0)) searchable

/-- The place of a column. -/
def columnPlace? (t : Table) (name : String) : Option Nat :=
  t.columns.findIdx? fun c => sameName c.1 name

/-- The rows in the order of some columns. -/
def sortedBy (t : Table) (index : List String) : List (List Value) :=
  let places := index.filterMap t.columnPlace?
  let key (row : List Value) : List Value := places.map fun i => (row[i]?).getD .null
  t.rows.mergeSort fun a b => (orderRows (key a) (key b)).isLE

/-- The table with its rows in the order in which a demand meets them. -/
def scanned (t : Table) (d : Demand) : Table :=
  match t.chosenIndex? d with
  | some index => { t with rows := t.sortedBy index }
  | none => t

end Table

end CodeMap.Sql
