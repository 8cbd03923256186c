/-
What expressions and queries mention: columns, and functions that pick a row.
Depth is bounded by a fuel argument, as it is where expressions are evaluated.
-/
import CodeMap.Sql.Query
import CodeMap.Sql.Table

namespace CodeMap.Sql

mutual

/-- The names of the columns an expression mentions, queries inside it
included. -/
def Expr.mentions : Nat → Expr → List String
  | 0, _ => []
  | fuel + 1, e =>
    match e with
    | .literal _ | .parameter => []
    | .column _ name _ _ => [name]
    | .sign _ a | .cast a _ => a.mentions fuel
    | .binary _ a b => a.mentions fuel ++ b.mentions fuel
    | .between a b c => a.mentions fuel ++ b.mentions fuel ++ c.mentions fuel
    | .within a items => a.mentions fuel ++ items.flatMap (Expr.mentions fuel)
    | .withinQuery a q => a.mentions fuel ++ q.mentions fuel
    | .call _ _ _ args _ => args.flatMap (Expr.mentions fuel)
    | .choose base branches otherwise =>
      base.toList.flatMap (Expr.mentions fuel) ++ otherwise.toList.flatMap (Expr.mentions fuel) ++
        branches.flatMap fun (a, b) => a.mentions fuel ++ b.mentions fuel
    | .scalar q | .nonempty q => q.mentions fuel

/-- The names of the columns the body of a query mentions. -/
def Body.mentions : Nat → Body → List String
  | 0, _ => []
  | fuel + 1, b =>
    match b with
    | .values rows => rows.flatten.flatMap (Expr.mentions fuel)
    | .select _ columns sources filter groups having =>
      columns.flatMap (fun
        | .expr e _ _ => e.mentions fuel
        | _ => []) ++
      sources.flatMap (fun (.mk _ _ condition) =>
        condition.toList.flatMap (Expr.mentions fuel)) ++
      (filter.toList ++ groups ++ having.toList).flatMap (Expr.mentions fuel)

/-- The names of the columns a query mentions. -/
def Query.mentions : Nat → Query → List String
  | 0, _ => []
  | fuel + 1, .mk _ first others order limit offset =>
    first.mentions fuel ++ others.flatMap (fun (_, b) => b.mentions fuel) ++
      (order.map (·.1) ++ limit.toList ++ offset.toList).flatMap (Expr.mentions fuel)

end

/-- The columns that a condition makes equal to something known. -/
def Expr.fixes : Nat → Expr → List String
  | 0, _ => []
  | fuel + 1, e =>
    match e with
    | .binary .and a b => a.fixes fuel ++ b.fixes fuel
    | .binary .eq (.column _ name _ _) b => if (b.mentions fuel).isEmpty then [name] else []
    | .binary .eq a (.column _ name _ _) => if (a.mentions fuel).isEmpty then [name] else []
    | .within (.column _ name _ _) items =>
      if (items.flatMap (Expr.mentions fuel)).isEmpty then [name] else []
    | _ => []

/-- What the body of a query, whose rows are then ordered by some terms, wants
of its only table. -/
def Body.demand (fuel : Nat) (order : List Expr) (b : Body) : Option Demand :=
  match b with
  | .select _ columns [.mk (.table _ _) _ none] filter _ _ =>
    let takesAll := columns.any fun
      | .expr _ _ _ => false
      | _ => true
    let reads := b.mentions fuel ++ order.flatMap (Expr.mentions fuel)
    some ⟨if takesAll then none else some reads, filter.toList.flatMap (Expr.fixes fuel)⟩
  | _ => none

/-- The functions in an expression that pick the row with the largest or the
smallest value: whether it is the largest, and of what. -/
def Expr.picks : Nat → Expr → List (Bool × Expr)
  | 0, _ => []
  | fuel + 1, e =>
    match e with
    | .call f _ _ [a] _ =>
      if sameName f "max" then [(true, a)] else if sameName f "min" then [(false, a)]
      else a.picks fuel
    | .call _ _ _ args _ => args.flatMap (Expr.picks fuel)
    | .sign _ a | .cast a _ => a.picks fuel
    | .binary _ a b => a.picks fuel ++ b.picks fuel
    | _ => []

/-- Whether the body of a query reads from a table. -/
def Body.readsFrom (table : String) : Body → Bool
  | .values _ => false
  | .select _ _ sources _ _ _ => sources.any fun
    | .mk (.table name _) _ _ => sameName name table
    | _ => false

end CodeMap.Sql
