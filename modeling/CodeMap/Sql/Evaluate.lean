/-
Answering queries over tables. Rows are taken from the sources in their order,
kept if the conditions hold, put into groups if something sums them up, and
then ordered and cut.

Names are looked up in the row at hand first and in the rows of the enclosing
queries after that. So that a wrong name is found also when there are no rows,
every expression is evaluated once on a row of nulls.
-/
import CodeMap.Sql.Function
import CodeMap.Sql.Mention

namespace CodeMap.Sql

/-- What is wrong with a query, and where, if the place is known. -/
structure QueryFault where
  message : String
  offset : Option Nat := none

/-- A row of a source. -/
structure Binding where
  label : String
  columns : List (String × Affinity)
  values : List Value

/-- The rows, one per source, that an expression is about. -/
abbrev Scope := List Binding

structure Environment where
  tables : List (String × Table)
  /-- Scopes of the query and of those around it, innermost first. -/
  scopes : List Scope
  /-- The rows of the group that is summed up, if there is one. -/
  group : Option (List Scope) := none

abbrev Evaluation := Except QueryFault

/-- The tables with their rows in the order in which a demand meets them. -/
def Environment.scanning (env : Environment) (demand : Option Demand) : Environment :=
  match demand with
  | some d => { env with tables := env.tables.map fun (n, t) => (n, t.scanned d) }
  | none => env

namespace Binding

/-- The values of a column, with the column's name and preference. -/
def find (b : Binding) (name : String) : List (Value × Affinity × String) :=
  ((b.columns.zip b.values).filter fun (c, _) => sameName c.1 name).map fun (c, v) =>
    (v, c.2, c.1)

/-- A row of nulls. -/
def blank (label : String) (columns : List (String × Affinity)) : Binding :=
  ⟨label, columns, columns.map fun _ => .null⟩

end Binding

/-- Finds a column in the innermost scope that has it. -/
def findColumn (table : Option String) (name : String) :
    List Scope → Option (List (Value × Affinity × String))
  | [] => none
  | scope :: outer =>
    let sources := scope.filter fun b => table.all (sameName b.label)
    match sources.flatMap (·.find name) with
    | [] => findColumn table name outer
    | found => some found

/-- A column as it is written. -/
def columnText (table : Option String) (name : String) : String :=
  match table with
  | some t => t ++ "." ++ name
  | none => name

/-- Looks a column up. -/
def lookupColumn (env : Environment) (table : Option String) (name : String) (quoted : Bool)
    (offset : Nat) : Evaluation (Value × Affinity) :=
  match findColumn table name env.scopes with
  | some [(v, a, _)] => .ok (v, a)
  | some _ => .error ⟨"ambiguous column name: " ++ columnText table name, some offset⟩
  | none =>
    if quoted then .ok (.text name, .none)
    else .error ⟨"no such column: " ++ columnText table name, some offset⟩

/-- Brings two values to terms before they are compared: what a numeric column
is compared with becomes a number, what a text column is compared with a text. -/
def reconcile (a b : Value × Affinity) : Value × Value :=
  match a.2, b.2 with
  | .numeric, .numeric => (a.1, b.1)
  | .numeric, _ => (a.1, b.1.prefer .numeric)
  | _, .numeric => (a.1.prefer .numeric, b.1)
  | .text, .none => (a.1, b.1.prefer .text)
  | .none, .text => (a.1.prefer .text, b.1)
  | _, _ => (a.1, b.1)

/-- A comparison; with null it is unknown. -/
def comparison (test : Ordering → Bool) (a b : Value × Affinity) : Value :=
  let (x, y) := reconcile a b
  if x.isNull || y.isNull then .null else .ofBool (test (x.order y))

/-- Conjunction of truth values that may be unknown. -/
def both : Option Bool → Option Bool → Option Bool
  | some false, _ => some false
  | _, some false => some false
  | some true, some true => some true
  | _, _ => none

/-- Negation of a truth value that may be unknown. -/
def neither (a : Option Bool) : Option Bool := a.map (!·)

/-- Disjunction of truth values that may be unknown. -/
def either (a b : Option Bool) : Option Bool := neither (both (neither a) (neither b))

/-- An operator on whole numbers of 64 bits. -/
def bitwise (f : Nat → Nat → Nat) (a b : Value) : Value :=
  if a.isNull || b.isNull then .null
  else
    let bits (v : Value) : Nat := (v.toWhole % (span64 : Int)).toNat
    .integer (Int.bmod (f (bits a) (bits b)) span64)

/-- Applies an operator. -/
def applyOperator (op : Operator) (a b : Value × Affinity) : Value :=
  match op with
  | .add => a.1.add b.1
  | .sub => a.1.sub b.1
  | .mul => a.1.mul b.1
  | .div => a.1.div b.1
  | .rem => a.1.rem b.1
  | .concat => a.1.concat b.1
  | .eq => comparison (· == .eq) a b
  | .ne => comparison (· != .eq) a b
  | .lt => comparison (· == .lt) a b
  | .le => comparison (· != .gt) a b
  | .gt => comparison (· == .gt) a b
  | .ge => comparison (· != .lt) a b
  | .is =>
    let (x, y) := reconcile a b
    .ofBool (x.order y == .eq)
  | .isNot =>
    let (x, y) := reconcile a b
    .ofBool (x.order y != .eq)
  | .and => .ofTruth (both a.1.truth b.1.truth)
  | .or => .ofTruth (either a.1.truth b.1.truth)
  | .like =>
    match a.1.toText?, b.1.toText? with
    | some text, some pattern => .ofBool (isLike pattern text)
    | _, _ => .null
  | .glob =>
    match a.1.toText?, b.1.toText? with
    | some text, some pattern => .ofBool (isGlob pattern text)
    | _, _ => .null
  | .bitAnd => bitwise Nat.land a.1 b.1
  | .bitOr => bitwise Nat.lor a.1 b.1
  | .shiftLeft => bitwise (fun x n => if n < 64 then x * Nat.pow 2 n else 0) a.1 b.1
  | .shiftRight => bitwise (fun x n => if n < 64 then x / Nat.pow 2 n else 0) a.1 b.1

def applySign (op : SignOperator) (v : Value) : Value :=
  match op with
  | .plus => v
  | .minus => Value.sub (.integer 0) v
  | .invert => if v.isNull then .null else .integer (-v.toWhole - 1)
  | .not => .ofTruth (neither v.truth)

/-- The preference of a type's name. -/
def typeAffinity (type : String) : Affinity :=
  let t := type.toUpper.toList
  let holds (part : String) : Bool := positionOf part.toList 1 t != 0
  if holds "INT" then .numeric
  else if holds "CHAR" || holds "CLOB" || holds "TEXT" then .text
  else if holds "BLOB" then .none
  else .numeric

/-- Converts a value to a type. -/
def castTo (type : String) (v : Value) : Value :=
  let t := type.toUpper.toList
  let holds (part : String) : Bool := positionOf part.toList 1 t != 0
  if v.isNull then .null
  else if holds "INT" then .integer v.toWhole
  else if typeAffinity type = .text then .text (v.toText?.getD "")
  else if holds "BLOB" then
    match v with
    | .blob bytes => .blob bytes
    | v => .blob (v.toText?.getD "").toUTF8.toList
  else if holds "REAL" || holds "FLOA" || holds "DOUB" then .real v.toNumber.toFloat
  else v.toNumber

/-- Whether two rows hold the same values. -/
def sameRow (a b : List Value) : Bool :=
  a.length == b.length && (a.zip b).all fun (x, y) => x.order y == .eq

def sortedRowSet (rows : List (List Value)) : List (List Value) :=
  (rows.mergeSort fun a b => (orderRows a b).isLE).eraseDupsBy sameRow

/-- Puts the rows of two queries together. -/
def combine (op : Compound) (a b : List (List Value)) : List (List Value) :=
  match op with
  | .unionAll => a ++ b
  | .union => sortedRowSet (a ++ b)
  | .except => sortedRowSet (a.filter fun r => !b.any (sameRow r))
  | .intersect => sortedRowSet (a.filter fun r => b.any (sameRow r))

/-- Whether an expression sums up a group. Queries inside it stand for
themselves. -/
def aggregates : Nat → Expr → Bool
  | 0, _ => false
  | fuel + 1, e =>
    match e with
    | .literal _ | .column .. | .parameter | .scalar _ | .nonempty _ => false
    | .sign _ a => aggregates fuel a
    | .binary _ a b => aggregates fuel a || aggregates fuel b
    | .between a b c => aggregates fuel a || aggregates fuel b || aggregates fuel c
    | .within a items => aggregates fuel a || items.any (aggregates fuel)
    | .withinQuery a _ => aggregates fuel a
    | .call f _ all args _ =>
      (sumsUp f.toLower args.length && (all || f.toLower == "count" || args.length > 0)) ||
      args.any (aggregates fuel)
    | .choose base branches otherwise =>
      base.any (aggregates fuel) || otherwise.any (aggregates fuel) ||
      branches.any fun (a, b) => aggregates fuel a || aggregates fuel b
    | .cast a _ => aggregates fuel a

/-- A row that a query gives, with the environment it comes from. -/
structure Answer where
  source : Environment
  values : List Value

/-- Rows with their sort keys, in order; `falls` tells which keys fall. -/
def sortAnswers (falls : List Bool) (rows : List (List Value × Answer)) : List Answer :=
  let orderKeys (a b : List Value) : Ordering :=
    ((a.zip b).zip falls).foldl
      (fun o ((x, y), down) => o.then (if down then y.order x else x.order y)) .eq
  (rows.mergeSort fun a b => (orderKeys a.1 b.1).isLE).map (·.2)

/-- Puts rows with equal keys together, in the order of the keys. -/
def groupRows (keyed : List (List Value × Scope)) : List (List Scope) :=
  let sorted := keyed.mergeSort fun a b => (orderRows a.1 b.1).isLE
  (sorted.splitBy fun a b => sameRow a.1 b.1).map fun rows => rows.map (·.2)

/-- The first row with the largest or the smallest value. Nulls count only if
there is nothing else. -/
def pickRow (larger : Bool) (keyed : List (Value × Scope)) : Option Scope :=
  let step (best next : Value × Scope) : Value × Scope :=
    if next.1.isNull then best
    else if best.1.isNull then next
    else if next.1.order best.1 == (if larger then .gt else .lt) then next
    else best
  match keyed with
  | [] => none
  | first :: rest => some (rest.foldl step first).2

/-- How many rows a query that reads its own rows gives at most. -/
def recursionLimit : Nat := 4096

mutual

/-- The value of an expression, with the preference it brings to comparisons. -/
def evaluate : Nat → Environment → Expr → Evaluation (Value × Affinity)
  | 0, _, _ => .error ⟨"parser stack overflow", none⟩
  | fuel + 1, env, e =>
    let plain (v : Value) : Evaluation (Value × Affinity) := .ok (v, .none)
    match e with
    | .literal v => plain v
    | .column table name quoted offset => lookupColumn env table name quoted offset
    | .parameter => plain .null
    | .sign op a => do
      let (v, _) ← evaluate fuel env a
      plain (applySign op v)
    | .binary op a b => do
      let x ← evaluate fuel env a
      let y ← evaluate fuel env b
      plain (applyOperator op x y)
    | .between a low high => do
      let x ← evaluate fuel env a
      let y ← evaluate fuel env low
      let z ← evaluate fuel env high
      plain (applyOperator .and (applyOperator .ge x y, .none) (applyOperator .le x z, .none))
    | .within a items => do
      let x ← evaluate fuel env a
      let vs ← items.mapM (evaluate fuel env)
      plain (.ofTruth (vs.foldl (fun t v =>
        either t (applyOperator .eq x (v.1, .none)).truth) (some false)))
    | .withinQuery a q => do
      let x ← evaluate fuel env a
      let table ← answer fuel { env with group := none } q
      let vs := table.rows.filterMap List.head?
      plain (.ofTruth (vs.foldl (fun t v =>
        either t (applyOperator .eq x (v, .none)).truth) (some false)))
    | .call f distinct all args offset => do
      let name := f.toLower
      if sumsUp name args.length then
        match env.group with
        | none => .error ⟨"misuse of aggregate: " ++ f ++ "()", some offset⟩
        | some rows => do
          let outer := env.scopes.tail
          let valuesOf (arg : Expr) : Evaluation (List Value) := do
            let vs ← rows.mapM fun row =>
              evaluate fuel { env with scopes := row :: outer, group := none } arg
            return (vs.map (·.1)).filter fun v => !v.isNull
          let values ← match args with
            | [] => if all || name == "count" then pure (rows.map fun _ => Value.integer 1)
                    else .error ⟨"wrong number of arguments to function " ++ f ++ "()", some offset⟩
            | arg :: _ => valuesOf arg
          let values := if distinct then distinctValues values else values
          let separator ← match args with
            | [_, s] => do pure (((← evaluate fuel env s).1.toText?).getD "")
            | _ => pure ","
          plain ((summarize? name values separator).getD .null)
      else
        let vs ← args.mapM (evaluate fuel env)
        match applyFunction? name (vs.map (·.1)) with
        | some v => plain v
        | none =>
          let problem := if isFunction name then "wrong number of arguments to function " ++ f ++ "()"
            else "no such function: " ++ f
          .error ⟨problem, some offset⟩
    | .choose base branches otherwise => do
      let subject ← base.mapM (evaluate fuel env)
      let tested ← branches.mapM fun (c, r) => do
        let x ← evaluate fuel env c
        let holds := match subject with
          | some s => (applyOperator .eq s x).truth == some true
          | none => x.1.truth == some true
        return (holds, ← evaluate fuel env r)
      match tested.find? (·.1), otherwise with
      | some (_, v), _ => plain v.1
      | none, some o => plain (← evaluate fuel env o).1
      | none, none => plain .null
    | .cast a type => do
      let (v, _) ← evaluate fuel env a
      .ok (castTo type v, typeAffinity type)
    | .scalar q => do
      let table ← answer fuel { env with group := none } q
      plain ((table.rows.head?.bind List.head?).getD .null)
    | .nonempty q => do
      let table ← answer fuel { env with group := none } q
      plain (.ofBool (!table.rows.isEmpty))

/-- The rows of a source, with its label and columns. -/
def sourceRows : Nat → Environment → Source → Evaluation (String × Table)
  | 0, _, _ => .error ⟨"parser stack overflow", none⟩
  | fuel + 1, env, source =>
    match source with
    | .table name label =>
      match env.tables.find? fun (n, _) => sameName n name with
      | some (_, table) => .ok (label.getD name, table)
      | none => .error ⟨"no such table: " ++ name, none⟩
    | .derived q label => do
      let table ← answer fuel { env with group := none } q
      .ok (label.getD "", table)

/-- Joins sources from left to right. Gives the rows and a row of nulls. -/
def joinSources : Nat → Environment → List Scope → Scope → List Join →
    Evaluation (List Scope × Scope)
  | 0, _, _, _, _ => .error ⟨"parser stack overflow", none⟩
  | _, _, rows, blank, [] => .ok (rows, blank)
  | fuel + 1, env, rows, blank, .mk source keepsUnmatched condition :: rest => do
    let (label, table) ← sourceRows fuel env source
    let blank' := blank ++ [Binding.blank label table.columns]
    let holds (scope : Scope) : Evaluation Bool :=
      match condition with
      | none => .ok true
      | some c => do
        let (v, _) ← evaluate fuel { env with scopes := scope :: env.scopes, group := none } c
        return v.truth == some true
    let _ ← holds blank'
    let joined ← rows.mapM fun left => do
      let candidates := table.rows.map fun r => left ++ [⟨label, table.columns, r⟩]
      let matching ← candidates.filterM holds
      return if matching.isEmpty && keepsUnmatched then [left ++ [Binding.blank label table.columns]]
        else matching
    joinSources fuel env joined.flatten blank' rest

/-- The columns of a query: for each its name and its expression. -/
def expandColumns : Nat → Scope → List Column → Evaluation (List (String × Expr))
  | 0, _, _ => .error ⟨"parser stack overflow", none⟩
  | _, _, [] => .ok []
  | fuel + 1, blank, c :: rest => do
    let all (bs : List Binding) : List (String × Expr) :=
      bs.flatMap fun b => b.columns.map fun (n, _) => (n, .column (some b.label) n false 0)
    let here ← match c with
      | .all =>
        if blank.isEmpty then .error ⟨"no tables specified", none⟩ else pure (all blank)
      | .allOf t =>
        match blank.filter fun b => sameName b.label t with
        | [] => .error ⟨"no such table: " ++ t, none⟩
        | found => pure (all found)
      | .expr e label text =>
        let name := match label, e with
          | some l, _ => l
          | none, .column table n _ _ =>
            match findColumn table n [blank] with
            | some ((_, _, declared) :: _) => declared
            | _ => text
          | none, _ => text
        pure [(name, e)]
    return here ++ (← expandColumns fuel blank rest)

/-- The rows of the body of a query before they are ordered, with the names of
the columns. `order` holds the terms that will order them. -/
def bodyAnswers : Nat → Environment → List Expr → Body →
    Evaluation (List String × List Answer × List Affinity)
  | 0, _, _, _ => .error ⟨"parser stack overflow", none⟩
  | fuel + 1, env, order, body =>
    match body with
    | .values rows => do
      let answers ← rows.mapM fun row => do
        let vs ← row.mapM (evaluate fuel env)
        return (⟨env, vs.map (·.1)⟩ : Answer)
      let width := (rows.head?.map List.length).getD 0
      let names := (List.range width).map fun i => "column" ++ toString (i + 1)
      if rows.any fun r => r.length != width then
        .error ⟨"all VALUES must have the same number of terms", none⟩
      else return (names, answers, names.map fun _ => .none)
    | .select distinct columns sources filter groups having => do
      let (scopes, blank) ← joinSources fuel (env.scanning (body.demand fuel order)) [[]] [] sources
      let columns ← expandColumns fuel blank columns
      let at_ (scope : Scope) : Environment := { env with scopes := scope :: env.scopes, group := none }
      let labels := columns.map (·.1)
      let named (e : Expr) : Expr :=
        match e with
        | .column none n _ _ =>
          match findColumn none n [blank], columns.find? fun (l, _) => sameName l n with
          | none, some (_, e) => e
          | _, _ => e
        | .literal (.integer k) =>
          ((columns[(k - 1).toNat]?).map (·.2)).getD e
        | _ => e
      let groups := groups.map named
      let sums := !groups.isEmpty || (columns.map (·.2) ++ order ++ having.toList).any (aggregates fuel)
      let probe := { at_ blank with group := if sums then some [] else none }
      let kinds ← columns.mapM fun (_, e) => do return (← evaluate fuel probe e).2
      let _ ← filter.mapM (evaluate fuel (at_ blank))
      let _ ← groups.mapM (evaluate fuel (at_ blank))
      let kept ← match filter with
        | none => pure scopes
        | some f => scopes.filterM fun s => do
          return (← evaluate fuel (at_ s) f).1.truth == some true
      let environments ← if !sums then pure (kept.map at_)
        else do
          let rowGroups ← if groups.isEmpty then pure [kept]
            else do
              let keyed ← kept.mapM fun s => do
                let vs ← groups.mapM (evaluate fuel (at_ s))
                return (vs.map (·.1), s)
              pure (groupRows keyed)
          let envs ← rowGroups.mapM fun rows => do
            let shown ← match columns.flatMap fun (_, e) => e.picks fuel with
              | [(larger, e)] => do
                let keyed ← rows.mapM fun s => do return ((← evaluate fuel (at_ s) e).1, s)
                pure (pickRow larger keyed)
              | _ => pure rows.head?
            return { at_ (shown.getD blank) with group := some rows }
          match having with
          | none => pure envs
          | some h => envs.filterM fun g => do
            return (← evaluate fuel g h).1.truth == some true
      let answers ← environments.mapM fun g => do
        let vs ← columns.mapM fun (_, e) => evaluate fuel g e
        return (⟨g, vs.map (·.1)⟩ : Answer)
      let answers := if distinct then answers.eraseDupsBy fun a b => sameRow a.values b.values
        else answers
      return (labels, answers, kinds)

/-- The sort key of an answer for one term: a column given by its number or its
label, or an expression. -/
def sortKey : Nat → List String → Answer → Expr → Evaluation Value
  | 0, _, _, _ => .error ⟨"parser stack overflow", none⟩
  | fuel + 1, labels, a, e =>
    let labelled (n : String) : Option Value :=
      (labels.findIdx? (sameName n)).bind fun i => a.values[i]?
    match e with
    | .literal (.integer k) =>
      match a.values[(k - 1).toNat]? with
      | some v => .ok v
      | none => .error ⟨"1st ORDER BY term out of range - should be between 1 and " ++
          toString a.values.length, none⟩
    | .column none n _ _ =>
      match labelled n with
      | some v => .ok v
      | none => do return (← evaluate fuel a.source e).1
    | _ => do return (← evaluate fuel a.source e).1

/-- The rows a query gives. -/
def answer : Nat → Environment → Query → Evaluation Table
  | 0, _, _ => .error ⟨"parser stack overflow", none⟩
  | fuel + 1, env, .mk named first others order limit offset => do
    let env ← named.foldlM (fun (env : Environment) (name, columns, q) => do
      let table ← namedTable fuel env name columns q
      return { env with tables := (name, table) :: env.tables }) env
    let (labels, answers, kinds) ← bodyAnswers fuel env (order.map (·.1)) first
    let answers ← others.foldlM (fun (done : List Answer) (op, body) => do
      let (more, rows, _) ← bodyAnswers fuel env [] body
      if more.length != labels.length then
        .error ⟨"SELECTs to the left and right of " ++ compoundText op ++
          " do not have the same number of result columns", none⟩
      else
        let joined := combine op (done.map (·.values)) (rows.map (·.values))
        return joined.map fun vs => (⟨env, vs⟩ : Answer)) answers
    let answers ← if order.isEmpty then pure answers
      else do
        let keyed ← answers.mapM fun a => do
          return (← order.mapM fun (e, _) => sortKey fuel labels a e, a)
        pure (sortAnswers (order.map (·.2)) keyed)
    let whole? (e : Option Expr) : Evaluation (Option Int) :=
      match e with
      | none => .ok none
      | some e => do return some (← evaluate fuel env e).1.toWhole
    let skip := ((← whole? offset).getD 0).toNat
    let rows := (answers.map (·.values)).drop skip
    let rows := match ← whole? limit with
      | some n => if n < 0 then rows else rows.take n.toNat
      | none => rows
    return { columns := labels.zip kinds, rows }

/-- The table of a named query. If its last part reads the table itself, that
part is answered for every row of the table in turn, and its rows are put to
the end; rows that are there already stay out unless all rows are kept. -/
def namedTable : Nat → Environment → String → List String → Query → Evaluation Table
  | 0, _, _, _, _ => .error ⟨"parser stack overflow", none⟩
  | fuel + 1, env, name, columns, q => do
    let rename (t : Table) : Table :=
      if columns.isEmpty then t
      else { t with columns := (columns.zip t.columns).map fun (n, c) => (n, c.2) }
    match q with
    | .mk inner first others order limit offset =>
      match others.getLast? with
      | some (op, step) =>
        if step.readsFrom name then do
          let start := rename (← answer fuel env (.mk inner first others.dropLast [] none none))
          let grown ← (List.range recursionLimit).foldlM
            (fun (rows : List (List Value)) i => do
              match rows[i]? with
              | none => return rows
              | some row =>
                let here := { env with tables := (name, { start with rows := [row] }) :: env.tables }
                let (_, more, _) ← bodyAnswers fuel here [] step
                let more := more.map (·.values)
                let fresh := if op = .unionAll then more
                  else more.filter fun r => !rows.any (sameRow r)
                return rows ++ fresh) start.rows
          return { start with rows := grown }
        else return rename (← answer fuel env (.mk inner first others order limit offset))
      | none => return rename (← answer fuel env (.mk inner first others order limit offset))

/-- How a compound is written. -/
def compoundText : Compound → String
  | .union => "UNION"
  | .unionAll => "UNION ALL"
  | .except => "EXCEPT"
  | .intersect => "INTERSECT"

end

end CodeMap.Sql
