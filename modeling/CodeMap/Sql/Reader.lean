/-
Reading statements from tokens. Operators bind as usual: arithmetic before
comparison, comparison before `NOT`, `AND` and `OR`.
-/
import CodeMap.Sql.Query
import CodeMap.Sql.Token

namespace CodeMap.Sql

/-- Why a statement cannot be read. -/
inductive ReadFault where
  /-- A token that does not belong where it stands. -/
  | unexpected (t : Token)
  /-- The text ends too early. -/
  | incomplete
  /-- Something that is no token. -/
  | unrecognized (t : Token)

/-- A reader takes tokens from the front. -/
abbrev Reader := StateT (List Token) (Except ReadFault)

namespace Reader

def fail {α : Type} : Reader α := do
  match ← get with
  | [] => throw .incomplete
  | t :: _ => if t.kind = .illegal then throw (.unrecognized t) else throw (.unexpected t)

def peek? : Reader (Option Token) := do return (← get).head?

def skip : Reader Unit := modify List.tail

/-- Whether a token is a word. -/
def isWord (w : String) (t : Token) : Bool := t.kind = .word && t.upper == w

def isSymbol (s : String) (t : Token) : Bool := t.kind = .symbol && t.text == s

/-- Takes a word if it is next. -/
def word? (w : String) : Reader Bool := do
  match ← peek? with
  | some t => if isWord w t then skip; return true else return false
  | none => return false

/-- Takes a symbol if it is next. -/
def symbol? (s : String) : Reader Bool := do
  match ← peek? with
  | some t => if isSymbol s t then skip; return true else return false
  | none => return false

def word (w : String) : Reader Unit := do
  if ← word? w then return () else fail

def symbol (s : String) : Reader Unit := do
  if ← symbol? s then return () else fail

/-- Words that are never names. -/
def reserved : List String :=
  ["SELECT", "FROM", "WHERE", "GROUP", "ORDER", "BY", "HAVING", "LIMIT", "UNION", "EXCEPT",
    "INTERSECT", "JOIN", "ON", "USING", "AS", "AND", "OR", "NOT", "IN", "IS", "NULL", "BETWEEN",
    "CASE", "WHEN", "THEN", "ELSE", "DISTINCT", "ALL", "EXISTS", "VALUES", "INTO",
    "SET", "TABLE", "CREATE", "DROP", "DELETE", "UPDATE", "INSERT"]

/-- Words that are no label without `AS`. -/
def notLabels : List String :=
  reserved ++ ["LEFT", "INNER", "CROSS", "OUTER", "NATURAL", "RIGHT", "FULL", "OFFSET", "ASC",
    "DESC", "LIKE", "GLOB", "COLLATE", "WINDOW", "ISNULL", "NOTNULL"]

/-- A name: a word that is not reserved, or a name in quotes. -/
def name : Reader String := do
  match ← peek? with
  | some t =>
    if t.kind = .name || t.kind = .string || (t.kind = .word && !reserved.contains t.upper) then
      skip
      return t.text
    else fail
  | none => fail

/-- A label, with or without `AS`. -/
def label? : Reader (Option String) := do
  if ← word? "AS" then return some (← name)
  match ← peek? with
  | some t =>
    if t.kind = .name || t.kind = .string || (t.kind = .word && !notLabels.contains t.upper) then
      skip
      return some t.text
    else return none
  | none => return none

/-- A name with a separator before every further one. -/
def namesAfter : Nat → Reader (List String)
  | 0 => return []
  | fuel + 1 => do
    if ← symbol? "," then return (← name) :: (← namesAfter fuel) else return []

end Reader

open Reader

/-- The value of a hexadecimal or decimal whole number, or of another number. -/
def numberValue (text : String) : Value :=
  match text.toList with
  | '0' :: x :: digits =>
    if x == 'x' || x == 'X' then
      let value (c : Char) : Nat :=
        if c.isDigit then c.toNat - 48 else if 'a' ≤ c then c.toNat - 87 else c.toNat - 55
      .ofInt (Int.bmod (digits.foldl (fun n c => n * 16 + value c) 0) span64)
    else ((Value.readNumber? text.toList).map (·.1)).getD .null
  | cs => ((Value.readNumber? cs).map (·.1)).getD .null

/-- The bytes of pairs of hexadecimal digits. -/
def blobBytes : List Char → List UInt8
  | a :: b :: rest =>
    let value (c : Char) : Nat :=
      if c.isDigit then c.toNat - 48 else if 'a' ≤ c then c.toNat - 87 else c.toNat - 55
    (value a * 16 + value b).toUInt8 :: blobBytes rest
  | _ => []

/-- Symbols of binary operators, by how tightly they bind. -/
def symbolOperators : List (List (String × Operator)) :=
  [[("||", .concat)],
    [("*", .mul), ("/", .div), ("%", .rem)],
    [("+", .add), ("-", .sub)],
    [("&", .bitAnd), ("|", .bitOr), ("<<", .shiftLeft), (">>", .shiftRight)],
    [("<", .lt), ("<=", .le), (">", .gt), (">=", .ge)]]

def equalityOperators : List (String × Operator) :=
  [("=", .eq), ("==", .eq), ("<>", .ne), ("!=", .ne)]

/-- Takes one of some symbols if it is next. -/
def operator? (table : List (String × Operator)) : Reader (Option Operator) := do
  match ← peek? with
  | some t =>
    if t.kind = .symbol then
      match table.lookup t.text with
      | some op => skip; return some op
      | none => return none
    else return none
  | none => return none

/-- An expression negated. -/
def negateIf (negated : Bool) (e : Expr) : Expr := if negated then .sign .not e else e

/-- The text between two places, without blanks around it. -/
def textBetween (sql : List Char) (start stop : Nat) : String :=
  let rec go (offset : Nat) : List Char → List Char
    | [] => []
    | c :: rest =>
      if offset < start then go (offset + c.utf8Size) rest
      else if offset < stop then c :: go (offset + c.utf8Size) rest
      else []
  let blank := Value.isSpace
  String.ofList ((((go 0 sql).dropWhile blank).reverse.dropWhile blank).reverse)

/-- A column after its first name. -/
def readColumn (t : Token) : Reader Expr := do
  let quoted := t.kind = .name && t.source.toList.head? == some '"'
  if ← symbol? "." then return .column (some t.text) (← name) false t.start
  return .column none t.text quoted t.start

/-- The words that announce a further source: whether it keeps rows without a
match. -/
def readJoinWord : Reader (Option Bool) := do
  if ← symbol? "," then return some false
  if ← word? "JOIN" then return some false
  if ← word? "INNER" then
    word "JOIN"
    return some false
  if ← word? "CROSS" then
    word "JOIN"
    return some false
  if ← word? "LEFT" then
    let _ ← word? "OUTER"
    word "JOIN"
    return some true
  return none

mutual

/-- Disjunctions. -/
def readExpr (sql : List Char) : Nat → Reader Expr
  | 0 => fail
  | fuel + 1 => do
    let a ← readAnd sql fuel
    readOrs sql fuel a

def readOrs (sql : List Char) : Nat → Expr → Reader Expr
  | 0, a => return a
  | fuel + 1, a => do
    if ← word? "OR" then
      let b ← readAnd sql fuel
      readOrs sql fuel (.binary .or a b)
    else return a

def readAnd (sql : List Char) : Nat → Reader Expr
  | 0 => fail
  | fuel + 1 => do
    let a ← readNot sql fuel
    readAnds sql fuel a

def readAnds (sql : List Char) : Nat → Expr → Reader Expr
  | 0, a => return a
  | fuel + 1, a => do
    if ← word? "AND" then
      let b ← readNot sql fuel
      readAnds sql fuel (.binary .and a b)
    else return a

def readNot (sql : List Char) : Nat → Reader Expr
  | 0 => fail
  | fuel + 1 => do
    if ← word? "NOT" then return .sign .not (← readNot sql fuel)
    let a ← readLevel sql fuel symbolOperators.reverse
    readTests sql fuel a

/-- Equality and its relatives, from left to right. -/
def readTests (sql : List Char) : Nat → Expr → Reader Expr
  | 0, a => return a
  | fuel + 1, a => do
    let side := readLevel sql fuel symbolOperators.reverse
    match ← operator? equalityOperators with
    | some op => readTests sql fuel (.binary op a (← side))
    | none =>
      if ← word? "ISNULL" then readTests sql fuel (.binary .is a (.literal .null))
      else if ← word? "NOTNULL" then readTests sql fuel (.binary .isNot a (.literal .null))
      else if ← word? "IS" then
        let op : Operator := if ← word? "NOT" then .isNot else .is
        readTests sql fuel (.binary op a (← side))
      else
        let negated ← word? "NOT"
        if ← word? "NULL" then
          if negated then readTests sql fuel (.binary .isNot a (.literal .null)) else fail
        else if ← word? "LIKE" then
          readTests sql fuel (negateIf negated (.binary .like a (← side)))
        else if ← word? "GLOB" then
          readTests sql fuel (negateIf negated (.binary .glob a (← side)))
        else if ← word? "BETWEEN" then
          let low ← side
          word "AND"
          let high ← side
          readTests sql fuel (negateIf negated (.between a low high))
        else if ← word? "IN" then
          symbol "("
          let e ← readWithin sql fuel a
          symbol ")"
          readTests sql fuel (negateIf negated e)
        else if negated then fail
        else return a

/-- What stands in the parentheses after `IN`. -/
def readWithin (sql : List Char) : Nat → Expr → Reader Expr
  | 0, _ => fail
  | fuel + 1, a => do
    match ← peek? with
    | some t =>
      if isWord "SELECT" t || isWord "VALUES" t || isWord "WITH" t then
        return .withinQuery a (← readQuery sql fuel)
      else if isSymbol ")" t then return .within a []
      else return .within a (← readItems sql fuel)
    | none => fail

/-- Operators of a level and all that bind tighter; the first level binds
least. -/
def readLevel (sql : List Char) : Nat → List (List (String × Operator)) → Reader Expr
  | 0, _ => fail
  | fuel + 1, [] => readSigned sql fuel
  | fuel + 1, level :: tighter => do
    let a ← readLevel sql fuel tighter
    readLevelRest sql fuel level tighter a

def readLevelRest (sql : List Char) :
    Nat → List (String × Operator) → List (List (String × Operator)) → Expr → Reader Expr
  | 0, _, _, a => return a
  | fuel + 1, level, tighter, a => do
    match ← operator? level with
    | some op =>
      let b ← readLevel sql fuel tighter
      readLevelRest sql fuel level tighter (.binary op a b)
    | none => return a

def readSigned (sql : List Char) : Nat → Reader Expr
  | 0 => fail
  | fuel + 1 => do
    if ← symbol? "-" then
      match ← peek? with
      | some t =>
        if t.kind = .number then
          skip
          match Value.readNumber? ('-' :: t.text.toList) with
          | some (v, []) => return .literal v
          | _ => return .sign .minus (.literal (numberValue t.text))
        else return .sign .minus (← readSigned sql fuel)
      | none => fail
    else if ← symbol? "+" then return .sign .plus (← readSigned sql fuel)
    else if ← symbol? "~" then return .sign .invert (← readSigned sql fuel)
    else readAtom sql fuel

def readAtom (sql : List Char) : Nat → Reader Expr
  | 0 => fail
  | fuel + 1 => do
    match ← peek? with
    | none => fail
    | some t =>
      match t.kind with
      | .number => skip; return .literal (numberValue t.text)
      | .string => skip; return .literal (.text t.text)
      | .blob => skip; return .literal (.blob (blobBytes t.text.toList))
      | .parameter => skip; return .parameter
      | .illegal => fail
      | .symbol =>
        if isSymbol "(" t then
          skip
          let e ← readParenthesis sql fuel
          symbol ")"
          return e
        else fail
      | .name => skip; readColumn t
      | .word =>
        match t.upper with
        | "NULL" => skip; return .literal .null
        | "TRUE" => skip; return .literal (.integer 1)
        | "FALSE" => skip; return .literal (.integer 0)
        | "CASE" => skip; readCase sql fuel
        | "CAST" =>
          skip
          symbol "("
          let e ← readExpr sql fuel
          word "AS"
          let type ← name
          symbol ")"
          return .cast e type
        | "EXISTS" =>
          skip
          symbol "("
          let q ← readQuery sql fuel
          symbol ")"
          return .nonempty q
        | w =>
          if reserved.contains w then fail
          else
            skip
            match ← peek? with
            | some p => if isSymbol "(" p then skip; readCall sql fuel t else readColumn t
            | none => readColumn t

/-- What stands in parentheses: a query or an expression. -/
def readParenthesis (sql : List Char) : Nat → Reader Expr
  | 0 => fail
  | fuel + 1 => do
    match ← peek? with
    | some t =>
      if isWord "SELECT" t || isWord "VALUES" t || isWord "WITH" t then
        return .scalar (← readQuery sql fuel)
      else readExpr sql fuel
    | none => fail

/-- A call after its opening parenthesis. -/
def readCall (sql : List Char) : Nat → Token → Reader Expr
  | 0, _ => fail
  | fuel + 1, t => do
    if ← symbol? "*" then
      symbol ")"
      return .call t.text false true [] t.start
    if ← symbol? ")" then return .call t.text false false [] t.start
    let distinct ← word? "DISTINCT"
    let args ← readItems sql fuel
    symbol ")"
    return .call t.text distinct false args t.start

/-- A choice after `CASE`. -/
def readCase (sql : List Char) : Nat → Reader Expr
  | 0 => fail
  | fuel + 1 => do
    let base ← match ← peek? with
      | some t => if isWord "WHEN" t then pure none else some <$> readExpr sql fuel
      | none => fail
    let branches ← readBranches sql fuel
    let otherwise ← if ← word? "ELSE" then some <$> readExpr sql fuel else pure none
    word "END"
    return .choose base branches otherwise

def readBranches (sql : List Char) : Nat → Reader (List (Expr × Expr))
  | 0 => fail
  | fuel + 1 => do
    if ← word? "WHEN" then
      let condition ← readExpr sql fuel
      word "THEN"
      let result ← readExpr sql fuel
      return (condition, result) :: (← readBranches sql fuel)
    else return []

/-- Expressions with commas between them. -/
def readItems (sql : List Char) : Nat → Reader (List Expr)
  | 0 => fail
  | fuel + 1 => do
    let e ← readExpr sql fuel
    if ← symbol? "," then return e :: (← readItems sql fuel) else return [e]

/-- The columns of a query. -/
def readColumns (sql : List Char) : Nat → Reader (List Column)
  | 0 => fail
  | fuel + 1 => do
    let c ← readResult sql fuel
    if ← symbol? "," then return c :: (← readColumns sql fuel) else return [c]

def readResult (sql : List Char) : Nat → Reader Column
  | 0 => fail
  | fuel + 1 => do
    match ← get with
    | t :: dot :: star :: _ =>
      if isSymbol "*" t then skip; return .all
      else if isSymbol "." dot && isSymbol "*" star && (t.kind = .word || t.kind = .name) then
        set (← get).tail.tail.tail
        return .allOf t.text
      else readLabelled sql fuel t.start
    | t :: _ => if isSymbol "*" t then skip; return .all else readLabelled sql fuel t.start
    | [] => fail

/-- An expression with its label and its text. -/
def readLabelled (sql : List Char) : Nat → Nat → Reader Column
  | 0, _ => fail
  | fuel + 1, start => do
    let e ← readExpr sql fuel
    let stop := ((← peek?).map (·.start)).getD (String.ofList sql).utf8ByteSize
    return .expr e (← label?) (textBetween sql start stop)

/-- The sources of a query, the first one already announced. -/
def readSources (sql : List Char) : Nat → Bool → Reader (List Join)
  | 0, _ => fail
  | fuel + 1, keepsUnmatched => do
    let source ← readSource sql fuel
    let condition ← if ← word? "ON" then some <$> readExpr sql fuel else pure none
    let join := Join.mk source keepsUnmatched condition
    match ← readJoinWord with
    | some keeps => return join :: (← readSources sql fuel keeps)
    | none => return [join]

def readSource (sql : List Char) : Nat → Reader Source
  | 0 => fail
  | fuel + 1 => do
    if ← symbol? "(" then
      let q ← readQuery sql fuel
      symbol ")"
      return .derived q (← label?)
    let first ← name
    let table ← if ← symbol? "." then name else pure first
    return .table table (← label?)

def readBody (sql : List Char) : Nat → Reader Body
  | 0 => fail
  | fuel + 1 => do
    if ← word? "VALUES" then return .values (← readRows sql fuel)
    word "SELECT"
    let distinct ← word? "DISTINCT"
    let _ ← if distinct then pure false else word? "ALL"
    let columns ← readColumns sql fuel
    let sources ← if ← word? "FROM" then readSources sql fuel false else pure []
    let filter ← if ← word? "WHERE" then some <$> readExpr sql fuel else pure none
    let groups ← if ← word? "GROUP" then do
        word "BY"
        readItems sql fuel
      else pure []
    let having ← if ← word? "HAVING" then some <$> readExpr sql fuel else pure none
    return .select distinct columns sources filter groups having

/-- The rows after `VALUES`. -/
def readRows (sql : List Char) : Nat → Reader (List (List Expr))
  | 0 => fail
  | fuel + 1 => do
    symbol "("
    let row ← readItems sql fuel
    symbol ")"
    if ← symbol? "," then return row :: (← readRows sql fuel) else return [row]

def readCompounds (sql : List Char) : Nat → Reader (List (Compound × Body))
  | 0 => fail
  | fuel + 1 => do
    let op ← do
      if ← word? "UNION" then
        if ← word? "ALL" then pure (some Compound.unionAll) else pure (some .union)
      else if ← word? "EXCEPT" then pure (some .except)
      else if ← word? "INTERSECT" then pure (some .intersect)
      else pure none
    match op with
    | some op =>
      let body ← readBody sql fuel
      return (op, body) :: (← readCompounds sql fuel)
    | none => return []

/-- Terms of an order: an expression and whether it falls. -/
def readOrder (sql : List Char) : Nat → Reader (List (Expr × Bool))
  | 0 => fail
  | fuel + 1 => do
    let e ← readExpr sql fuel
    let falls ← if ← word? "DESC" then pure true else do
      let _ ← word? "ASC"
      pure false
    if ← symbol? "," then return (e, falls) :: (← readOrder sql fuel) else return [(e, falls)]

/-- Named queries after `WITH`. -/
def readNamed (sql : List Char) : Nat → Reader (List (String × List String × Query))
  | 0 => fail
  | fuel + 1 => do
    let table ← name
    let columns ← if ← symbol? "(" then do
        let first ← name
        let rest ← namesAfter fuel
        symbol ")"
        pure (first :: rest)
      else pure []
    word "AS"
    symbol "("
    let q ← readQuery sql fuel
    symbol ")"
    let entry := (table, columns, q)
    if ← symbol? "," then return entry :: (← readNamed sql fuel) else return [entry]

def readQuery (sql : List Char) : Nat → Reader Query
  | 0 => fail
  | fuel + 1 => do
    let named ← if ← word? "WITH" then do
        let _ ← word? "RECURSIVE"
        readNamed sql fuel
      else pure []
    let first ← readBody sql fuel
    let others ← readCompounds sql fuel
    let order ← if ← word? "ORDER" then do
        word "BY"
        readOrder sql fuel
      else pure []
    if ← word? "LIMIT" then
      let a ← readExpr sql fuel
      if ← word? "OFFSET" then
        return .mk named first others order (some a) (some (← readExpr sql fuel))
      if ← symbol? "," then
        return .mk named first others order (some (← readExpr sql fuel)) (some a)
      return .mk named first others order (some a) none
    return .mk named first others order none none

end

/-- Reads up to the end of the statement. -/
def finish : Reader Unit := do
  match ← peek? with
  | none => return ()
  | some t => if isSymbol ";" t then return () else fail

/-- Words that start a statement that changes the database, with the words
before the name of a table that has to be there. -/
def changeWords : List (String × List String) :=
  [("DELETE", ["FROM"]), ("UPDATE", []), ("INSERT", ["INTO"]), ("REPLACE", ["INTO"]),
    ("DROP", ["TABLE"]), ("ALTER", ["TABLE"])]

/-- Reads a statement that changes the database, after its first word. -/
def readChange (before : List String) : Reader Statement := do
  for w in before do word w
  return .change (some (← name))

/-- Reads the first statement of a text. -/
def readStatement (sql : List Char) (fuel : Nat) : Reader Statement := do
  match ← peek? with
  | none => return .nothing
  | some t =>
    if t.kind = .word then
      match t.upper with
      | "SELECT" | "VALUES" | "WITH" =>
        let q ← readQuery sql fuel
        finish
        return .query q
      | "PRAGMA" =>
        skip
        return .pragma (← name)
      | "CREATE" | "VACUUM" | "REINDEX" | "ANALYZE" => return .change none
      | w =>
        match changeWords.lookup w with
        | some before =>
          skip
          readChange before
        | none => fail
    else fail

/-- The first statement of a text. Semicolons before it are passed over. -/
def parse (text : String) : Except ReadFault Statement :=
  let found := (tokens text).dropWhile (isSymbol ";")
  let fuel := 16 * (found.length + 1)
  (readStatement text.toList fuel).run' found

end CodeMap.Sql
