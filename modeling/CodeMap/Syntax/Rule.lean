/-
Grammars as data. A rule describes a stretch of items; reading a rule yields
the syntax trees for that stretch, in order. Choice is ordered and a repetition
takes as much as it can, so reading has at most one result.

A rule never makes up positions: leaves come from tokens, and the extent of a
node runs from its first child to its last. Trees are therefore nested and
ordered as soon as the tokens are.

Reading is bounded by a fuel that limits the depth of the reading; a rule that
runs out of it does not apply. Each item costs a bounded number of steps of
depth, so a fuel in proportion to the number of tokens is enough for a grammar
whose repetitions consume something in every round.
-/
import CodeMap.Syntax.Tree

namespace CodeMap.Syntax

/-- A grammar rule over the nonterminals `ν`. -/
inductive Rule (ν : Type) where
  /-- Nothing. -/
  | nothing
  /-- One token that passes the test, as a leaf of the given kind; without a
  kind the leaf is named by its text. -/
  | leaf (kind : Option String) (test : Token → Bool)
  /-- A whole group whose opening passes the test; its items are read, all of
  them, by the inner rule. -/
  | group (test : Token → Bool) (inner : Rule ν)
  /-- A whole group that comes from layout. -/
  | block (inner : Rule ν)
  | seq (a b : Rule ν)
  | alt (a b : Rule ν)
  | many (r : Rule ν)
  /-- The rule applies here; nothing is consumed. -/
  | ahead (r : Rule ν)
  /-- The rule does not apply here; nothing is consumed. -/
  | absent (r : Rule ν)
  /-- The next item starts with a token that passes the test. -/
  | next (test : Token → Bool)
  /-- One item, token or group, that starts with a token that passes the test;
  nothing inside it is looked at. -/
  | item (test : Token → Bool)
  /-- No item is left. -/
  | done
  | call (n : ν)
  /-- What the rule reads becomes the children of a new node. -/
  | node (kind : String) (r : Rule ν)
  /-- What the rule reads fills a field of the node around it. -/
  | field (name : String) (r : Rule ν)
  /-- A head followed by as many links as apply. -/
  | chain (head links : Rule ν)
  /-- A link of a chain: what was read so far fills `field` of a new node, and
  what the rule reads follows it. It applies nowhere else. -/
  | link (kind field : String) (r : Rule ν)

namespace Rule

variable {ν : Type}

instance : Inhabited (Rule ν) := ⟨nothing⟩

instance : Append (Rule ν) := ⟨seq⟩

instance : OrElse (Rule ν) := ⟨fun a b => alt a (b ())⟩

/-- The rule, or nothing. -/
def opt (r : Rule ν) : Rule ν := alt r nothing

/-- A rule that never applies. -/
def never : Rule ν := absent nothing

/-- The first rule of a list that applies. -/
def firstOf (rs : List (Rule ν)) : Rule ν := rs.foldr alt never

/-- The rule at least once. -/
def oneOrMore (r : Rule ν) : Rule ν := seq r (many r)

/-- The rule at least once, with separators between. -/
def sepBy (r separator : Rule ν) : Rule ν := seq r (many (seq separator r))

/-- A word of that spelling. -/
def word (w : String) : Rule ν := leaf none (·.isWord w)

/-- One of several words. -/
def words (ws : List String) : Rule ν := leaf none (·.isOneOf .word ws)

/-- A symbol of that spelling. -/
def symbol (s : String) : Rule ν := leaf none (·.isSymbol s)

/-- One of several symbols. -/
def symbols (ss : List String) : Rule ν := leaf none (·.isOneOf .symbol ss)

/-- A group with that opening. -/
def bracket (opening : String) (inner : Rule ν) : Rule ν := group (·.isOpening opening) inner

/-- A group with that opening, its inside not looked at. -/
def sealed (opening : String) : Rule ν := item (·.isOpening opening)

/-- Any item. -/
def anything : Rule ν := item fun _ => true

/-- Any single token. -/
def token : Rule ν := leaf none fun _ => true

end Rule

/-- Where reading stands: the items left. -/
abbrev Rest := List Item

/-- A leaf for a token. -/
def leafOf (kind : Option String) (t : Token) : Tree :=
  .node (kind.getD t.text) none t.extent []

/-- The stretch from the first tree of a list to the last. -/
def extentOf : List Tree → Extent
  | [] => ⟨⟨0, 0⟩, ⟨0, 0⟩⟩
  | first :: rest => ⟨first.extent.start, ((first :: rest).getLast (by simp)).extent.stop⟩

/-- A node over the given children, filling no field yet. -/
def nodeOver (kind : String) (children : List Tree) : Tree :=
  .node kind none (extentOf children) children

/-- Gives a field to every tree of a list. -/
def fill (f : String) (ts : List Tree) : List Tree := ts.map (·.withField f)

mutual

/-- Reads a rule at the start of the items. -/
def read {ν : Type} (g : ν → Rule ν) : Nat → Rule ν → Rest → Option (List Tree × Rest)
  | 0, _, _ => none
  | fuel + 1, rule, items =>
    match rule with
    | .nothing => some ([], items)
    | .leaf kind test =>
      match items with
      | .token t :: rest => if test t then some ([leafOf kind t], rest) else none
      | _ => none
    | .group test inner =>
      match items with
      | .group (some o) inside c :: rest =>
        if test o then
          match read g fuel inner inside with
          | some (ts, []) => some (leafOf none o :: ts ++ (c.map (leafOf none)).toList, rest)
          | _ => none
        else none
      | _ => none
    | .block inner =>
      match items with
      | .group none inside _ :: rest =>
        match read g fuel inner inside with
        | some (ts, []) => some (ts, rest)
        | _ => none
      | _ => none
    | .seq a b =>
      match read g fuel a items with
      | some (ts, rest) =>
        match read g fuel b rest with
        | some (us, rest') => some (ts ++ us, rest')
        | none => none
      | none => none
    | .alt a b =>
      match read g fuel a items with
      | some r => some r
      | none => read g fuel b items
    | .many r => some (readMany g fuel r items)
    | .ahead r =>
      match read g fuel r items with
      | some _ => some ([], items)
      | none => none
    | .absent r =>
      match read g fuel r items with
      | some _ => none
      | none => some ([], items)
    | .next test =>
      match items.head?.bind Item.firstToken? with
      | some t => if test t then some ([], items) else none
      | none => none
    | .item test =>
      match items with
      | i :: rest =>
        if i.firstToken?.any test then some (i.tokens.map (leafOf none), rest) else none
      | [] => none
    | .done => if items.isEmpty then some ([], items) else none
    | .call n => read g fuel (g n) items
    | .node kind r =>
      match read g fuel r items with
      | some (ts, rest) => some ([nodeOver kind ts], rest)
      | none => none
    | .field f r =>
      match read g fuel r items with
      | some (ts, rest) => some (fill f ts, rest)
      | none => none
    | .chain head links =>
      match read g fuel head items with
      | some (ts, rest) => some (readLinks g fuel links ts rest)
      | none => none
    | .link _ _ _ => none

/-- Reads a rule as often as it applies and consumes something. -/
def readMany {ν : Type} (g : ν → Rule ν) : Nat → Rule ν → Rest → List Tree × Rest
  | 0, _, items => ([], items)
  | fuel + 1, r, items =>
    match read g fuel r items with
    | some (ts, rest) =>
      if rest.length < items.length then
        let (us, rest') := readMany g fuel r rest
        (ts ++ us, rest')
      else ([], items)
    | none => ([], items)

/-- Extends what a chain has read by as many links as apply. -/
def readLinks {ν : Type} (g : ν → Rule ν) : Nat → Rule ν → List Tree → Rest → List Tree × Rest
  | 0, _, sofar, items => (sofar, items)
  | fuel + 1, links, sofar, items =>
    match readLink g fuel links sofar items with
    | some (ts, rest) =>
      if rest.length < items.length then readLinks g fuel links ts rest else (sofar, items)
    | none => (sofar, items)

/-- Tries the links of a choice on what a chain has read. -/
def readLink {ν : Type} (g : ν → Rule ν) :
    Nat → Rule ν → List Tree → Rest → Option (List Tree × Rest)
  | 0, _, _, _ => none
  | fuel + 1, rule, sofar, items =>
    match rule with
    | .alt a b =>
      match readLink g fuel a sofar items with
      | some r => some r
      | none => readLink g fuel b sofar items
    | .link kind f r =>
      match read g fuel r items with
      | some (ts, rest) => some ([nodeOver kind (fill f sofar ++ ts)], rest)
      | none => none
    | .call n => readLink g fuel (g n) sofar items
    | _ => none

end

/-- A grammar: its rules and the one that reads a whole file. -/
structure Grammar where
  Nonterminal : Type
  rules : Nonterminal → Rule Nonterminal
  start : Rule Nonterminal
  /-- Kind of the root node. -/
  root : String

/-- Steps of depth that one token may cost. -/
def depthPerToken : Nat := 200

/-- The syntax tree of a file's items. Items that the grammar does not explain
are left out. -/
def Grammar.parse (g : Grammar) (items : List Item) : Tree :=
  let fuel := depthPerToken * ((Item.tokensOf items).length + 4)
  match read g.rules fuel g.start items with
  | some (ts, _) => nodeOver g.root ts
  | none => nodeOver g.root []

end CodeMap.Syntax
