/-
Tokens of a source file and the bracketed groups they form.

A token knows where it lies, whether it is the first on its row and whether it
touches the token before it: layout and the finer points of a few grammars
depend on those. Grouping turns the flat list of tokens into a forest in which
a pair of brackets, a quoted text with code inside, or a pair of block keywords
is one item. From then on a reader can look past a whole group at once.
-/
namespace CodeMap.Syntax

/-- A place in a source file. -/
structure Mark where
  byte : Nat
  row : Nat
  deriving DecidableEq, Repr, Inhabited

/-- The stretch of source between two places. -/
structure Extent where
  start : Mark
  stop : Mark
  deriving DecidableEq, Repr, Inhabited

namespace Extent

/-- Whether the stretch covers all bytes from `a` to `b`. -/
def spans (e : Extent) (a b : Nat) : Bool := e.start.byte ≤ a && b ≤ e.stop.byte

/-- Whether one stretch lies inside another, by bytes and by rows. -/
def Within (inner outer : Extent) : Prop :=
  outer.start.byte ≤ inner.start.byte ∧ inner.stop.byte ≤ outer.stop.byte ∧
  outer.start.row ≤ inner.start.row ∧ inner.stop.row ≤ outer.stop.row

end Extent

/-- What a token is. Openings and closings delimit groups. -/
inductive TokenClass where
  | word
  | number
  | text
  | symbol
  | opening
  | closing
  | comment
  | directive
  deriving DecidableEq, Repr, Inhabited

/-- A token of a source file. -/
structure Token where
  cls : TokenClass
  text : String
  extent : Extent
  /-- Whether no blank stands between this token and the one before it. -/
  glued : Bool
  /-- Whether this is the first token of its row. -/
  fresh : Bool
  /-- Width of the blanks before the first token of a row. -/
  indent : Nat
  deriving DecidableEq, Repr, Inhabited

namespace Token

def isWord (t : Token) (w : String) : Bool := t.cls = .word && t.text == w

def isSymbol (t : Token) (s : String) : Bool := t.cls = .symbol && t.text == s

def isOpening (t : Token) (s : String) : Bool := t.cls = .opening && t.text == s

def isOneOf (t : Token) (cls : TokenClass) (texts : List String) : Bool :=
  t.cls = cls && texts.contains t.text

end Token

/-- A token, or a group of items between an opening and a closing. Groups
that come from layout alone have neither, and a group that the file leaves open
has no closing. -/
inductive Item where
  | token (t : Token)
  | group (opening : Option Token) (items : List Item) (closing : Option Token)
  deriving Inhabited

namespace Item

/-- The first token of an item. -/
def firstToken? : Item → Option Token
  | token t => some t
  | group (some t) _ _ => some t
  | group none items closing =>
    match firstOf items with
    | some t => some t
    | none => closing
where
  firstOf : List Item → Option Token
    | [] => none
    | i :: rest =>
      match i.firstToken? with
      | some t => some t
      | none => firstOf rest

mutual

/-- All tokens of an item, in order. -/
def tokens : Item → List Token
  | token t => [t]
  | group o items c => o.toList ++ tokensOf items ++ c.toList

/-- All tokens of a list of items, in order. -/
def tokensOf : List Item → List Token
  | [] => []
  | i :: rest => i.tokens ++ tokensOf rest

end

end Item

-- ================================================================ grouping

/-- A group that is still open: its opening and the items before it, latest
first. -/
structure OpenGroup where
  opening : Token
  before : List Item

/-- Closes every group that is still open, innermost first. -/
def closeAll : List OpenGroup → List Item → List Item
  | [], items => items.reverse
  | g :: rest, items => closeAll rest (.group (some g.opening) items.reverse none :: g.before)

/-- Collects tokens into groups. `matching` says which closings end which
openings; a closing that ends nothing stays a token. -/
def groupFrom (matching : Token → Token → Bool) :
    List Token → List OpenGroup → List Item → List Item
  | [], stack, items => closeAll stack items
  | t :: rest, stack, items =>
    match t.cls with
    | .opening => groupFrom matching rest (⟨t, items⟩ :: stack) []
    | .closing =>
      match stack with
      | [] => groupFrom matching rest [] (.token t :: items)
      | g :: outer =>
        if matching g.opening t then
          groupFrom matching rest outer (.group (some g.opening) items.reverse (some t) :: g.before)
        else groupFrom matching rest stack (.token t :: items)
    | _ => groupFrom matching rest stack (.token t :: items)

/-- The items of a list of tokens. -/
def groupTokens (matching : Token → Token → Bool) (ts : List Token) : List Item :=
  groupFrom matching ts [] []

end CodeMap.Syntax
