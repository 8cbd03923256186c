/-
Fitting a text to a token budget. The text is rendered for a number of items,
and a binary search looks for the number whose rendering has the most tokens
within the budget.

Rendering may keep state from one call to the next, so the search threads a
state through its calls and says nothing about what the state is.
-/
namespace CodeMap

/-- A way to count tokens. -/
abbrev TokenCounter := String → Nat

namespace TokenCounter

/-- One token per four characters, rounded up. -/
def approximate : TokenCounter := fun text => (text.length + 3) / 4

/-- One token per byte. -/
def bytes : TokenCounter := fun text => text.utf8ByteSize

/-- One token per line feed. -/
def lineFeeds : TokenCounter := fun text => text.toList.countP (· == '\n')

end TokenCounter

namespace Budget

/-- The state of the search: the lengths still in question, the length to try
next, and the best rendering so far. -/
structure Search where
  lower : Nat
  upper : Nat
  middle : Nat
  best : String
  bestTokens : Nat

namespace Search

/-- Keeps a rendering that fits and has more tokens than the best so far. -/
def keep (s : Search) (budget : Nat) (text : String) (tokens : Nat) : Search :=
  if tokens ≤ budget ∧ s.bestTokens < tokens then { s with best := text, bestTokens := tokens }
  else s

/-- The search after `middle` has turned out to have room left. -/
def longer (s : Search) : Search :=
  { s with lower := s.middle + 1, middle := (s.middle + 1 + s.upper) / 2 }

/-- The search after a positive `middle` has turned out to fill the budget. -/
def shorter (s : Search) : Search :=
  { s with upper := s.middle - 1, middle := (s.lower + (s.middle - 1)) / 2 }

end Search

/-- The search from a given state on. Every step leaves fewer lengths in
question, so as many steps as there are lengths are enough. -/
def searchFrom {σ : Type} (count : TokenCounter) (budget : Nat) (render : Nat → StateM σ String) :
    Nat → Search → StateM σ String
  | 0, s => pure s.best
  | steps + 1, s =>
    if s.lower ≤ s.upper then do
      let text ← render s.middle
      let tokens := count text
      let kept := s.keep budget text tokens
      if tokens < budget then searchFrom count budget render steps kept.longer
      else if s.middle = 0 then pure kept.best
      else searchFrom count budget render steps kept.shorter
    else pure s.best

/-- The rendering with the most tokens within the budget that the search
meets; the empty text if there is none. -/
def fit {σ : Type} (count : TokenCounter) (budget len : Nat) (render : Nat → StateM σ String) :
    StateM σ String :=
  if budget = 0 ∨ len = 0 then pure ""
  else searchFrom count budget render (len + 1) ⟨0, len, min (budget / 25) len, "", 0⟩

end Budget

end CodeMap
