/-
Globs over slash-separated paths, matched byte by byte.

A star runs within one name. Two stars between separators run across names,
and stand for nothing but a single separator as well: `a/**/b` covers `a/b`.
Elsewhere two stars are two single ones. Braces hold alternatives.
-/
namespace CodeMap.Ignore

/-- A piece of a glob. -/
inductive GlobToken where
  | literal (byte : UInt8)
  /-- One byte of a name. -/
  | any
  /-- Any run of bytes of a name. -/
  | star
  /-- Nothing, or any directories at the start of a path. -/
  | leading
  /-- All that is below a directory. -/
  | trailing
  /-- A separator, or any directories between two separators. -/
  | between
  /-- One byte in, or outside, some ranges. -/
  | oneOf (negated : Bool) (ranges : List (UInt8 × UInt8))
  | opens
  | comma
  | closes
  deriving DecidableEq, Repr

/-- The byte of a separator. -/
def slash : UInt8 := 47

/-- The rests of a path after each run of name bytes at its start. -/
def afterNameBytes : List UInt8 → List (List UInt8)
  | [] => [[]]
  | b :: rest => if b = slash then [b :: rest] else (b :: rest) :: afterNameBytes rest

/-- The rests of a path after each of its separators. -/
def afterSlashes : List UInt8 → List (List UInt8)
  | [] => []
  | b :: rest => if b = slash then rest :: afterSlashes rest else afterSlashes rest

/-- The rests of a path: all of them, from itself to nothing. -/
def rests : List UInt8 → List (List UInt8)
  | [] => [[]]
  | b :: rest => (b :: rest) :: rests rest

/-- Whether tokens cover a path. -/
def covers : List GlobToken → List UInt8 → Bool
  | [], path => path.isEmpty
  | .literal b :: tokens, path =>
    match path with
    | c :: rest => b == c && covers tokens rest
    | [] => false
  | .any :: tokens, path =>
    match path with
    | c :: rest => c != slash && covers tokens rest
    | [] => false
  | .star :: tokens, path => (afterNameBytes path).any (covers tokens)
  | .leading :: tokens, path => covers tokens path || (afterSlashes path).any (covers tokens)
  | .trailing :: tokens, path =>
    match path with
    | c :: rest => c == slash && (rests rest).any (covers tokens)
    | [] => false
  | .between :: tokens, path =>
    match path with
    | c :: rest => c == slash && (covers tokens rest || (afterSlashes rest).any (covers tokens))
    | [] => false
  | .oneOf negated ranges :: tokens, path =>
    match path with
    | c :: rest =>
      (ranges.any fun (a, b) => a ≤ c && c ≤ b) != negated && covers tokens rest
    | [] => false
  | _ :: _, _ => false

-- ================================================================= reading

/-- The bytes of a character. -/
def charBytes (c : Char) : List UInt8 := c.toString.toUTF8.toList

/-- The byte ranges of a character range. -/
def rangeBytes (r : Char × Char) : List (UInt8 × UInt8) :=
  let single (b : UInt8) := (b, b)
  if r.1 = r.2 then (charBytes r.1).map single
  else
    match (charBytes r.1).reverse, charBytes r.2 with
    | a :: before, b :: after => before.reverse.map single ++ [(a, b)] ++ after.map single
    | _, _ => []

/-- Reads the inside of a bracket. `ranges` holds what was read, last first;
`open_` says that a dash asks for the end of the last range. -/
def readRanges (first open_ : Bool) (ranges : List (Char × Char)) :
    List Char → Option (List (Char × Char) × List Char)
  | [] => none
  | c :: rest =>
    if c = ']' && !first then
      some ((if open_ then ('-', '-') :: ranges else ranges).reverse, rest)
    else if c = '-' && !first && !open_ then readRanges false true ranges rest
    else
      match open_, ranges with
      | true, (a, _) :: others =>
        if c < a then none else readRanges false false ((a, c) :: others) rest
      | _, _ => readRanges false false ((c, c) :: ranges) rest

/-- Reads a bracket after its opening. -/
def readBracket (cs : List Char) : Option (GlobToken × List Char) :=
  let (negated, body) :=
    match cs with
    | '!' :: rest => (true, rest)
    | '^' :: rest => (true, rest)
    | _ => (false, cs)
  (readRanges true false [] body).map fun (ranges, rest) =>
    (.oneOf negated (ranges.flatMap rangeBytes), rest)

/-- Replaces the separator that ends what was read by a token that covers it. -/
def replaceSlash (token : GlobToken) : List GlobToken → List GlobToken
  | .leading :: done => .leading :: done
  | .trailing :: done => .trailing :: done
  | _ :: done => token :: done
  | [] => [token]

/-- Reads tokens. `done` holds what was read, last first; `before` is the
character before. A character a step is enough fuel. -/
def readTokens : Nat → Nat → Option Char → List GlobToken → List Char → Option (List GlobToken)
  | _, depth, _, done, [] => if depth = 0 then some done.reverse else none
  | 0, _, _, _, _ :: _ => none
  | fuel + 1, depth, before, done, c :: rest =>
    let literal (c : Char) (rest : List Char) :=
      readTokens fuel depth (some c) (((charBytes c).map .literal).reverse ++ done) rest
    match c, rest with
    | '\\', [] => none
    | '\\', e :: rest => literal e rest
    | '?', _ => readTokens fuel depth (some c) (.any :: done) rest
    | '[', _ =>
      match readBracket rest with
      | some (token, rest) => readTokens fuel depth (some ']') (token :: done) rest
      | none => none
    | '{', _ => readTokens fuel (depth + 1) (some c) (.opens :: done) rest
    | '}', _ =>
      if depth = 0 then none else readTokens fuel (depth - 1) (some c) (.closes :: done) rest
    | ',', _ =>
      if depth = 0 then literal c rest
      else readTokens fuel depth (some c) (.comma :: done) rest
    | '*', '*' :: rest =>
      let two := readTokens fuel depth (some '*') (.star :: .star :: done) rest
      match done.isEmpty, before == some '/', rest with
      | true, _, [] => readTokens fuel depth (some '*') [.leading] []
      | true, _, '/' :: rest => readTokens fuel depth (some '/') [.leading] rest
      | false, true, [] => readTokens fuel depth (some '*') (replaceSlash .trailing done) []
      | false, true, '/' :: rest =>
        readTokens fuel depth (some '/') (replaceSlash .between done) rest
      | _, _, _ => two
    | '*', _ => readTokens fuel depth (some c) (.star :: done) rest
    | _, _ => literal c rest

/-- Alternatives being collected: what stands before the brace, and the
branches that are complete. -/
structure BraceFrame where
  before : List (List GlobToken)
  branches : List (List GlobToken)

/-- Takes one token into the expansion of braces. Globs under construction are
kept last token first. -/
def expandToken (state : List BraceFrame × List (List GlobToken)) (t : GlobToken) :
    List BraceFrame × List (List GlobToken) :=
  let (frames, current) := state
  match t, frames with
  | .opens, _ => (⟨current, []⟩ :: frames, [[]])
  | .comma, f :: rest => ({ f with branches := f.branches ++ current } :: rest, [[]])
  | .closes, f :: rest =>
    let filled := (f.branches ++ current).filter (!·.isEmpty)
    let branches := if filled.isEmpty then [[]] else filled
    (rest, f.before.flatMap fun b => branches.map (· ++ b))
  | _, _ => (frames, current.map (t :: ·))

/-- A glob: a path is covered if one of the alternatives covers it. -/
structure Glob where
  alternatives : List (List GlobToken)
  deriving DecidableEq, Repr

namespace Glob

/-- Reads a glob; a malformed one is none. -/
def read? (text : List Char) : Option Glob :=
  (readTokens text.length 0 none [] text).map fun tokens =>
    ⟨(tokens.foldl expandToken ([], [[]])).2.map List.reverse⟩

/-- Whether the glob covers a path. Two stars alone cover everything. -/
def covers (g : Glob) (path : List UInt8) : Bool :=
  g.alternatives.any fun tokens => tokens == [.leading] || Ignore.covers tokens path

end Glob

end CodeMap.Ignore
