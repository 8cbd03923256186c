/-
Cutting a source file into tokens.

The lexical rules of a language are a value of type `Lexis`: how comments and
quoted texts start, which words and symbols there are, and a first refusal for
whatever is particular to the language. The scanner itself is shared. It keeps
a stack of frames, because a quoted text may hold code, that code another quoted
text, and so on; markup inside code works the same way.

Every step consumes a character, leaves a frame, or enters the frame of a text
that was announced before. A frame is entered once for some characters that were
consumed, so three times the number of characters bounds the number of steps.
-/
import CodeMap.Syntax.Token
import CodeMap.Text.Lines

namespace CodeMap.Syntax

/-- The place after some more characters. -/
def Mark.after (m : Mark) : List Char → Mark
  | [] => m
  | c :: cs =>
    Mark.after ⟨m.byte + c.utf8Size, if c = '\n' then m.row + 1 else m.row⟩ cs

/-- What is known where a token may start. -/
structure Context where
  /-- The last few tokens that are no comments, latest first. -/
  recent : List Token
  /-- No blank since the last token. -/
  glued : Bool
  /-- A new row since the last token. -/
  fresh : Bool

namespace Context

/-- The last token that is no comment. -/
def previous (x : Context) : Option Token := x.recent.head?

/-- Whether the last token passes a test. -/
def after (x : Context) (test : Token → Bool) : Bool := x.previous.any test

end Context

/-- How a kind of quoted text runs. -/
structure TextForm where
  /-- Number of characters that open the text. -/
  opener : Nat
  closer : List Char
  /-- A backslash takes the next character with it. -/
  escapes : Bool
  /-- What opens a stretch of code inside the text; `}` closes it. -/
  hole : Option (List Char)
  /-- Twice the first character of the hole stands for itself. -/
  doubled : Bool
  /-- The text may go on after the end of a line. -/
  spansLines : Bool

/-- A text that is announced on one row and stands on the rows after it, down to
a row that holds nothing but its mark. -/
structure Heredoc where
  /-- Number of characters that announce the text. -/
  opener : Nat
  mark : List Char
  /-- Blanks may stand before the mark. -/
  indented : Bool
  /-- What opens a stretch of code inside the text. -/
  hole : Option (List Char)

/-- The lexical rules of a language. -/
structure Lexis where
  /-- Length of the comment that starts here. -/
  comment? : Context → List Char → Option Nat
  /-- A token that the language reads in a way of its own. -/
  special? : Context → List Char → Option (TokenClass × Nat)
  /-- The quoted text that starts here. -/
  text? : Context → List Char → Option TextForm
  startsWord : Char → Bool
  continuesWord : Char → Bool
  /-- Symbols of more than one character, longer ones first. -/
  symbols : List (List Char)
  /-- Whether a markup element starts at this `<`. -/
  markup : Context → List Char → Bool
  /-- The announcement of a text on the following rows. -/
  heredoc? : Context → List Char → Option Heredoc := fun _ _ => none

/-- What the scanner is inside of. -/
inductive Frame where
  /-- Code inside a quoted text, with so many brackets open. -/
  | hole (depth : Nat)
  | text (form : TextForm)
  /-- A markup tag; `ends` for the closing tag of an element. -/
  | tag (ends : Bool)
  /-- The content of a markup element. -/
  | content

/-- The state of the scanner. -/
structure Scan where
  rest : List Char
  mark : Mark
  frames : List Frame
  /-- The last few tokens that are no comments, latest first. -/
  recent : List Token
  glued : Bool
  fresh : Bool
  indent : Nat
  /-- Texts announced on this row, the first one first. -/
  awaited : List Heredoc
  /-- Tokens found so far, latest first. -/
  found : List Token

namespace Scan

def start (text : List Char) : Scan where
  rest := text
  mark := ⟨0, 0⟩
  frames := []
  recent := []
  glued := false
  fresh := true
  indent := 0
  awaited := []
  found := []

def context (s : Scan) : Context := ⟨s.recent, s.glued, s.fresh⟩

def previous (s : Scan) : Option Token := s.recent.head?

/-- Takes `n` characters as a token. -/
def take (s : Scan) (cls : TokenClass) (n : Nat) : Scan :=
  let taken := s.rest.take n
  let stop := s.mark.after taken
  let token : Token := ⟨cls, String.ofList taken, ⟨s.mark, stop⟩, s.glued, s.fresh, s.indent⟩
  let after := { s with rest := s.rest.drop n, mark := stop, found := token :: s.found }
  if cls = .comment then { after with glued := false }
  else
    { after with recent := token :: s.recent.take 2, glued := true, fresh := false }

/-- Passes over `n` characters. -/
def skip (s : Scan) (n : Nat) : Scan :=
  { s with rest := s.rest.drop n, mark := s.mark.after (s.rest.take n), glued := false }

def push (s : Scan) (f : Frame) : Scan := { s with frames := f :: s.frames }

def pop (s : Scan) : Scan := { s with frames := s.frames.tail }

def swap (s : Scan) (f : Frame) : Scan := { s with frames := f :: s.frames.tail }

end Scan

/-- Whether `cs` starts with `w`. -/
def startsWith (cs w : List Char) : Bool := w.isPrefixOf cs

/-- Number of characters before the first place where `stop` holds. -/
def lengthUntil (stop : List Char → Bool) : List Char → Nat
  | [] => 0
  | c :: cs => if stop (c :: cs) then 0 else lengthUntil stop cs + 1

/-- Number of characters of a quoted text up to its closer, to an opening hole
or to a line end that it may not pass. -/
def textRun (f : TextForm) : List Char → Nat
  | [] => 0
  | [c] => if startsWith [c] f.closer || (c = '\n' && !f.spansLines) then 0 else 1
  | c :: d :: ds =>
    if startsWith (c :: d :: ds) f.closer then 0
    else if c = '\n' && !f.spansLines then 0
    else if f.doubled && f.hole = some [c] && d = c then textRun f ds + 2
    else if f.hole.any (startsWith (c :: d :: ds)) then 0
    else if f.escapes && c = '\\' then textRun f ds + 2
    else textRun f (d :: ds) + 1

/-- Number of characters of a number: digits, letters and points between
digits. -/
def numberRun : List Char → Nat
  | [] => 0
  | c :: cs =>
    if c.isAlphanum || c = '_' then numberRun cs + 1
    else
      match c, cs with
      | '.', d :: _ => if d.isDigit then numberRun cs + 1 else 0
      | _, _ => 0

/-- Characters of a name in markup. -/
def isTagChar (c : Char) : Bool :=
  c.isAlphanum || c = '_' || c = '-' || c = '.' || c = ':' || c = '$' || c.toNat ≥ 0x80

/-- One step inside a quoted text. -/
def stepText (f : TextForm) (s : Scan) : Scan :=
  if startsWith s.rest f.closer then (s.take .closing f.closer.length).pop
  else
    match f.hole with
    | some h =>
      let doubledHere := f.doubled && startsWith s.rest (h ++ h)
      if startsWith s.rest h && !doubledHere then (s.take .opening h.length).push (.hole 0)
      else
        match textRun f s.rest with
        | 0 => s.pop
        | n => s.take .text n
    | none => s.pop

/-- Length of a stretch in angle brackets, at the given depth. -/
def angleRun : Nat → List Char → Nat
  | _, [] => 0
  | d, '<' :: cs => angleRun (d + 1) cs + 1
  | d, '>' :: cs => if d ≤ 1 then 1 else angleRun (d - 1) cs + 1
  | d, _ :: cs => angleRun d cs + 1

/-- One step inside a markup tag. Angle brackets inside it hold types. -/
def stepTag (ends : Bool) (s : Scan) : Scan :=
  match s.rest with
  | [] => s.pop
  | '>' :: _ =>
    if ends then (s.take .closing 1).pop
    else if s.previous.any (·.isSymbol "/") then (s.take .closing 1).pop
    else (s.take .symbol 1).swap .content
  | '<' :: _ => s.take .text (angleRun 0 s.rest)
  | '\x7b' :: _ => (s.take .opening 1).push (.hole 0)
  | '"' :: cs => s.take .text (1 + lengthUntil (fun r => startsWith r ['"']) cs + 1)
  | '\'' :: cs => s.take .text (1 + lengthUntil (fun r => startsWith r ['\'']) cs + 1)
  | c :: cs =>
    if Text.isBlank c then { s.skip 1 with fresh := s.fresh || c = '\n' }
    else if isTagChar c then s.take .text (1 + (cs.takeWhile isTagChar).length)
    else s.take .symbol 1

/-- One step in the content of a markup element. -/
def stepContent (s : Scan) : Scan :=
  match s.rest with
  | [] => s.pop
  | '<' :: '/' :: _ => (s.take .symbol 2).swap (.tag true)
  | '<' :: _ => (s.take .opening 1).push (.tag false)
  | '\x7b' :: _ => (s.take .opening 1).push (.hole 0)
  | cs => s.take .text (lengthUntil (fun r => startsWith r ['<'] || startsWith r ['\x7b']) cs)

/-- Counts a bracket of code inside a quoted text. -/
def Scan.deepen (s : Scan) : Scan :=
  match s.frames with
  | .hole d :: rest => { s with frames := .hole (d + 1) :: rest }
  | _ => s

/-- Takes a closing bracket; the one that closes a hole leaves its frame. -/
def Scan.takeClosing (s : Scan) : Scan :=
  match s.frames with
  | .hole 0 :: _ => (s.take .closing 1).pop
  | .hole (d + 1) :: rest => { s.take .closing 1 with frames := .hole d :: rest }
  | _ => s.take .closing 1

/-- Passes over a blank, keeping count of rows and of the indentation. -/
def Scan.skipBlank (s : Scan) (c : Char) : Scan :=
  let indent :=
    if c = '\n' then 0
    else if c = '\t' then s.indent + 8
    else if c = '\x0c' then 0
    else if c = '\r' then s.indent
    else s.indent + 1
  let next := s.skip 1
  if c = '\n' then { next with fresh := true, indent := 0 }
  else if s.fresh then { next with indent := indent }
  else next

/-- The blanks before the mark that ends a text on the following rows, if the
mark is there. -/
def markIndent? (h : Heredoc) : List (List Char) → Option (List Char)
  | [] => none
  | row :: rows =>
    let bare := row.filter fun c => c ≠ '\n' && c ≠ '\r'
    let blanks := if h.indented then bare.takeWhile Text.isBlank else []
    if bare.drop blanks.length = h.mark then some blanks else markIndent? h rows

/-- Starts the text that was announced first, at the end of the row. -/
def Scan.startAwaited (s : Scan) (h : Heredoc) (rest : List Heredoc) : Scan :=
  let s := { s with awaited := rest, fresh := true }
  match markIndent? h (Text.splitAfterLineFeed (s.rest.drop 1)) with
  | none => s.skip 1
  | some blanks =>
    let closer := '\n' :: blanks ++ h.mark
    let form : TextForm := ⟨0, closer, h.hole.isSome, h.hole, false, true⟩
    match h.hole with
    | some _ => (s.take .opening 0).push (.text form)
    | none => s.take .text (textRun form s.rest + closer.length)

/-- One step in code. -/
def stepCode (l : Lexis) (s : Scan) : Scan :=
  match s.rest with
  | [] => s.pop
  | c :: cs =>
    let x := s.context
    if Text.isBlank c || c = '\uFEFF' then
      match c, s.awaited with
      | '\n', h :: rest => s.startAwaited h rest
      | _, _ => s.skipBlank c
    else if c = '\\' && cs.head? = some '\n' then s.skip 2
    else if startsWith s.rest ['\\', '\r', '\n'] then s.skip 3
    else
      match l.comment? x s.rest, l.heredoc? x s.rest with
      | some n, _ => s.take .comment (max n 1)
      | none, some h => { s.take .text (max h.opener 1) with awaited := s.awaited ++ [h] }
      | none, none =>
        match l.special? x s.rest with
        | some (.opening, n) => (s.take .opening (max n 1)).deepen
        | some (.closing, n) =>
          if n ≤ 1 then s.takeClosing else s.take .closing n
        | some (cls, n) => s.take cls (max n 1)
        | none =>
          match l.text? x s.rest with
          | some f =>
            match f.hole with
            | some _ => (s.take .opening (max f.opener 1)).push (.text f)
            | none =>
              let n := f.opener + textRun f (s.rest.drop f.opener)
              let whole := if startsWith (s.rest.drop n) f.closer then n + f.closer.length else n
              s.take .text (max whole 1)
          | none =>
            if c = '<' && l.markup x s.rest then (s.take .opening 1).push (.tag false)
            else if l.startsWord c then s.take .word (1 + (cs.takeWhile l.continuesWord).length)
            else if c.isDigit then s.take .number (max (numberRun s.rest) 1)
            else if c = '(' || c = '[' || c = '\x7b' then (s.take .opening 1).deepen
            else if c = ')' || c = ']' || c = '\x7d' then s.takeClosing
            else
              match l.symbols.find? (startsWith s.rest) with
              | some sym => s.take .symbol (max sym.length 1)
              | none => s.take .symbol 1

/-- One step of the scanner. -/
def step (l : Lexis) (s : Scan) : Scan :=
  match s.frames with
  | .text f :: _ => stepText f s
  | .tag ends :: _ => stepTag ends s
  | .content :: _ => stepContent s
  | _ => stepCode l s

/-- Steps until the text and the fuel are used up. -/
def scan (l : Lexis) : Nat → Scan → Scan
  | 0, s => s
  | fuel + 1, s => if s.rest.isEmpty then s else scan l fuel (step l s)

/-- The tokens of a source text. -/
def tokenize (l : Lexis) (text : String) : List Token :=
  let cs := text.toList
  (scan l (3 * cs.length + 2) (Scan.start cs)).found.reverse

-- ================================================= pieces shared by languages

/-- A comment from `opener` to the end of the line. -/
def lineComment? (opener : List Char) (cs : List Char) : Option Nat :=
  if startsWith cs opener then some (lengthUntil (fun r => startsWith r ['\n']) cs) else none

/-- Length of a block comment after its opening, at the given depth of
nesting. -/
def blockCommentRun (nests : Bool) : Nat → List Char → Nat
  | _, [] => 0
  | d, '*' :: '/' :: cs => if d = 0 then 2 else blockCommentRun nests (d - 1) cs + 2
  | d, '/' :: '*' :: cs =>
    if nests then blockCommentRun nests (d + 1) cs + 2 else blockCommentRun nests d ('*' :: cs) + 1
  | d, _ :: cs => blockCommentRun nests d cs + 1

/-- A block comment. -/
def blockComment? (nests : Bool) (cs : List Char) : Option Nat :=
  match cs with
  | '/' :: '*' :: body => some (2 + blockCommentRun nests 0 body)
  | _ => none

/-- Comments of the brace languages: `//` and block comments. -/
def braceComment? (nests : Bool) (cs : List Char) : Option Nat :=
  match lineComment? ['/', '/'] cs with
  | some n => some n
  | none => blockComment? nests cs

/-- A plain text between single characters, with escapes. -/
def plainText (quote : Char) (spansLines : Bool) : TextForm :=
  ⟨1, [quote], true, none, false, spansLines⟩

/-- Letters, the underscore and everything outside ASCII. -/
def isNameStart (c : Char) : Bool := c.isAlpha || c = '_' || c.toNat ≥ 0x80

/-- Name starts and digits. -/
def isNameRest (c : Char) : Bool := isNameStart c || c.isDigit

/-- Brackets match by shape; a closing of any other spelling ends the group of
its opening. -/
def bracketsMatch (o c : Token) : Bool :=
  match o.text, c.text with
  | "(", ")" => true
  | "[", "]" => true
  | "(", _ => false
  | "[", _ => false
  | "\x7b", "\x7d" => true
  | "\x7b", _ => false
  | _, ")" => false
  | _, "]" => false
  | _, _ => true

end CodeMap.Syntax
