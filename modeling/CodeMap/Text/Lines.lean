/-
Lines, blanks and byte offsets of a text.

A line ends at a line feed; a carriage return right before the line feed
belongs to the line ending. Offsets into a text are UTF-8 offsets, so that a
slice is given by the bytes at which it starts and stops.
-/
namespace CodeMap.Text

/-- Splits characters after every line feed; the line feed stays with its
line, and there is no empty last line. -/
def splitAfterLineFeed : List Char → List (List Char)
  | [] => []
  | '\n' :: rest => ['\n'] :: splitAfterLineFeed rest
  | c :: rest =>
    match splitAfterLineFeed rest with
    | [] => [[c]]
    | line :: lines => (c :: line) :: lines

/-- A line without its ending. -/
def withoutEnding (line : List Char) : List Char :=
  match line.reverse with
  | '\n' :: '\r' :: body => body.reverse
  | '\n' :: body => body.reverse
  | _ => line

/-- The lines of a text, without their endings. -/
def lines (s : String) : List String :=
  (splitAfterLineFeed s.toList).map fun line => String.ofList (withoutEnding line)

/-- White space: the characters of Unicode's property of that name. -/
def isBlank (c : Char) : Bool :=
  let n := c.toNat
  (9 ≤ n && n ≤ 13) || n == 0x20 || n == 0x85 || n == 0xA0 || n == 0x1680 ||
  (0x2000 ≤ n && n ≤ 0x200A) || n == 0x2028 || n == 0x2029 || n == 0x202F ||
  n == 0x205F || n == 0x3000

/-- Whether a text holds white space only. -/
def isBlankText (s : String) : Bool := s.toList.all isBlank

/-- The characters from byte `skip` on, if that is a character boundary. -/
def dropBytes : Nat → List Char → Option (List Char)
  | 0, cs => some cs
  | _ + 1, [] => none
  | n + 1, c :: cs => if c.utf8Size ≤ n + 1 then dropBytes (n + 1 - c.utf8Size) cs else none

/-- The characters of the first `keep` bytes, if that is a character boundary. -/
def takeBytes : Nat → List Char → Option (List Char)
  | 0, _ => some []
  | _ + 1, [] => none
  | n + 1, c :: cs =>
    if c.utf8Size ≤ n + 1 then (takeBytes (n + 1 - c.utf8Size) cs).map (c :: ·) else none

/-- The text between two byte offsets; `none` when they are out of order,
out of range or inside a character. -/
def slice? (s : String) (start stop : Nat) : Option String :=
  if start ≤ stop then
    (dropBytes start s.toList).bind fun cs =>
      (takeBytes (stop - start) cs).map String.ofList
  else none

end CodeMap.Text
