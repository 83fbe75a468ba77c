import Conjunct.Text.Blank

/-!
# Lines

A line ends with a line feed, or with a carriage return and a line feed; what follows the last
line feed is a line only if it is not empty. The rule is the same for characters and for bytes, so
it is stated once, over any alphabet with two chosen marks.

A file is a sequence of bytes, and each of its lines is decoded on its own: one undecodable line
does not spoil its neighbours.
-/

namespace Conjunct

namespace Text

/-- Drop one `mark` at the end of a list, if there is one. -/
def dropFinal {α : Type} [DecidableEq α] (mark : α) (as : List α) : List α :=
  if as.getLast? = some mark then as.dropLast else as

/-- The lines of a list, where `feed` ends a line and a `ret` right before it belongs to the
ending. -/
def linesBy {α : Type} [DecidableEq α] (feed ret : α) (as : List α) : List (List α) :=
  let pieces := as.splitOn feed
  let ended := pieces.dropLast.map (dropFinal ret)
  match pieces.getLast? with
  | none | some [] => ended
  | some rest => ended ++ [rest]

/-- The lines of a text. -/
def lines (text : String) : List (List Char) :=
  linesBy '\n' '\r' text.toList

end Text

/-- A line of a file: its text, or the fact that its bytes are not UTF-8. -/
inductive Line where
  /-- A line that decodes. -/
  | text (content : List Char)
  /-- A line that does not. -/
  | undecodable
  deriving DecidableEq

namespace Line

/-- Decode the bytes of one line. -/
def ofBytes (bytes : List UInt8) : Line :=
  match String.fromUTF8? ⟨bytes.toArray⟩ with
  | some content => .text content.toList
  | none => .undecodable

/-- The lines of a file's content. -/
def ofContent (content : ByteArray) : List Line :=
  (Text.linesBy 0x0A 0x0D content.data.toList).map ofBytes

end Line

end Conjunct
