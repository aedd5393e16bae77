/-!
# Blank characters, words and lines

The readers of this library see text as a list of characters. This module says
which characters are blank, and cuts a text into trimmed parts, words and lines.
It knows nothing of any particular format.
-/

namespace IsaLogic.Text

/-- The characters with the Unicode property `White_Space`. -/
def isBlank (c : Char) : Bool :=
  let n := c.toNat
  (0x09 ≤ n && n ≤ 0x0D) || n == 0x20 || n == 0x85 || n == 0xA0 || n == 0x1680 ||
    (0x2000 ≤ n && n ≤ 0x200A) || n == 0x2028 || n == 0x2029 || n == 0x202F ||
    n == 0x205F || n == 0x3000

/-- A text without its leading blanks. -/
def trimStart (text : List Char) : List Char :=
  text.dropWhile isBlank

/-- A text without its trailing blanks. -/
def trimEnd (text : List Char) : List Char :=
  (text.reverse.dropWhile isBlank).reverse

/-- A text without its leading and trailing blanks. -/
def trim (text : List Char) : List Char :=
  trimEnd (trimStart text)

/-- Cut a list at every element that `cut` selects; the selected elements are
dropped. A list with `n` cuts gives `n + 1` parts, so the result is never empty. -/
def splitWhere {α : Type} (cut : α → Bool) : List α → List (List α)
  | [] => [[]]
  | x :: rest =>
    if cut x then
      [] :: splitWhere cut rest
    else
      match splitWhere cut rest with
      | [] => [[x]]
      | part :: parts => (x :: part) :: parts

/-- The maximal runs of characters that are not blank. -/
def words (text : List Char) : List (List Char) :=
  (splitWhere isBlank text).filter fun word => !word.isEmpty

/-- A line ended by a line feed, less one carriage return before the feed. -/
def dropReturn (line : List Char) : List Char :=
  match line.getLast? with
  | some '\r' => line.dropLast
  | _ => line

/-- Lines as they stand between line feeds: every part but the last was ended by
a feed, and an empty last part is no line. -/
def endLines : List (List Char) → List (List Char)
  | [] => []
  | [last] => if last.isEmpty then [] else [last]
  | line :: rest => dropReturn line :: endLines rest

/-- The lines of a text. A final line feed ends the last line and starts none. -/
def lines (text : List Char) : List (List Char) :=
  endLines (splitWhere (· == '\n') text)

/-- The rest of `text` after `start`, when it starts so. -/
def dropStart? (start : List Char) (text : List Char) : Option (List Char) :=
  match start, text with
  | [], rest => some rest
  | _ :: _, [] => none
  | s :: start, c :: text => if s = c then dropStart? start text else none

end IsaLogic.Text
