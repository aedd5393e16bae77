/-!
# Line patterns

Basic patterns that search lines: literal characters, `.`, bracket lists, `*`
after any of these, `^` at the start and `$` at the end. A backslash takes away
the meaning of the character after it.
-/

namespace IsaLogic.Text

/-- What one character of a line is compared with. -/
inductive CharClass where
  | any
  | char (c : Char)
  /-- One of some ranges, or outside all of them. -/
  | ranges (inside : Bool) (listed : List (Char × Char))

namespace CharClass

/-- Whether a character belongs to the class. -/
def accepts : CharClass → Char → Bool
  | any, _ => true
  | char c, d => c == d
  | ranges inside listed, d =>
    (listed.any fun range => decide (range.1 ≤ d) && decide (d ≤ range.2)) == inside

end CharClass

/-- A pattern. Each class stands for one character, or for any number if starred. -/
structure Pattern where
  anchoredStart : Bool
  anchoredEnd : Bool
  items : List (CharClass × Bool)

namespace Pattern

/-- The rest of a line after each number of characters of a class, none included. -/
def tails (accepts : Char → Bool) : List Char → List (List Char)
  | [] => [[]]
  | c :: rest => (c :: rest) :: if accepts c then tails accepts rest else []

/-- Whether the items match a start of a line, or all of it if it has to end there. -/
def matchItems (toEnd : Bool) : List (CharClass × Bool) → List Char → Bool
  | [], line => !toEnd || line.isEmpty
  | (cls, true) :: items, line => (tails cls.accepts line).any (matchItems toEnd items)
  | (_, false) :: _, [] => false
  | (cls, false) :: items, c :: line => cls.accepts c && matchItems toEnd items line

/-- Whether a line holds a match. -/
def matchesLine (pattern : Pattern) (line : List Char) : Bool :=
  if pattern.anchoredStart then matchItems pattern.anchoredEnd pattern.items line
  else (tails (fun _ => true) line).any (matchItems pattern.anchoredEnd pattern.items)

/-- What the reader of patterns is inside of. -/
inductive Mode where
  | plain
  | escape
  /-- Inside brackets: sense, whether a member was seen, ranges so far, and whether
  the last member starts a range. -/
  | bracket (inside seen : Bool) (ranges : List (Char × Char)) (pending : Bool)

/-- Read the items of a pattern; brackets must be closed. -/
def readItems (mode : Mode) (items : List (CharClass × Bool)) :
    List Char → Option (List (CharClass × Bool))
  | [] =>
    match mode with
    | .plain => some items
    | _ => none
  | c :: rest =>
    match mode with
    | .escape => readItems .plain (items ++ [(.char c, false)]) rest
    | .plain =>
      match c with
      | '\\' => readItems .escape items rest
      | '.' => readItems .plain (items ++ [(.any, false)]) rest
      | '[' => readItems (.bracket true false [] false) items rest
      | '*' =>
        match items.getLast? with
        | some (cls, _) => readItems .plain (items.dropLast ++ [(cls, true)]) rest
        | none => readItems .plain [(.char '*', false)] rest
      | c => readItems .plain (items ++ [(.char c, false)]) rest
    | .bracket inside seen ranges pending =>
      if c = '^' ∧ seen = false ∧ inside = true then
        readItems (.bracket false false ranges false) items rest
      else if c = ']' ∧ seen = true then
        let ranges := if pending then ranges ++ [('-', '-')] else ranges
        readItems .plain (items ++ [(.ranges inside ranges, false)]) rest
      else if pending then
        match ranges.getLast? with
        | some (low, _) =>
          readItems (.bracket inside true (ranges.dropLast ++ [(low, c)]) false) items rest
        | none => none
      else if c = '-' ∧ seen = true then readItems (.bracket inside true ranges true) items rest
      else readItems (.bracket inside true (ranges ++ [(c, c)]) false) items rest

/-- Read a pattern. -/
def parse? (text : List Char) : Option Pattern := do
  let (anchoredStart, text) := match text with
    | '^' :: rest => (true, rest)
    | rest => (false, rest)
  let (anchoredEnd, text) :=
    if text.getLast? = some '$' ∧ text.dropLast.getLast? ≠ some '\\' then (true, text.dropLast)
    else (false, text)
  return { anchoredStart, anchoredEnd, items := ← readItems .plain [] text }

/-- The pattern that is nothing but its characters. -/
def literal (text : List Char) : Pattern where
  anchoredStart := false
  anchoredEnd := false
  items := text.map fun c => (.char c, false)

end Pattern

end IsaLogic.Text
