import IsaLogic.Json.Lexer

/-!
# Reading JSON

The reader walks the tokens once, with a stack of the arrays and objects it is
inside of. Nesting deeper than a given limit is refused, and so is anything
after the value.
-/

namespace IsaLogic.Json

/-- An unfinished container; what it holds so far stands in reverse order. -/
inductive Frame where
  | array (items : List Json)
  | object (fields : List (String × Json)) (key : String)

/-- What may come next. -/
inductive Phase where
  | value
  /-- After an opening bracket. -/
  | valueOrEnd
  | key (fields : List (String × Json))
  /-- After an opening brace. -/
  | keyOrEnd
  | colon (fields : List (String × Json)) (key : String)
  | separator
  | done (result : Json)

/-- The reader's state: unfinished containers, innermost first, and what comes next. -/
structure ReaderState where
  stack : List Frame
  phase : Phase

/-- A value is complete: it goes into the innermost container, or is the result. -/
def complete (value : Json) : List Frame → ReaderState
  | [] => { stack := [], phase := .done value }
  | .array items :: outer => { stack := .array (value :: items) :: outer, phase := .separator }
  | .object fields key :: outer =>
    { stack := .object ((key, value) :: fields) key :: outer, phase := .separator }

/-- Start a value at a token. -/
def beginValue (limit : Nat) (stack : List Frame) : Token → Option ReaderState
  | .scalar value => some (complete value stack)
  | .string value => some (complete (str value) stack)
  | .beginArray =>
    if stack.length < limit then some { stack := .array [] :: stack, phase := .valueOrEnd }
    else none
  | .beginObject =>
    if stack.length < limit then some { stack := .object [] "" :: stack, phase := .keyOrEnd }
    else none
  | _ => none

/-- Take one token. -/
def advance (limit : Nat) (state : ReaderState) (token : Token) : Option ReaderState :=
  match state.phase, token, state.stack with
  | .valueOrEnd, .endArray, .array items :: outer => some (complete (arr items.reverse) outer)
  | .valueOrEnd, token, stack => beginValue limit stack token
  | .value, token, stack => beginValue limit stack token
  | .keyOrEnd, .endObject, .object fields _ :: outer => some (complete (obj fields.reverse) outer)
  | .keyOrEnd, .string key, .object fields _ :: outer =>
    some { stack := outer, phase := .colon fields key }
  | .key fields, .string key, outer => some { stack := outer, phase := .colon fields key }
  | .colon fields key, .colon, outer =>
    some { stack := .object fields key :: outer, phase := .value }
  | .separator, .comma, .array items :: outer =>
    some { stack := .array items :: outer, phase := .value }
  | .separator, .comma, .object fields _ :: outer => some { stack := outer, phase := .key fields }
  | .separator, .endArray, .array items :: outer => some (complete (arr items.reverse) outer)
  | .separator, .endObject, .object fields _ :: outer =>
    some (complete (obj fields.reverse) outer)
  | _, _, _ => none

/-- Take all tokens. -/
def advanceAll (limit : Nat) (state : ReaderState) : List Token → Option ReaderState
  | [] => some state
  | token :: rest =>
    match advance limit state token with
    | none => none
    | some state => advanceAll limit state rest

/-- Read a text as one value, nested at most `limit` deep. -/
def readWithin (limit : Nat) (text : List Char) : Option Json := do
  let state ← advanceAll limit { stack := [], phase := .value } (← tokens? text)
  match state.phase with
  | .done result => some result
  | _ => none

/-- The deepest nesting of documents. -/
def maxDepth : Nat := 127

/-- Read a document as it is written. -/
def read (text : String) : Option Json :=
  readWithin maxDepth text.toList

end IsaLogic.Json
