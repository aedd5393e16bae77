import Mathlib.Data.List.TakeWhile
import IsaLogic.Proofs.Text.Reading

/-!
# Reading boolean expressions

Boolean expressions in two languages: C, and the equations of two-level minimizers. They differ in
how they spell the constants and in whether the signs of conjunction and disjunction are doubled.
`!` binds strongest, then `^`, then conjunction, then disjunction.

`Expression.read` reads a text to its value under an environment of the variables. It cuts the text
into tokens, a word being any maximal run of letters, digits and low lines, and then descends
through the precedences. `Reads` is one level of that descent, with a lemma for each way to go on.

A text can be an expression wherever it stands (`Means`). This is closed under what a writer does:
a negation sign in front of an operand (`Means.neg`), parentheses around an expression
(`Means.group`), and one operator between several operands (`means_chain`). A whole text that is an
expression is read (`read_of_means`).
-/

namespace IsaLogic.Expression

open Text

/-- The connectives that stand between two operands. -/
inductive Operator where
  | disj
  | conj
  | exclusive
deriving DecidableEq

namespace Operator

/-- The operators from the weakest to the one that binds strongest. -/
def precedences : List Operator := [disj, conj, exclusive]

/-- The sign of an operator, or half of it. -/
def symbol : Operator → Char
  | disj => '|'
  | conj => '&'
  | exclusive => '^'

/-- The value of two operands. -/
def apply : Operator → Bool → Bool → Bool
  | disj => or
  | conj => and
  | exclusive => xor

/-- The operand that changes nothing. -/
def unit : Operator → Bool
  | disj => false
  | conj => true
  | exclusive => false

theorem apply_unit (operator : Operator) (a : Bool) : operator.apply a operator.unit = a := by
  cases operator <;> cases a <;> rfl

/-- Where an operator stands among the precedences. -/
theorem exists_weaker (operator : Operator) : ∃ weaker stronger : List Operator,
    precedences = weaker ++ operator :: stronger ∧ operator ∉ stronger := by
  cases operator
  · exact ⟨[], [conj, exclusive], rfl, by decide⟩
  · exact ⟨[disj], [exclusive], rfl, by decide⟩
  · exact ⟨[disj, conj], [], rfl, by decide⟩

end Operator

/-- What expressions consist of. -/
inductive Token where
  /-- A constant or a variable. -/
  | word (name : String)
  | neg
  | binary (operator : Operator)
  | opening
  | closing
deriving DecidableEq

/-- The languages of expressions. -/
inductive Language where
  | c
  /-- The right sides of equations. -/
  | equation
deriving DecidableEq

namespace Language

/-- The word for truth. -/
def verum : Language → String
  | c => "true"
  | equation => "1"

/-- The word for falsehood. -/
def falsum : Language → String
  | c => "false"
  | equation => "0"

/-- Whether the sign of an operator is written twice. -/
def doubles : Language → Operator → Bool
  | c, operator => operator != .exclusive
  | equation, _ => false

/-- The value of a word. -/
def value (language : Language) (environment : String → Bool) (name : String) : Bool :=
  if name = language.verum then true
  else if name = language.falsum then false
  else environment name

end Language

/-- Characters between tokens. -/
def isSpace (c : Char) : Bool := [' ', '\t', '\n', '\x0b', '\x0c', '\r'].contains c

/-- Characters of constants and variables. -/
def isWordChar (c : Char) : Bool := c.isAlphanum || c == '_'

/-- The token that a sign is, or is half of. -/
def sign? : Char → Option Token
  | '!' => some .neg
  | '^' => some (.binary .exclusive)
  | '&' => some (.binary .conj)
  | '|' => some (.binary .disj)
  | '(' => some .opening
  | ')' => some .closing
  | _ => none

/-- Whether a sign has to be written twice. -/
def Token.isDoubled (language : Language) : Token → Bool
  | .binary operator => language.doubles operator
  | _ => false

/-- Cut a text into tokens. -/
def tokens (language : Language) : List Char → Option (List Token)
  | [] => some []
  | c :: rest =>
    if isSpace c then tokens language rest
    else if isWordChar c then
      (tokens language (rest.dropWhile isWordChar)).map
        (Token.word (String.ofList (c :: rest.takeWhile isWordChar)) :: ·)
    else
      match sign? c, rest with
      | none, _ => none
      | some token, [] => if token.isDoubled language then none else some [token]
      | some token, d :: later =>
        if token.isDoubled language then
          if d = c then (tokens language later).map (token :: ·) else none
        else (tokens language (d :: later)).map (token :: ·)
termination_by text => text.length
decreasing_by
  · simp
  · exact Nat.lt_succ_of_le (List.length_dropWhile_le _ rest)
  · simp only [List.length_cons]; omega
  · simp

/-- Read an expression in which only some operators may stand outside of parentheses, the weakest of
them first, and give the tokens after it. Where none may stand, this is an operand. -/
def descend (value : String → Bool) : List Operator → (tokens : List Token) →
    Option (Bool × { rest : List Token // rest.length < tokens.length })
  | [], [] => none
  | [], .word name :: rest => some (value name, ⟨rest, by simp⟩)
  | [], .neg :: rest =>
    match descend value [] rest with
    | some (operand, ⟨later, shorter⟩) => some (!operand, ⟨later, by simp; omega⟩)
    | none => none
  | [], .opening :: rest =>
    match descend value Operator.precedences rest with
    | some (inner, ⟨.closing :: later, shorter⟩) =>
      some (inner, ⟨later, by simp at shorter ⊢; omega⟩)
    | _ => none
  | [], .binary _ :: _ => none
  | [], .closing :: _ => none
  | operator :: stronger, tokens =>
    match descend value stronger tokens with
    | none => none
    | some (left, ⟨.binary next :: rest, shorter⟩) =>
      if next = operator then
        match descend value (operator :: stronger) rest with
        | some (right, ⟨later, isRest⟩) =>
          some (operator.apply left right, ⟨later, by simp at shorter; omega⟩)
        | none => none
      else some (left, ⟨.binary next :: rest, shorter⟩)
    | some (left, rest) => some (left, rest)
termination_by operators tokens => (tokens.length, operators.length)
decreasing_by
  · decreasing_tactic
  · decreasing_tactic
  · decreasing_tactic
  · exact Prod.Lex.left _ _ (by simp only [List.length_cons] at shorter; omega)

/-- The value of the expression that a whole text is. -/
def read (language : Language) (environment : String → Bool) (text : String) : Option Bool :=
  match tokens language text.toList with
  | none => none
  | some tokens =>
    match descend (language.value environment) Operator.precedences tokens with
    | some (value, ⟨[], _⟩) => some value
    | _ => none

variable {language : Language}

section Tokens

theorem tokens_space {c : Char} (rest : List Char) (space : isSpace c = true) :
    tokens language (c :: rest) = tokens language rest := by
  rw [tokens.eq_def]
  exact if_pos space

theorem isSpace_of_isWordChar {c : Char} (inWord : isWordChar c = true) : isSpace c = false := by
  rw [Bool.eq_false_iff]
  intro space
  have listed : c = ' ' ∨ c = '\t' ∨ c = '\n' ∨ c = '\x0b' ∨ c = '\x0c' ∨ c = '\r' := by
    simpa [isSpace] using space
  rcases listed with rfl | rfl | rfl | rfl | rfl | rfl <;> exact absurd inWord (by decide)

/-- A sign is no character between tokens and none of a word. -/
theorem not_inside_of_sign? {c : Char} {token : Token} (sign : sign? c = some token) :
    isSpace c = false ∧ isWordChar c = false := by
  unfold sign? at sign
  split at sign <;> first | decide | cases sign

/-- The constants and variables of expressions. -/
structure IsName (name : String) : Prop where
  nonempty : name.toList ≠ []
  solid : ∀ c ∈ name.toList, isWordChar c = true

/-- A text that goes on with no character of a word. -/
def Ends (rest : List Char) : Prop := ∀ c ∈ rest.head?, isWordChar c = false

theorem ends_nil : Ends [] := nofun

theorem ends_cons {c : Char} {rest : List Char} (outside : isWordChar c = false) :
    Ends (c :: rest) := by
  intro d isHead
  obtain rfl : c = d := Option.some.inj isHead
  exact outside

theorem tokens_word {name : String} (isName : IsName name) {rest : List Char} (ends : Ends rest) :
    tokens language (name.toList ++ rest) =
      (tokens language rest).map (Token.word name :: ·) := by
  obtain ⟨c, chars, isCons⟩ := List.exists_cons_of_ne_nil isName.nonempty
  obtain ⟨first, others⟩ := List.forall_mem_cons.mp (isCons ▸ isName.solid)
  obtain ⟨taken, dropped⟩ := takeWhile_dropWhile_append others ends
  rw [isCons, List.cons_append, tokens.eq_def]
  simp only [isSpace_of_isWordChar first, first, taken, dropped, Bool.false_eq_true, ↓reduceIte]
  rw [← isCons, String.ofList_toList]

/-- A sign that is written once. -/
theorem tokens_single {c : Char} {token : Token} (sign : sign? c = some token)
    (single : token.isDoubled language = false) (rest : List Char) :
    tokens language (c :: rest) = (tokens language rest).map (token :: ·) := by
  obtain ⟨noSpace, noWord⟩ := not_inside_of_sign? sign
  rw [tokens.eq_def]
  cases rest with
  | nil => simp [noSpace, noWord, sign, single, tokens]
  | cons d later => simp [noSpace, noWord, sign, single]

/-- A sign that is written twice. -/
theorem tokens_double {c : Char} {token : Token} (sign : sign? c = some token)
    (double : token.isDoubled language = true) (rest : List Char) :
    tokens language (c :: c :: rest) = (tokens language rest).map (token :: ·) := by
  obtain ⟨noSpace, noWord⟩ := not_inside_of_sign? sign
  rw [tokens.eq_def]
  simp [noSpace, noWord, sign, double]

/-- An operator between two operands, with spaces around it. -/
def Language.sign (language : Language) (operator : Operator) : String :=
  let symbol := operator.symbol
  String.ofList (' ' :: (if language.doubles operator then [symbol, symbol] else [symbol]) ++ [' '])

theorem tokens_sign (operator : Operator) (rest : List Char) :
    tokens language ((language.sign operator).toList ++ rest) =
      (tokens language rest).map (Token.binary operator :: ·) := by
  have symbol : sign? operator.symbol = some (.binary operator) := by cases operator <;> rfl
  have blank : isSpace ' ' = true := by decide
  rw [Language.sign, String.toList_ofList]
  by_cases double : language.doubles operator = true
  · simp only [double, ↓reduceIte, List.cons_append, List.nil_append]
    rw [tokens_space _ blank, tokens_double symbol double, tokens_space _ blank]
  · have single : language.doubles operator = false := eq_false_of_ne_true double
    simp only [single, Bool.false_eq_true, ↓reduceIte, List.cons_append, List.nil_append]
    rw [tokens_space _ blank, tokens_single symbol single, tokens_space _ blank]

theorem ends_sign (operator : Operator) (rest : List Char) :
    Ends ((language.sign operator).toList ++ rest) := by
  rw [Language.sign, String.toList_ofList]
  exact ends_cons (by decide)

end Tokens

section Reads

variable {value : String → Bool} {levels : List Operator} {operator : Operator}
  {tokens rest later : List Token} {v w : Bool}

/-- From the front of some tokens an expression of the given value is read, with the given
operators outside of parentheses, and some tokens are left. -/
def Reads (value : String → Bool) (levels : List Operator) (tokens : List Token) (v : Bool)
    (rest : List Token) : Prop :=
  ∃ shorter, descend value levels tokens = some (v, ⟨rest, shorter⟩)

theorem reads_word (name : String) (rest : List Token) :
    Reads value [] (.word name :: rest) (value name) rest :=
  ⟨by simp, by rw [descend]⟩

theorem reads_neg (operand : Reads value [] tokens v rest) :
    Reads value [] (.neg :: tokens) (!v) rest := by
  obtain ⟨shorter, read⟩ := operand
  exact ⟨by simp; omega, by rw [descend, read]⟩

theorem reads_group (inner : Reads value Operator.precedences tokens v (.closing :: rest)) :
    Reads value [] (.opening :: tokens) v rest := by
  obtain ⟨shorter, read⟩ := inner
  exact ⟨by simp at shorter ⊢; omega, by rw [descend, read]⟩

/-- An operator that belongs to none of the weaker levels is left to whoever called them. -/
theorem reads_weaker (weaker : List Operator) (here : Reads value levels tokens v rest)
    (stops : ∀ next later, rest = .binary next :: later → next ∉ weaker) :
    Reads value (weaker ++ levels) tokens v rest := by
  induction weaker with
  | nil => exact here
  | cons operator weaker ih =>
    obtain ⟨shorter, read⟩ := ih fun next later is inWeaker =>
      stops next later is (List.mem_cons_of_mem _ inWeaker)
    refine ⟨shorter, ?_⟩
    rw [List.cons_append, descend, read]
    match rest with
    | [] => rfl
    | .binary next :: later =>
      refine if_neg ?_
      rintro rfl
      exact stops next later rfl (List.mem_cons_self ..)
    | .word _ :: _ => rfl
    | .neg :: _ => rfl
    | .opening :: _ => rfl
    | .closing :: _ => rfl

/-- An operator between an operand and what follows. -/
theorem reads_binary (left : Reads value levels tokens v (.binary operator :: rest))
    (right : Reads value (operator :: levels) rest w later) :
    Reads value (operator :: levels) tokens (operator.apply v w) later := by
  obtain ⟨shorter, readLeft⟩ := left
  obtain ⟨shorter', readRight⟩ := right
  refine ⟨by simp at shorter; omega, ?_⟩
  rw [descend, readLeft]
  simp only [↓reduceIte, readRight]

end Reads

section Means

variable {environment : String → Bool} {levels : List Operator} {operator : Operator}
  {text other : String} {v w : Bool}

/-- Wherever a text stands that no character of a word follows, it is an expression of the given
value, with the given operators outside of parentheses. -/
def Means (language : Language) (environment : String → Bool) (levels : List Operator)
    (text : String) (v : Bool) : Prop :=
  ∃ ts, (∀ rest, Ends rest →
      tokens language (text.toList ++ rest) = (tokens language rest).map (ts ++ ·)) ∧
    ∀ rest, (∀ next later, rest = .binary next :: later → next ∉ levels) →
      Reads (language.value environment) levels (ts ++ rest) v rest

theorem means_word (isName : IsName text) :
    Means language environment [] text (language.value environment text) :=
  ⟨[.word text], fun _ ends => tokens_word isName ends, fun rest _ => reads_word text rest⟩

theorem Means.neg (operand : Means language environment [] text v) :
    Means language environment [] ("!" ++ text) (!v) := by
  obtain ⟨ts, spells, reads⟩ := operand
  refine ⟨.neg :: ts, fun rest ends => ?_, fun rest stops => reads_neg (reads rest stops)⟩
  have sign : tokens language ('!' :: (text.toList ++ rest)) = _ := tokens_single rfl rfl _
  rw [String.toList_append, List.append_assoc]
  exact sign.trans (by rw [spells rest ends, Option.map_map]; rfl)

theorem Means.group (inner : Means language environment Operator.precedences text v) :
    Means language environment [] ("(" ++ text ++ ")") v := by
  obtain ⟨ts, spells, reads⟩ := inner
  refine ⟨.opening :: ts ++ [.closing], fun rest _ => ?_, fun rest _ => ?_⟩
  · have opening : tokens language ('(' :: (text.toList ++ ')' :: rest)) = _ :=
      tokens_single rfl rfl _
    have closing : tokens language (')' :: rest) = _ := tokens_single rfl rfl _
    rw [spells (')' :: rest) (ends_cons (by decide)), closing, Option.map_map,
      Option.map_map] at opening
    simpa [Function.comp_def] using opening
  · have after := reads_group (reads (.closing :: rest) nofun)
    simpa using after

/-- Operators that bind weaker may stand outside of parentheses too. -/
theorem Means.weaker (weaker : List Operator) (here : Means language environment levels text v) :
    Means language environment (weaker ++ levels) text v := by
  obtain ⟨ts, spells, reads⟩ := here
  refine ⟨ts, spells, fun rest stops => ?_⟩
  simp only [List.mem_append, not_or] at stops
  exact reads_weaker weaker (reads rest fun next later is => (stops next later is).2)
    fun next later is => (stops next later is).1

theorem Means.binary (left : Means language environment levels text v)
    (right : Means language environment (operator :: levels) other w)
    (separate : operator ∉ levels) :
    Means language environment (operator :: levels) (text ++ language.sign operator ++ other)
      (operator.apply v w) := by
  obtain ⟨ts, spells, reads⟩ := left
  obtain ⟨others, spellsOther, readsOther⟩ := right
  refine ⟨ts ++ .binary operator :: others, fun rest ends => ?_, fun rest stops => ?_⟩
  · rw [String.toList_append, String.toList_append, List.append_assoc, List.append_assoc,
      spells _ (ends_sign operator _), tokens_sign, spellsOther rest ends, Option.map_map,
      Option.map_map]
    simp [Function.comp_def]
  · rw [List.append_assoc]
    refine reads_binary (reads _ ?_) (readsOther rest stops)
    rintro next later is
    cases is
    exact separate

/-- Several operands with one operator between them. -/
theorem means_chain (operator : Operator) (operands : List (String × Bool)) (some : operands ≠ [])
    (each : ∀ operand ∈ operands, Means language environment [] operand.1 operand.2) :
    Means language environment Operator.precedences
      ((language.sign operator).intercalate (operands.map Prod.fst))
      ((operands.map Prod.snd).foldr operator.apply operator.unit) := by
  obtain ⟨weaker, stronger, isSplit, separate⟩ := operator.exists_weaker
  have inLevel : ∀ operand ∈ operands,
      Means language environment stronger operand.1 operand.2 := fun operand member => by
    simpa using (each operand member).weaker stronger
  rw [isSplit]
  refine Means.weaker weaker ?_
  induction operands with
  | nil => exact absurd rfl some
  | cons operand others ih =>
    obtain ⟨here, later⟩ := List.forall_mem_cons.mp inLevel
    cases others with
    | nil => simpa [operator.apply_unit] using here.weaker [operator]
    | cons second others =>
      have rest := ih (List.cons_ne_nil _ _) (List.forall_mem_cons.mp each).2 later
      simpa [String.intercalate_cons_cons] using here.binary rest separate

theorem read_of_means (whole : Means language environment Operator.precedences text v) :
    read language environment text = some v := by
  obtain ⟨ts, spells, reads⟩ := whole
  have cut := spells [] ends_nil
  obtain ⟨shorter, descended⟩ := reads [] nofun
  rw [List.append_nil, tokens, Option.map_some] at cut
  rw [read, cut]
  simp only [descended]

end Means

end IsaLogic.Expression
