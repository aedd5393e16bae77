import Mathlib
import IsaLogic.Formula.Render
import IsaLogic.Proofs.Formula.Proper
import IsaLogic.Proofs.Term.Identifier
import IsaLogic.Proofs.Text.Expression

/-!
# Rendered formulas are read back

In C and in equations the text of a formula is an expression, and its value is that of the formula
where every term has the value of the variable that its identifier names (`read_render`).

Each connective keeps that operands are written as operands and wholes as expressions (`Written`):
there is one lemma for each constructor. Exactly-one of two operands is the exclusive disjunction
that both languages have. Of more operands it is spelled out in negation normal form, which is
written by the lemmas for conjunctions and disjunctions (`written_nnf`).

A connective without operands would leave parentheses around nothing, so formulas are taken to be
proper.
-/

namespace IsaLogic

open Expression

namespace Term

theorem isName_identifier (term : Term) : IsName term.identifier where
  nonempty := term.isPlain_identifier.1
  solid := List.all_eq_true.mp term.isPlain_identifier.2

/-- No identifier is a constant: a constant has no low line, and is neither a width nor a number
behind a letter. -/
theorem identifier_ne_constant (term : Term) :
    ∀ word ∈ ["true", "false", "1", "0"], term.identifier ≠ word := by
  rintro word isConstant rfl
  have words : ∀ word ∈ ["true", "false", "1", "0"], '_' ∉ word.toList ∧
      word.toList.head? ≠ some 'X' ∧ (word.toList.head? = some 't' →
        word.toList.tail.all Char.isDigit = false) := by decide
  obtain ⟨noLow, noWidth, noNumber⟩ := words _ isConstant
  cases term with
  | extension => exact noLow ((low_mem_identifier _).mpr rfl)
  | parameter => exact noLow ((low_mem_identifier _).mpr rfl)
  | xlen width => exact noWidth (head?_identifier_xlen width)
  | free id =>
    rw [toList_identifier_free] at noNumber
    exact toString_ne_of_letter (noNumber rfl) rfl

theorem value_identifier (language : Language) (environment : String → Bool) (term : Term) :
    language.value environment term.identifier = environment term.identifier := by
  have constants := term.identifier_ne_constant
  have verum : term.identifier ≠ language.verum := by
    cases language <;> exact constants _ (by simp [Language.verum])
  have falsum : term.identifier ≠ language.falsum := by
    cases language <;> exact constants _ (by simp [Language.falsum])
  rw [Language.value, if_neg verum, if_neg falsum]

end Term

namespace Expression.Language

/-- The signs of a language of expressions. -/
def signs : Language → Signs
  | .c => .c
  | .equation => .equation

variable (language : Language)

theorem signs_neg : language.signs.neg = "!" := by cases language <;> rfl

theorem signs_conj : language.signs.conj = language.sign .conj := by cases language <;> rfl

theorem signs_disj : language.signs.disj = language.sign .disj := by cases language <;> rfl

theorem signs_exactlyOne : language.signs.exactlyOne = language.sign .exclusive := by
  cases language <;> rfl

theorem signs_implies : language.signs.implies = none := by cases language <;> rfl

theorem spell_signs (term : Term) : language.signs.spell term = term.identifier := by
  cases language <;> rfl

end Expression.Language

namespace Formula

variable {language : Language} {environment : String → Bool} {f : Formula} {fs : List Formula}

/-- The values of terms in an environment. -/
def valuationOf (environment : String → Bool) (term : Term) : Bool := environment term.identifier

/-- As an operand a formula is written as an operand, and as the whole as an expression, of its
value. -/
structure Written (language : Language) (environment : String → Bool) (f : Formula) : Prop where
  inner : Means language environment [] (f.renderWith language.signs false)
    (f.holds (valuationOf environment))
  whole : Means language environment Operator.precedences (f.renderWith language.signs true)
    (f.holds (valuationOf environment))

section Equations

variable (signs : Signs) (fs : List Formula) (top : Bool)

theorem renderWith_conj : (conj fs).renderWith signs top =
    wrap top (signs.conj.intercalate (fs.map (renderWith signs · false))) := by
  simp only [renderWith, fold, foldList_eq_map, joinInner, List.map_map, Function.comp_def]

theorem renderWith_disj : (disj fs).renderWith signs top =
    wrap top (signs.disj.intercalate (fs.map (renderWith signs · false))) := by
  simp only [renderWith, fold, foldList_eq_map, joinInner, List.map_map, Function.comp_def]

theorem renderWith_exactlyOne : (exactlyOne fs).renderWith signs top =
    wrap top (signs.exactlyOne.intercalate (fs.map (renderWith signs · false))) := by
  simp only [renderWith, fold, foldList_eq_map, joinInner, List.map_map, Function.comp_def]

theorem renderWith_noneOf : (noneOf fs).renderWith signs top =
    signs.neg ++ ("(" ++ signs.disj.intercalate (fs.map (renderWith signs · false)) ++ ")") := by
  simp only [renderWith, fold, foldList_eq_map, joinInner, List.map_map, Function.comp_def,
    String.append_assoc]

/-- Where implications have no sign, they are written as disjunctions. -/
theorem renderWith_implies {signs : Signs} (a b : Formula) (absent : signs.implies = none) :
    (implies a b).renderWith signs top = (disj [neg a, b]).renderWith signs top := by
  simp [renderWith, fold, foldList, joinInner, absent, String.intercalate_cons_cons]

end Equations

section Written

/-- An operand has no parentheses around it. -/
theorem written_of_operand {text : String} {value : Bool}
    (means : Means language environment [] text value)
    (rendered : ∀ top, f.renderWith language.signs top = text)
    (holds : f.holds (valuationOf environment) = value) : Written language environment f where
  inner := by
    rw [rendered, holds]
    exact means
  whole := by
    rw [rendered, holds]
    exact means.weaker Operator.precedences

/-- An expression has parentheses around it as an operand, none as the whole. -/
theorem written_of_expression {text : String} {value : Bool}
    (means : Means language environment Operator.precedences text value)
    (rendered : ∀ top, f.renderWith language.signs top = wrap top text)
    (holds : f.holds (valuationOf environment) = value) : Written language environment f where
  inner := by
    rw [rendered, holds]
    exact means.group
  whole := by
    rw [rendered, holds]
    exact means

theorem written_constant (value : Bool) : Written language environment (.constant value) := by
  have word : Means language environment []
      (if value then language.signs.verum else language.signs.falsum) value := by
    cases language <;> cases value <;>
      exact means_word ⟨by decide, List.all_eq_true.mp (by decide)⟩
  exact written_of_operand word (fun _ => rfl) rfl

theorem written_atom (term : Term) : Written language environment (.atom term) := by
  have word : Means language environment [] term.identifier (environment term.identifier) := by
    rw [← term.value_identifier language environment]
    exact means_word term.isName_identifier
  exact written_of_operand word (fun _ => language.spell_signs term) rfl

theorem Written.neg (operand : Written language environment f) :
    Written language environment (.neg f) :=
  written_of_operand operand.inner.neg (fun _ => congrArg (· ++ _) language.signs_neg) rfl

/-- The texts of some operands with an operator between them. -/
def operandsText (language : Language) (operator : Operator) (fs : List Formula) : String :=
  (language.sign operator).intercalate (fs.map (renderWith language.signs · false))

theorem means_operandsText (operator : Operator) (some : fs ≠ [])
    (each : ∀ f ∈ fs, Written language environment f) :
    Means language environment Operator.precedences (operandsText language operator fs)
      ((fs.map (holds (valuationOf environment))).foldr operator.apply operator.unit) := by
  let operand (f : Formula) :=
    (f.renderWith language.signs false, f.holds (valuationOf environment))
  have operands : ∀ pair ∈ fs.map operand, Means language environment [] pair.1 pair.2 :=
    List.forall_mem_map.mpr fun f member => (each f member).inner
  have chain := means_chain operator (fs.map operand) (by simpa using some) operands
  rwa [List.map_map, List.map_map] at chain

theorem foldr_conj (bs : List Bool) :
    bs.foldr Operator.conj.apply Operator.conj.unit = bs.all id := by
  induction bs with
  | nil => rfl
  | cons b bs ih => rw [List.foldr_cons, ih]; rfl

theorem foldr_disj (bs : List Bool) :
    bs.foldr Operator.disj.apply Operator.disj.unit = bs.any id := by
  induction bs with
  | nil => rfl
  | cons b bs ih => rw [List.foldr_cons, ih]; rfl

theorem Written.conj (some : fs ≠ []) (each : ∀ f ∈ fs, Written language environment f) :
    Written language environment (.conj fs) := by
  refine written_of_expression (means_operandsText .conj some each) (fun top => ?_) ?_
  · rw [renderWith_conj, language.signs_conj, operandsText]
  · rw [holds_conj, foldr_conj, List.all_map]
    rfl

theorem Written.disj (some : fs ≠ []) (each : ∀ f ∈ fs, Written language environment f) :
    Written language environment (.disj fs) := by
  refine written_of_expression (means_operandsText .disj some each) (fun top => ?_) ?_
  · rw [renderWith_disj, language.signs_disj, operandsText]
  · rw [holds_disj, foldr_disj, List.any_map]
    rfl

/-- Of two operands, exactly one holds if they differ. -/
theorem Written.exactlyOne (two : fs.length = 2)
    (each : ∀ f ∈ fs, Written language environment f) :
    Written language environment (.exactlyOne fs) := by
  obtain ⟨a, b, rfl⟩ := List.length_eq_two.mp two
  refine written_of_expression (means_operandsText .exclusive (List.cons_ne_nil _ _) each)
    (fun top => ?_) ?_
  · rw [renderWith_exactlyOne, language.signs_exactlyOne, operandsText]
  · simp only [holds_exactlyOne, List.map_cons, List.map_nil, List.foldr_cons, List.foldr_nil,
      List.countP_cons, List.countP_nil]
    cases a.holds (valuationOf environment) <;> cases b.holds (valuationOf environment) <;> rfl

theorem Written.noneOf (some : fs ≠ []) (each : ∀ f ∈ fs, Written language environment f) :
    Written language environment (.noneOf fs) := by
  refine written_of_operand (means_operandsText .disj some each).group.neg (fun top => ?_) ?_
  · rw [renderWith_noneOf, language.signs_neg, language.signs_disj, operandsText]
  · rw [holds_noneOf, foldr_disj, List.any_map]
    rfl

theorem Written.implies {a b : Formula} (before : Written language environment a)
    (after : Written language environment b) : Written language environment (.implies a b) := by
  have operands : ∀ f ∈ [Formula.neg a, b], Written language environment f := by
    simpa using And.intro before.neg after
  refine written_of_expression (means_operandsText .disj (List.cons_ne_nil _ _) operands)
    (fun top => ?_) ?_
  · rw [renderWith_implies top a b language.signs_implies, renderWith_disj, language.signs_disj,
      operandsText]
  · rw [foldr_disj, List.any_map]
    simp

theorem Written.allOf (each : ∀ f ∈ fs, Written language environment f) :
    Written language environment (allOf fs) := by
  match fs with
  | [] => exact written_constant true
  | [f] => exact each f (List.mem_singleton_self f)
  | f :: g :: rest => exact Written.conj (List.cons_ne_nil _ _) each

theorem Written.anyOf (each : ∀ f ∈ fs, Written language environment f) :
    Written language environment (anyOf fs) := by
  match fs with
  | [] => exact written_constant false
  | [f] => exact each f (List.mem_singleton_self f)
  | f :: g :: rest => exact Written.disj (List.cons_ne_nil _ _) each

theorem written_nnf (f : Formula) : Written language environment f.nnf :=
  nnfWith_induction written_constant
    (fun term _ => ⟨written_atom term, (written_atom term).neg⟩)
    (fun _ => Written.allOf) (fun _ => Written.anyOf) true

end Written

section SpellOutOne

theorem spellOutOnes_eq_map (fs : List Formula) : spellOutOnes fs = fs.map spellOutOne := by
  induction fs with
  | nil => rfl
  | cons f fs ih => rw [spellOutOnes, ih, List.map_cons]

theorem written_spellOutOne (proper : f.isProper = true) :
    Written language environment f.spellOutOne := by
  have operands : ∀ fs : List Formula, (∀ f ∈ fs, f.isProper = true →
      Written language environment f.spellOutOne) → (∀ f ∈ fs, f.isProper = true) →
      ∀ g ∈ spellOutOnes fs, Written language environment g := by
    intro fs ih each
    rw [spellOutOnes_eq_map]
    exact List.forall_mem_map.mpr fun f member => ih f member (each f member)
  have nonempty : ∀ fs : List Formula, 1 < fs.length → spellOutOnes fs ≠ [] := by
    rintro fs several
    rw [spellOutOnes_eq_map]
    simp only [ne_eq, List.map_eq_nil_iff]
    rintro rfl
    cases several
  induction f using Formula.induct with
  | constant value => exact written_constant value
  | atom term => exact written_atom term
  | neg f ih => exact (ih proper).neg
  | conj fs ih =>
    obtain ⟨several, each⟩ := isProper_conj.mp proper
    exact Written.conj (nonempty fs several) (operands fs ih each)
  | disj fs ih =>
    obtain ⟨several, each⟩ := isProper_disj.mp proper
    exact Written.disj (nonempty fs several) (operands fs ih each)
  | exactlyOne fs ih =>
    obtain ⟨several, each⟩ := isProper_exactlyOne.mp proper
    rw [spellOutOne]
    split
    · rename_i two
      exact Written.exactlyOne (by simpa [spellOutOnes_eq_map] using two) (operands fs ih each)
    · exact written_nnf _
  | noneOf fs ih =>
    obtain ⟨several, each⟩ := isProper_noneOf.mp proper
    exact Written.noneOf (nonempty fs several) (operands fs ih each)
  | implies a b ihA ihB =>
    obtain ⟨properA, properB⟩ := isProper_implies.mp proper
    exact (ihA properA).implies (ihB properB)

theorem holds_spellOutOne (valuation : Term → Bool) (f : Formula) :
    f.spellOutOne.holds valuation = f.holds valuation := by
  induction f using Formula.induct with
  | constant => rfl
  | atom => rfl
  | neg f ih => rw [spellOutOne, holds_neg, holds_neg, ih]
  | conj fs ih =>
    rw [spellOutOne, spellOutOnes_eq_map, holds_conj, holds_conj, List.all_map]
    exact all_congr_of_mem ih
  | disj fs ih =>
    rw [spellOutOne, spellOutOnes_eq_map, holds_disj, holds_disj, List.any_map]
    exact any_congr_of_mem ih
  | exactlyOne fs ih =>
    rw [spellOutOne]
    split
    · rw [spellOutOnes_eq_map, holds_exactlyOne, holds_exactlyOne, List.countP_map]
      exact congrArg (· == 1) (countP_congr_of_mem ih)
    · exact holds_nnf valuation _
  | noneOf fs ih =>
    rw [spellOutOne, spellOutOnes_eq_map, holds_noneOf, holds_noneOf, List.any_map]
    exact congrArg not (any_congr_of_mem ih)
  | implies a b ihA ihB => rw [spellOutOne, holds_implies, holds_implies, ihA, ihB]

end SpellOutOne

/-- The text of a formula in C or as an equation is read to the value of the formula. -/
theorem read_render (proper : f.isProper = true) (language : Language)
    (environment : String → Bool) :
    read language environment (f.render language.signs) =
      some (f.holds fun term => environment term.identifier) := by
  have isBinary : language.signs.exactlyOneIsBinary = true := by cases language <;> rfl
  have written : Written language environment f.spellOutOne := written_spellOutOne proper
  rw [render, if_pos isBinary, read_of_means written.whole, holds_spellOutOne]
  rfl

/-- Exactly-one of three and of two operands, and negations of negations. -/
theorem read_render_nested :
    let width := Formula.atom (.xlen .rv64)
    let exact := Formula.atom (.extension (.exact "Zba" .zero))
    let mode := Formula.atom (.parameter (.make "MODE" .value (.equal (.str "on"))))
    let f := Formula.implies (.exactlyOne [width, .noneOf [exact, mode], .constant false])
      (.neg (.neg (.conj [width, .exactlyOne [.disj [exact, mode], .neg (.neg width)]])))
    let environment := fun name => name == "XLEN64"
    f.isProper = true ∧ read .c environment (f.render .c) = some true ∧
      read .equation environment (f.render .equation) = some true := by
  intro width exact mode f environment
  have proper : f.isProper = true := by decide
  have value : f.holds (fun term => environment term.identifier) = true := by
    dsimp only [f, environment, width, exact, mode]
    cbv
  have c := read_render proper .c environment
  have equation := read_render proper .equation environment
  rw [value] at c equation
  exact ⟨proper, c, equation⟩

end Formula

end IsaLogic
