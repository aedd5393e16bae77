import IsaLogic.Formula.Eval
import IsaLogic.Formula.Shape
import IsaLogic.Proofs.Ascending

/-!
# The meaning of formulas

One equation for `holds` and one for `occurrences` at every connective, and at
every collapsing constructor, so that later modules never open the fold behind
them. Truth depends only on the terms that occur (`holds_congr`), which is why
trying all assignments of these terms decides satisfiability
(`satisfiableByEnumeration_iff`).
-/

namespace IsaLogic

theorem all_congr_of_mem {α : Type} {p q : α → Bool} {list : List α}
    (same : ∀ a ∈ list, p a = q a) : list.all p = list.all q := by
  rw [Bool.eq_iff_iff, List.all_eq_true, List.all_eq_true]
  exact forall₂_congr fun a member => by rw [same a member]

theorem any_congr_of_mem {α : Type} {p q : α → Bool} {list : List α}
    (same : ∀ a ∈ list, p a = q a) : list.any p = list.any q := by
  rw [Bool.eq_iff_iff, List.any_eq_true, List.any_eq_true]
  exact exists_congr fun a => and_congr_right fun member => by rw [same a member]

theorem countP_congr_of_mem {α : Type} {p q : α → Bool} {list : List α}
    (same : ∀ a ∈ list, p a = q a) : list.countP p = list.countP q :=
  List.countP_congr fun a member => by rw [same a member]

namespace Literal

/-- Truth of a literal under a valuation of the terms. -/
def holds (valuation : Term → Bool) (literal : Literal) : Bool :=
  valuation literal.term == literal.positive

@[simp] theorem holds_negated (valuation : Term → Bool) (literal : Literal) :
    literal.negated.holds valuation = !literal.holds valuation := by
  simp only [holds, negated]
  cases valuation literal.term <;> cases literal.positive <;> rfl

@[simp] theorem negated_negated (literal : Literal) : literal.negated.negated = literal := by
  simp [negated]

@[simp] theorem negated_term (literal : Literal) : literal.negated.term = literal.term := rfl

end Literal

namespace Formula

section Equations

variable (valuation : Term → Bool)

@[simp] theorem holds_constant (value : Bool) : (constant value).holds valuation = value := rfl

@[simp] theorem holds_atom (term : Term) : (atom term).holds valuation = valuation term := rfl

@[simp] theorem holds_neg (f : Formula) : (neg f).holds valuation = !f.holds valuation := rfl

@[simp] theorem holds_conj (fs : List Formula) :
    (conj fs).holds valuation = fs.all (holds valuation) := by
  simp [holds, fold, foldList_eq_map]

@[simp] theorem holds_disj (fs : List Formula) :
    (disj fs).holds valuation = fs.any (holds valuation) := by
  simp [holds, fold, foldList_eq_map]

@[simp] theorem holds_exactlyOne (fs : List Formula) :
    (exactlyOne fs).holds valuation = (fs.countP (holds valuation) == 1) := by
  simp only [holds, fold, foldList_eq_map, List.count_eq_countP, List.countP_map]
  congr 2
  funext f
  simp

@[simp] theorem holds_noneOf (fs : List Formula) :
    (noneOf fs).holds valuation = !fs.any (holds valuation) := by
  simp [holds, fold, foldList_eq_map]

@[simp] theorem holds_implies (a b : Formula) :
    (implies a b).holds valuation = (!a.holds valuation || b.holds valuation) := rfl

@[simp] theorem holds_allOf (fs : List Formula) :
    (allOf fs).holds valuation = fs.all (holds valuation) := by
  match fs with
  | [] => rfl
  | [f] => simp [allOf]
  | f :: g :: rest => exact holds_conj valuation (f :: g :: rest)

@[simp] theorem holds_anyOf (fs : List Formula) :
    (anyOf fs).holds valuation = fs.any (holds valuation) := by
  match fs with
  | [] => rfl
  | [f] => simp [anyOf]
  | f :: g :: rest => exact holds_disj valuation (f :: g :: rest)

@[simp] theorem holds_oneOf (fs : List Formula) :
    (oneOf fs).holds valuation = (fs.countP (holds valuation) == 1) := by
  match fs with
  | [] => rfl
  | [f] => cases truth : f.holds valuation <;> simp [oneOf, truth]
  | f :: g :: rest => exact holds_exactlyOne valuation (f :: g :: rest)

@[simp] theorem holds_nor (fs : List Formula) :
    (nor fs).holds valuation = !fs.any (holds valuation) := by
  match fs with
  | [] => rfl
  | [f] => simp [nor]
  | f :: g :: rest => exact holds_noneOf valuation (f :: g :: rest)

@[simp] theorem holds_iff (a b : Formula) :
    (iff a b).holds valuation = (a.holds valuation == b.holds valuation) := by
  simp only [iff, holds_allOf, List.all_cons, List.all_nil, holds_implies]
  cases a.holds valuation <;> cases b.holds valuation <;> rfl

@[simp] theorem holds_toFormula (literal : Literal) :
    literal.toFormula.holds valuation = literal.holds valuation := by
  obtain ⟨term, positive⟩ := literal
  cases positive <;> simp [Literal.toFormula, Literal.holds]

end Equations

section Occurrences

@[simp] theorem occurrences_constant (value : Bool) : (constant value).occurrences = [] := rfl

@[simp] theorem occurrences_atom (term : Term) : (atom term).occurrences = [term] := rfl

@[simp] theorem occurrences_neg (f : Formula) : (neg f).occurrences = f.occurrences := rfl

@[simp] theorem occurrences_conj (fs : List Formula) :
    (conj fs).occurrences = fs.flatMap occurrences := by
  simp [occurrences, fold, foldList_eq_map, List.flatMap]

@[simp] theorem occurrences_disj (fs : List Formula) :
    (disj fs).occurrences = fs.flatMap occurrences := by
  simp [occurrences, fold, foldList_eq_map, List.flatMap]

@[simp] theorem occurrences_exactlyOne (fs : List Formula) :
    (exactlyOne fs).occurrences = fs.flatMap occurrences := by
  simp [occurrences, fold, foldList_eq_map, List.flatMap]

@[simp] theorem occurrences_noneOf (fs : List Formula) :
    (noneOf fs).occurrences = fs.flatMap occurrences := by
  simp [occurrences, fold, foldList_eq_map, List.flatMap]

@[simp] theorem occurrences_implies (a b : Formula) :
    (implies a b).occurrences = a.occurrences ++ b.occurrences := rfl

@[simp] theorem occurrences_allOf (fs : List Formula) :
    (allOf fs).occurrences = fs.flatMap occurrences := by
  match fs with
  | [] => rfl
  | [f] => simp [allOf]
  | f :: g :: rest => exact occurrences_conj (f :: g :: rest)

@[simp] theorem occurrences_anyOf (fs : List Formula) :
    (anyOf fs).occurrences = fs.flatMap occurrences := by
  match fs with
  | [] => rfl
  | [f] => simp [anyOf]
  | f :: g :: rest => exact occurrences_disj (f :: g :: rest)

@[simp] theorem occurrences_oneOf (fs : List Formula) :
    (oneOf fs).occurrences = fs.flatMap occurrences := by
  match fs with
  | [] => rfl
  | [f] => simp [oneOf]
  | f :: g :: rest => exact occurrences_exactlyOne (f :: g :: rest)

@[simp] theorem occurrences_nor (fs : List Formula) :
    (nor fs).occurrences = fs.flatMap occurrences := by
  match fs with
  | [] => rfl
  | [f] => simp [nor]
  | f :: g :: rest => exact occurrences_noneOf (f :: g :: rest)

@[simp] theorem occurrences_toFormula (literal : Literal) :
    literal.toFormula.occurrences = [literal.term] := by
  obtain ⟨term, positive⟩ := literal
  cases positive <;> rfl

@[simp] theorem mem_terms {f : Formula} {term : Term} : term ∈ f.terms ↔ term ∈ f.occurrences :=
  mem_ascending

end Occurrences

/-- Truth depends only on the values of the terms that occur. -/
theorem holds_congr {f : Formula} {v w : Term → Bool} (same : ∀ t ∈ f.occurrences, v t = w t) :
    f.holds v = f.holds w := by
  have operands : ∀ fs : List Formula, (∀ f ∈ fs, (∀ t ∈ f.occurrences, v t = w t) →
      f.holds v = f.holds w) → (∀ t ∈ fs.flatMap occurrences, v t = w t) →
      ∀ f ∈ fs, f.holds v = f.holds w := by
    intro fs ih same f member
    exact ih f member fun t occurs => same t (List.mem_flatMap.mpr ⟨f, member, occurs⟩)
  induction f using Formula.induct with
  | constant value => rfl
  | atom term => exact same term (by simp)
  | neg f ih => rw [holds_neg, holds_neg, ih same]
  | conj fs ih =>
    rw [occurrences_conj] at same
    rw [holds_conj, holds_conj]
    exact all_congr_of_mem (operands fs ih same)
  | disj fs ih =>
    rw [occurrences_disj] at same
    rw [holds_disj, holds_disj]
    exact any_congr_of_mem (operands fs ih same)
  | exactlyOne fs ih =>
    rw [occurrences_exactlyOne] at same
    rw [holds_exactlyOne, holds_exactlyOne, countP_congr_of_mem (operands fs ih same)]
  | noneOf fs ih =>
    rw [occurrences_noneOf] at same
    rw [holds_noneOf, holds_noneOf, any_congr_of_mem (operands fs ih same)]
  | implies a b ihA ihB =>
    rw [holds_implies, holds_implies,
      ihA fun t occurs => same t (by simp [occurs]),
      ihB fun t occurs => same t (by simp [occurs])]

/-- Some valuation makes the formula true. -/
def Satisfiable (f : Formula) : Prop := ∃ valuation : Term → Bool, f.holds valuation = true

/-- Two formulas are true under the same valuations. -/
def Equivalent (f g : Formula) : Prop :=
  ∀ valuation : Term → Bool, f.holds valuation = g.holds valuation

/-- Every valuation that makes the one formula true makes the other true. -/
def Entails (f g : Formula) : Prop :=
  ∀ valuation : Term → Bool, f.holds valuation = true → g.holds valuation = true

theorem Equivalent.satisfiable_iff {f g : Formula} (equivalent : f.Equivalent g) :
    f.Satisfiable ↔ g.Satisfiable :=
  exists_congr fun valuation => by rw [equivalent valuation]

/-- Two formulas are equivalent if none of them holds without the other. -/
theorem equivalent_iff_not_satisfiable (f g : Formula) :
    f.Equivalent g ↔ ¬ (oneOf [f, g]).Satisfiable := by
  simp only [Equivalent, Satisfiable, not_exists]
  refine forall_congr' fun valuation => ?_
  cases atF : f.holds valuation <;> cases atG : g.holds valuation <;> simp [atF, atG]

/-- One formula entails another if it never holds without it. -/
theorem entails_iff_not_satisfiable (f g : Formula) :
    f.Entails g ↔ ¬ (allOf [f, neg g]).Satisfiable := by
  simp only [Entails, Satisfiable, not_exists]
  refine forall_congr' fun valuation => ?_
  cases atF : f.holds valuation <;> cases atG : g.holds valuation <;> simp [atF, atG]

end Formula

namespace Assignment

/-- The assignment of some terms that a valuation describes. -/
def ofValuation (valuation : Term → Bool) (terms : List Term) : Assignment :=
  terms.map fun term => (term, valuation term)

theorem value_ofValuation (valuation : Term → Bool) {terms : List Term} {term : Term}
    (member : term ∈ terms) : (ofValuation valuation terms).value term = valuation term := by
  induction terms with
  | nil => cases member
  | cons first rest ih =>
    by_cases here : first = term
    · simp [ofValuation, value, lookup?, here]
    · have later : term ∈ rest := (List.mem_cons.mp member).resolve_left (Ne.symm here)
      have skipped : (ofValuation valuation (first :: rest)).value term =
          (ofValuation valuation rest).value term := by
        simp [ofValuation, value, lookup?, here]
      rw [skipped, ih later]

/-- Every valuation is among the assignments that are tried. -/
theorem ofValuation_mem_allOf (valuation : Term → Bool) (terms : List Term) :
    ofValuation valuation terms ∈ allOf terms := by
  induction terms with
  | nil => exact List.mem_singleton.mpr rfl
  | cons term rest ih =>
    have ⟨value, here⟩ : ∃ value, valuation term = value := ⟨_, rfl⟩
    rw [allOf, List.mem_append]
    simp only [ofValuation, List.map_cons, List.mem_map, here]
    cases value
    · exact .inl ⟨_, ih, rfl⟩
    · exact .inr ⟨_, ih, rfl⟩

end Assignment

namespace Formula

/-- Trying all assignments of its terms decides whether a formula is satisfiable. -/
theorem satisfiableByEnumeration_iff (f : Formula) :
    f.satisfiableByEnumeration = true ↔ f.Satisfiable := by
  rw [satisfiableByEnumeration, List.any_eq_true]
  constructor
  · rintro ⟨assignment, _, truth⟩
    exact ⟨assignment.value, truth⟩
  · rintro ⟨valuation, truth⟩
    refine ⟨_, Assignment.ofValuation_mem_allOf valuation f.terms, ?_⟩
    rw [← truth]
    exact holds_congr fun t occurs => Assignment.value_ofValuation valuation (mem_terms.mpr occurs)

end Formula

end IsaLogic
