import IsaLogic.Proofs.Formula.Simplification

/-!
# Three-valued truth of decided formulas

Where every term of a formula is known to be true or false, the three-valued
verdict is the truth value (`verdict_eq_ofBool`). Each connective on verdicts is
compared with the one on truth values once.
-/

namespace IsaLogic

namespace Verdict

@[simp] theorem ofBool_eq_yes (value : Bool) : ofBool value = yes ↔ value = true := by
  cases value <;> simp [ofBool]

@[simp] theorem ofBool_eq_no (value : Bool) : ofBool value = no ↔ value = false := by
  cases value <;> simp [ofBool]

theorem ofBool_ne_maybe (value : Bool) : ofBool value ≠ maybe := by
  cases value <;> nofun

/-- A decided verdict is that of the truth value which is true just for `yes`. -/
theorem eq_ofBool {verdict : Verdict} {value : Bool} (decided : verdict ≠ maybe)
    (matching : value = true ↔ verdict = yes) : verdict = ofBool value := by
  cases verdict with
  | yes => rw [matching.mpr rfl]; rfl
  | no =>
    cases value with
    | false => rfl
    | true => cases matching.mp rfl
  | maybe => exact absurd rfl decided

@[simp] theorem negate_ofBool (value : Bool) : (ofBool value).negate = ofBool !value := by
  cases value <;> rfl

@[simp] theorem implies_ofBool (a b : Bool) :
    (ofBool a).implies (ofBool b) = ofBool (!a || b) := by
  cases a <;> cases b <;> rfl

section Decided

variable {results : List Verdict}

theorem all_of_no (failing : no ∈ results) : all results = no :=
  if_pos (List.contains_iff_mem.mpr failing)

theorem all_of_maybe (noneFails : no ∉ results) (isOpen : maybe ∈ results) :
    all results = maybe := by
  simp [all, noneFails, isOpen]

theorem any_of_yes (holding : yes ∈ results) : any results = yes :=
  if_pos (List.contains_iff_mem.mpr holding)

theorem any_of_maybe (noneHolds : yes ∉ results) (isOpen : maybe ∈ results) :
    any results = maybe := by
  simp [any, noneHolds, isOpen]

theorem exactlyOne_of_several (several : 2 ≤ results.count yes) : exactlyOne results = no :=
  if_pos several

theorem exactlyOne_of_maybe (notSeveral : ¬ 2 ≤ results.count yes) (isOpen : maybe ∈ results) :
    exactlyOne results = maybe := by
  simp only [exactlyOne, notSeveral, if_false, List.contains_iff_mem.mpr isOpen, if_true]

end Decided

section Lists

variable (values : List Bool)

theorem maybe_not_mem_ofBool : maybe ∉ values.map ofBool := by
  intro member
  obtain ⟨value, _, is⟩ := List.mem_map.mp member
  cases value <;> cases is

theorem mem_map_ofBool (value : Bool) : ofBool value ∈ values.map ofBool ↔ value ∈ values := by
  constructor
  · intro member
    obtain ⟨other, isOther, same⟩ := List.mem_map.mp member
    cases value <;> cases other <;> first | exact isOther | cases same
  · exact List.mem_map_of_mem

theorem all_ofBool : all (values.map ofBool) = ofBool (values.all id) := by
  have noMember : no ∈ values.map ofBool ↔ false ∈ values := mem_map_ofBool values false
  unfold all
  simp only [List.contains_iff_mem, noMember, maybe_not_mem_ofBool, if_false]
  split
  · rename_i failing
    rw [List.all_eq_false.mpr ⟨false, failing, by simp⟩]
    rfl
  · rename_i noneFails
    rw [List.all_eq_true.mpr fun value member => ?_]
    · rfl
    · cases value
      · exact absurd member noneFails
      · rfl

theorem any_ofBool : any (values.map ofBool) = ofBool (values.any id) := by
  have yesMember : yes ∈ values.map ofBool ↔ true ∈ values := mem_map_ofBool values true
  unfold any
  simp only [List.contains_iff_mem, yesMember, maybe_not_mem_ofBool, if_false]
  split
  · rename_i holding
    rw [List.any_eq_true.mpr ⟨true, holding, rfl⟩]
    rfl
  · rename_i noneHolds
    rw [List.any_eq_false.mpr fun value member => ?_]
    · rfl
    · cases value
      · simp
      · exact absurd member noneHolds

theorem exactlyOne_ofBool : exactlyOne (values.map ofBool) = ofBool (values.count true == 1) := by
  have counted : (values.map ofBool).count yes = values.count true := by
    induction values with
    | nil => rfl
    | cons value values ih => cases value <;> simp [ih, ofBool]
  unfold exactlyOne
  simp only [counted, List.contains_iff_mem, maybe_not_mem_ofBool, if_false]
  split
  · rename_i several
    rw [beq_eq_false_iff_ne.mpr (by omega)]
    rfl
  · split
    · rename_i one
      rw [beq_iff_eq.mpr one]
      rfl
    · rename_i notOne
      rw [beq_eq_false_iff_ne.mpr notOne]
      rfl

end Lists

end Verdict

namespace Formula

section Equations

variable (known : Term → Verdict)

theorem verdict_conj (fs : List Formula) :
    (conj fs).verdict known = Verdict.all (fs.map (verdict known)) := by
  simp [verdict, fold, foldList_eq_map]

theorem verdict_disj (fs : List Formula) :
    (disj fs).verdict known = Verdict.any (fs.map (verdict known)) := by
  simp [verdict, fold, foldList_eq_map]

theorem verdict_exactlyOne (fs : List Formula) :
    (exactlyOne fs).verdict known = Verdict.exactlyOne (fs.map (verdict known)) := by
  simp [verdict, fold, foldList_eq_map]

theorem verdict_noneOf (fs : List Formula) :
    (noneOf fs).verdict known = Verdict.none (fs.map (verdict known)) := by
  simp [verdict, fold, foldList_eq_map]

theorem verdict_neg (f : Formula) : (neg f).verdict known = (f.verdict known).negate := rfl

theorem verdict_implies (a b : Formula) :
    (implies a b).verdict known = (a.verdict known).implies (b.verdict known) := rfl

end Equations

/-- The verdict on a formula whose terms are all decided is its truth value. -/
theorem verdict_eq_ofBool {known : Term → Verdict} {valuation : Term → Bool} {f : Formula}
    (decided : f.MentionsOnly fun t => known t = Verdict.ofBool (valuation t)) :
    f.verdict known = Verdict.ofBool (f.holds valuation) := by
  have operands : ∀ fs : List Formula,
      (∀ f ∈ fs, f.MentionsOnly (fun t => known t = Verdict.ofBool (valuation t)) →
        f.verdict known = Verdict.ofBool (f.holds valuation)) →
      (∀ f ∈ fs, f.MentionsOnly fun t => known t = Verdict.ofBool (valuation t)) →
      fs.map (verdict known) = (fs.map (holds valuation)).map Verdict.ofBool := by
    intro fs ih decided
    rw [List.map_map]
    exact List.map_congr_left fun f member => ih f member (decided f member)
  induction f using Formula.induct with
  | constant value => rfl
  | atom term => exact (mentionsOnly_atom term).mp decided
  | neg f ih => rw [verdict_neg, ih decided, Verdict.negate_ofBool, holds_neg]
  | conj fs ih =>
    rw [verdict_conj, operands fs ih ((mentionsOnly_conj fs).mp decided), Verdict.all_ofBool,
      holds_conj, List.all_map, Function.id_comp]
  | disj fs ih =>
    rw [verdict_disj, operands fs ih ((mentionsOnly_disj fs).mp decided), Verdict.any_ofBool,
      holds_disj, List.any_map, Function.id_comp]
  | exactlyOne fs ih =>
    rw [verdict_exactlyOne, operands fs ih ((mentionsOnly_exactlyOne fs).mp decided),
      Verdict.exactlyOne_ofBool, holds_exactlyOne, List.count_eq_countP, List.countP_map]
    congr 3
    funext f
    simp
  | noneOf fs ih =>
    rw [verdict_noneOf, operands fs ih ((mentionsOnly_noneOf fs).mp decided), Verdict.none,
      Verdict.any_ofBool, Verdict.negate_ofBool, holds_noneOf, List.any_map, Function.id_comp]
  | implies a b ihA ihB =>
    obtain ⟨decidedA, decidedB⟩ := (mentionsOnly_implies a b).mp decided
    rw [verdict_implies, ihA decidedA, ihB decidedB, Verdict.implies_ofBool, holds_implies]

end Formula

end IsaLogic
