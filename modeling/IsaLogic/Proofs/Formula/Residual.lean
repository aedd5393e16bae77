import IsaLogic.Proofs.Formula.Knowledge
import IsaLogic.Proofs.Formula.Reduced

/-!
# What is left of a formula

To put in the known terms and to simplify is one reading of the formula, from its leaves to
its root (`partialEvaluate_conj` and its companions): a connective that collapses is
simplified as if it had not.

On this reading, each rule that removes constants is compared with the rule that decides the
connective. A verdict settles a formula (`Settles`) if the formula is the constant of the
verdict as soon as there is one. There are two ways to decide a connective: by some operands,
whatever the others are, or by all of them. In the second case the operands left over are
constants, and a simplified formula without terms is a constant (`IsReduced.eq_constant`).
-/

namespace IsaLogic

namespace Formula

section Equations

variable (known : Term → Verdict)

theorem partialEvaluate_neg (f : Formula) :
    (neg f).partialEvaluate known = negateReduced (f.partialEvaluate known) := rfl

theorem partialEvaluate_implies (a b : Formula) :
    (implies a b).partialEvaluate known =
      reduceImplies (a.partialEvaluate known) (b.partialEvaluate known) := rfl

theorem partialEvaluate_conj (fs : List Formula) :
    (conj fs).partialEvaluate known = reduceConj (fs.map (partialEvaluate known)) := by
  rw [partialEvaluate, substitute_conj, reduce_allOf, List.map_map]
  rfl

theorem partialEvaluate_disj (fs : List Formula) :
    (disj fs).partialEvaluate known = reduceDisj (fs.map (partialEvaluate known)) := by
  rw [partialEvaluate, substitute_disj, reduce_anyOf, List.map_map]
  rfl

theorem partialEvaluate_exactlyOne (fs : List Formula) :
    (exactlyOne fs).partialEvaluate known = reduceExactlyOne (fs.map (partialEvaluate known)) := by
  rw [partialEvaluate, substitute_exactlyOne, reduce_oneOf, List.map_map]
  rfl

theorem partialEvaluate_noneOf (fs : List Formula) :
    (noneOf fs).partialEvaluate known = reduceNoneOf (fs.map (partialEvaluate known)) := by
  rw [partialEvaluate, substitute_noneOf, reduce_nor, List.map_map]
  rfl

end Equations

/-- Only the terms of which nothing is known are kept. -/
theorem mentionsOnly_maybe_substitute (known : Term → Verdict) (f : Formula) :
    (f.substitute known).MentionsOnly fun t => known t = .maybe := by
  induction f using Formula.induct with
  | constant value => exact mentionsOnly_constant value
  | atom term =>
    rw [substitute_atom]
    cases isKnown : known term with
    | yes => exact mentionsOnly_constant true
    | no => exact mentionsOnly_constant false
    | maybe => exact (mentionsOnly_atom term).mpr isKnown
  | neg f ih => exact ih
  | conj fs ih =>
    rw [substitute_conj, mentionsOnly_allOf]
    exact List.forall_mem_map.mpr ih
  | disj fs ih =>
    rw [substitute_disj, mentionsOnly_anyOf]
    exact List.forall_mem_map.mpr ih
  | exactlyOne fs ih =>
    rw [substitute_exactlyOne, mentionsOnly_oneOf]
    exact List.forall_mem_map.mpr ih
  | noneOf fs ih =>
    rw [substitute_noneOf, mentionsOnly_nor]
    exact List.forall_mem_map.mpr ih
  | implies a b ihA ihB => exact (mentionsOnly_implies _ _).mpr ⟨ihA, ihB⟩

section Constants

variable {f : Formula} {fs : List Formula}

/-- A simplified formula without terms is a constant: an innermost connective would have constants
for its operands. -/
theorem IsReduced.isConstant_of_closed (reduced : f.IsReduced)
    (closed : f.MentionsOnly fun _ => False) : f.isConstant = true := by
  induction f using induct_operands with
  | step f ih =>
    obtain ⟨tidy, inside⟩ := isReduced_iff.mp reduced
    have noOperand : ∀ g, g ∉ f.operands := by
      intro g member
      have closedOperand := (hereditary_mentionsOnly _).operands closed g member
      have constant := ih g member (inside g member) closedOperand
      rw [tidy.proper g member] at constant
      cases constant
    cases f with
    | constant value => rfl
    | atom term => exact ((mentionsOnly_atom term).mp closed).elim
    | neg f => exact absurd (List.mem_singleton.mpr rfl) (noOperand f)
    | implies a b => exact absurd (List.mem_cons_self ..) (noOperand a)
    | conj fs | disj fs | exactlyOne fs | noneOf fs =>
      obtain ⟨g, member⟩ := List.exists_mem_of_length_pos (Nat.lt_of_lt_of_le Nat.two_pos tidy.1)
      exact absurd member (noOperand g)

theorem IsReduced.eq_constant (reduced : f.IsReduced) (closed : f.MentionsOnly fun _ => False)
    (valuation : Term → Bool) : f = .constant (f.holds valuation) := by
  have constant := reduced.isConstant_of_closed closed
  cases f with
  | constant value => rfl
  | _ => cases constant

section Values

variable (values : List Bool)

theorem allReduced_constants : ∀ f ∈ values.map constant, f.IsReduced :=
  List.forall_mem_map.mpr fun value _ => isReduced_constant value

theorem closed_constants : ∀ f ∈ values.map constant, f.MentionsOnly fun _ => False :=
  List.forall_mem_map.mpr fun value _ => mentionsOnly_constant value

theorem reduceConj_constants : reduceConj (values.map constant) = .constant (values.all id) := by
  have reduced := isReduced_reduceOuter .conjunctive (allReduced_constants values)
  have closed := (hereditary_mentionsOnly _).reduceConj (closed_constants values)
  refine (reduced.eq_constant closed fun _ => false).trans (congrArg constant ?_)
  exact (holds_reduceConj _ _).trans List.all_map

theorem reduceDisj_constants : reduceDisj (values.map constant) = .constant (values.any id) := by
  have reduced := isReduced_reduceOuter .disjunctive (allReduced_constants values)
  have closed := (hereditary_mentionsOnly _).reduceDisj (closed_constants values)
  refine (reduced.eq_constant closed fun _ => false).trans (congrArg constant ?_)
  exact (holds_reduceDisj _ _).trans List.any_map

theorem reduceNoneOf_constants :
    reduceNoneOf (values.map constant) = .constant (!values.any id) := by
  have reduced := isReduced_reduceNoneOf (allReduced_constants values)
  have closed := (hereditary_mentionsOnly _).reduceNoneOf (closed_constants values)
  refine (reduced.eq_constant closed fun _ => false).trans (congrArg constant ?_)
  exact (holds_reduceNoneOf _ _).trans (congrArg not List.any_map)

theorem reduceExactlyOne_constants :
    reduceExactlyOne (values.map constant) = .constant (values.count true == 1) := by
  have reduced := isReduced_reduceExactlyOne (allReduced_constants values)
  have closed := (hereditary_mentionsOnly _).reduceExactlyOne (closed_constants values)
  have counted : (values.map constant).countP (holds fun _ => false) = values.count true := by
    rw [List.countP_map, List.count_eq_countP]
    congr 1
    funext value
    simp
  refine (reduced.eq_constant closed fun _ => false).trans (congrArg constant ?_)
  rw [holds_reduceExactlyOne, counted]

end Values

/-- The absorbing constant decides what is gathered, wherever it stands. -/
theorem gather_of_mem {absorbing : Bool} (kept : List Formula) (member : .constant absorbing ∈ fs) :
    gather absorbing kept fs = none := by
  induction fs generalizing kept with
  | nil => cases member
  | cons f rest ih =>
    rw [gather]
    split
    · rfl
    · rename_i other
      have later : .constant absorbing ∈ rest :=
        (List.mem_cons.mp member).resolve_left (Ne.symm other)
      split
      · exact ih kept later
      · split
        · rfl
        · exact ih (kept ++ [f]) later

theorem reduceOuter_of_mem (form : TwoLevel) (member : .constant (absorbing form) ∈ fs) :
    reduceOuter form fs = .constant (absorbing form) := by
  have spliced : .constant (absorbing form) ∈ spliced form fs := by
    rcases spliced_of_mem form member with inside | ⟨gs, isOuter, _⟩
    · exact inside
    · cases form <;> cases isOuter
  rw [reduceOuter_eq, gather_of_mem [] spliced]

end Constants

end Formula

namespace Verdict

open Formula

/-- The formula is the constant of the verdict, if that is decided. -/
def Settles (verdict : Verdict) (left : Formula) : Prop :=
  ∀ value, verdict = ofBool value → left = .constant value

theorem settles_maybe (left : Formula) : maybe.Settles left :=
  fun value decided => absurd decided.symm (ofBool_ne_maybe value)

theorem settles_constant (value : Bool) : (ofBool value).Settles (.constant value) := by
  intro other same
  cases value <;> cases other <;> first | rfl | cases same

theorem Settles.negate {verdict : Verdict} {f : Formula} (settles : verdict.Settles f) :
    verdict.negate.Settles (negateReduced f) := by
  cases verdict with
  | yes => rw [settles true rfl]; exact settles_constant false
  | no => rw [settles false rfl]; exact settles_constant true
  | maybe => exact settles_maybe _

theorem Settles.implies {a b : Verdict} {f g : Formula} (first : a.Settles f)
    (second : b.Settles g) : (a.implies b).Settles (reduceImplies f g) := by
  have fromFalse : reduceImplies falsum g = verum := by simp [reduceImplies]
  have fromTrue : reduceImplies verum g = g := by simp [reduceImplies]
  have toTrue : reduceImplies f verum = verum := by simp [reduceImplies]
  cases a with
  | no =>
    rw [first false rfl, fromFalse]
    exact settles_constant true
  | yes =>
    rw [first true rfl, fromTrue]
    cases b <;> exact second
  | maybe =>
    cases b with
    | yes =>
      rw [second true rfl, toTrue]
      exact settles_constant true
    | no | maybe => exact settles_maybe _

section Lists

variable {α : Type} {list : List α} {verdict : α → Verdict} {left : α → Formula}
  {combine : List Verdict → Verdict} {join : List Formula → Formula} {truth : List Bool → Bool}

/-- A connective that all operands together decide. -/
theorem settles_of_values (verdicts : ∀ values, combine (values.map ofBool) = ofBool (truth values))
    (constants : ∀ values, join (values.map .constant) = .constant (truth values))
    (each : ∀ a ∈ list, (verdict a).Settles (left a)) (decided : maybe ∉ list.map verdict) :
    (combine (list.map verdict)).Settles (join (list.map left)) := by
  let value : α → Bool := fun a => decide (verdict a = yes)
  have isValue : ∀ a ∈ list, verdict a = ofBool (value a) := by
    intro a member
    refine eq_ofBool (fun isOpen => decided ?_) decide_eq_true_iff
    exact isOpen ▸ List.mem_map_of_mem member
  have ofValues : list.map verdict = (list.map value).map ofBool := by
    rw [List.map_map]
    exact List.map_congr_left isValue
  have leftValues : list.map left = (list.map value).map .constant := by
    rw [List.map_map]
    exact List.map_congr_left fun a member => each a member (value a) (isValue a member)
  rw [ofValues, leftValues, verdicts, constants]
  exact settles_constant _

/-- A connective that one operand decides, if it has the absorbing value. -/
theorem settles_of_absorbing (absorbing result : Bool)
    (early : ∀ results, ofBool absorbing ∈ results → combine results = ofBool result)
    (late : ∀ results, ofBool absorbing ∉ results → maybe ∈ results → combine results = maybe)
    (absorbed : ∀ fs, .constant absorbing ∈ fs → join fs = .constant result)
    (verdicts : ∀ values, combine (values.map ofBool) = ofBool (truth values))
    (constants : ∀ values, join (values.map .constant) = .constant (truth values))
    (each : ∀ a ∈ list, (verdict a).Settles (left a)) :
    (combine (list.map verdict)).Settles (join (list.map left)) := by
  by_cases decisive : ofBool absorbing ∈ list.map verdict
  · obtain ⟨a, isOperand, isAbsorbing⟩ := List.mem_map.mp decisive
    have leftOver : .constant absorbing ∈ list.map left :=
      List.mem_map.mpr ⟨a, isOperand, each a isOperand absorbing isAbsorbing⟩
    rw [early _ decisive, absorbed _ leftOver]
    exact settles_constant result
  by_cases isOpen : maybe ∈ list.map verdict
  · rw [late _ decisive isOpen]
    exact settles_maybe _
  · exact settles_of_values verdicts constants each isOpen

theorem Settles.all (each : ∀ a ∈ list, (verdict a).Settles (left a)) :
    (Verdict.all (list.map verdict)).Settles (reduceConj (list.map left)) :=
  settles_of_absorbing false false (fun _ => all_of_no) (fun _ => all_of_maybe)
    (fun _ => reduceOuter_of_mem .conjunctive) all_ofBool reduceConj_constants each

theorem Settles.any (each : ∀ a ∈ list, (verdict a).Settles (left a)) :
    (Verdict.any (list.map verdict)).Settles (reduceDisj (list.map left)) :=
  settles_of_absorbing true true (fun _ => any_of_yes) (fun _ => any_of_maybe)
    (fun _ => reduceOuter_of_mem .disjunctive) any_ofBool reduceDisj_constants each

theorem Settles.none (each : ∀ a ∈ list, (verdict a).Settles (left a)) :
    (Verdict.none (list.map verdict)).Settles (reduceNoneOf (list.map left)) := by
  refine settles_of_absorbing true false ?_ ?_ ?_ ?_ reduceNoneOf_constants each
  · intro results holding
    exact congrArg Verdict.negate (any_of_yes holding)
  · intro results noneHolds isOpen
    exact congrArg Verdict.negate (any_of_maybe noneHolds isOpen)
  · intro fs member
    exact if_pos (List.contains_iff_mem.mpr member)
  · intro values
    rw [Verdict.none, any_ofBool, negate_ofBool]

/-- Exactly one of some operands is decided by two that hold, or by all operands. -/
theorem Settles.exactlyOne (each : ∀ a ∈ list, (verdict a).Settles (left a)) :
    (Verdict.exactlyOne (list.map verdict)).Settles (reduceExactlyOne (list.map left)) := by
  by_cases several : 2 ≤ (list.map verdict).count yes
  · have counted : (list.map verdict).count yes ≤ (list.map left).count verum := by
      rw [List.count_eq_countP, List.count_eq_countP, List.countP_map, List.countP_map]
      refine List.countP_mono_left fun a member isYes => ?_
      have holding : verdict a = yes := by simpa using isYes
      simp [each a member true holding]
    rw [exactlyOne_of_several several, reduceExactlyOne_of_several (Nat.le_trans several counted)]
    exact settles_constant false
  by_cases isOpen : maybe ∈ list.map verdict
  · rw [exactlyOne_of_maybe several isOpen]
    exact settles_maybe _
  · exact settles_of_values exactlyOne_ofBool reduceExactlyOne_constants each isOpen

end Lists

end Verdict

namespace Formula

/-- The verdict on a formula settles what is left of it. -/
theorem settles_partialEvaluate (known : Term → Verdict) (f : Formula) :
    (f.verdict known).Settles (f.partialEvaluate known) := by
  induction f using Formula.induct with
  | constant value => exact Verdict.settles_constant value
  | atom term =>
    change (known term).Settles ((atom term).substitute known).reduce
    rw [substitute_atom]
    cases known term with
    | yes => exact Verdict.settles_constant true
    | no => exact Verdict.settles_constant false
    | maybe => exact Verdict.settles_maybe _
  | neg f ih => exact ih.negate
  | conj fs ih =>
    rw [verdict_conj, partialEvaluate_conj]
    exact .all ih
  | disj fs ih =>
    rw [verdict_disj, partialEvaluate_disj]
    exact .any ih
  | exactlyOne fs ih =>
    rw [verdict_exactlyOne, partialEvaluate_exactlyOne]
    exact .exactlyOne ih
  | noneOf fs ih =>
    rw [verdict_noneOf, partialEvaluate_noneOf]
    exact .none ih
  | implies a b ihA ihB => exact ihA.implies ihB

/-- What is left of a formula once the known terms are put in. Its terms are terms of the formula
of which nothing is known, it has the truth value of the formula under every valuation that agrees
with what is known, and it is a constant, the right one, whenever the verdict is decided. -/
theorem partialEvaluate_faithful (f : Formula) (known : Term → Verdict) :
    (∀ t ∈ (f.partialEvaluate known).terms, t ∈ f.terms ∧ known t = .maybe) ∧
    (∀ valuation : Term → Bool,
      (∀ t ∈ f.terms, known t ≠ .maybe → known t = .ofBool (valuation t)) →
        (f.partialEvaluate known).holds valuation = f.holds valuation) ∧
    (f.verdict known = .yes → f.partialEvaluate known = verum) ∧
    (f.verdict known = .no → f.partialEvaluate known = falsum) := by
  have settles := settles_partialEvaluate known f
  refine ⟨fun t isLeft => ?_, fun valuation agrees => ?_, settles true, settles false⟩
  · have occurs := mem_terms.mp isLeft
    have isTerm : (f.partialEvaluate known).MentionsOnly (· ∈ f.occurrences) :=
      mentionsOnly_partialEvaluate known fun _ member => member
    have isOpen := mentionsOnly_reduce (mentionsOnly_maybe_substitute known f)
    exact ⟨mem_terms.mpr (isTerm t occurs), isOpen t occurs⟩
  · exact holds_partialEvaluate fun t occurs isKnown =>
      (agrees t (mem_terms.mpr occurs) isKnown).symm

/-- One of two operands is known to fail, and what is left of the other is a negation; where both
operands are decided nothing but a constant is left. -/
theorem partialEvaluate_faithful_negation :
    let f : Formula :=
      .exactlyOne [.atom (.xlen .rv32), .noneOf [.atom (.xlen .rv64), .atom (.free 0)]]
    let known : Term → Verdict := fun
      | .xlen _ => .no
      | _ => .maybe
    let decided : Term → Verdict := fun
      | .xlen _ => .yes
      | _ => .maybe
    let valuation : Term → Bool := fun _ => false
    f.partialEvaluate known = .neg (.atom (.free 0)) ∧
      (∀ t ∈ (f.partialEvaluate known).terms, t ∈ f.terms ∧ known t = .maybe) ∧
      (∀ t ∈ f.terms, known t ≠ .maybe → known t = .ofBool (valuation t)) ∧
      (f.partialEvaluate known).holds valuation = f.holds valuation ∧
      f.verdict decided = .yes ∧ f.partialEvaluate decided = verum ∧
      f.neg.verdict decided = .no ∧ f.neg.partialEvaluate decided = falsum := by
  intro f known decided valuation
  have agrees : ∀ t ∈ f.terms, known t ≠ .maybe → known t = .ofBool (valuation t) := by
    intro t _ isKnown
    cases t with
    | xlen width => rfl
    | _ => exact absurd rfl isKnown
  obtain ⟨isOpen, sameTruth, _⟩ := partialEvaluate_faithful f known
  have isYes : f.verdict decided = .yes := by decide
  have isNo : f.neg.verdict decided = .no := by decide
  exact ⟨by cbv, isOpen, agrees, sameTruth valuation agrees, isYes,
    (partialEvaluate_faithful f decided).2.2.1 isYes, isNo,
    (partialEvaluate_faithful f.neg decided).2.2.2 isNo⟩

end Formula

end IsaLogic
