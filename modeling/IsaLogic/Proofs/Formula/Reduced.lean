import IsaLogic.Proofs.Formula.Flattening

/-!
# The normal form of simplification

`reduce` gives formulas without constants inside, double negations, directly nested
connectives of a kind, repeated operands or operands beside their negation (`IsReduced`).
Each step has one lemma: from operands in normal form it makes a formula in normal form. A
formula in normal form gives no step anything to do (`reduce_of_isReduced`), so to simplify
twice is to simplify once.

`reduce` reads a formula once, from its leaves to its root. The rule behind it goes back and
forth: an exactly-one connective with a true operand, or with an operand listed twice, is
spelled anew with other connectives, and the new formula is simplified from its leaves
again (`Reduces`). The new formula may be the larger one. It still ends, since operands in
normal form are simplified in one pass and fewer of them are left each time
(`reduces_reduce`), and with the formula that `reduce` gives (`Reduces.eq_reduce`).
-/

namespace IsaLogic.Formula

/-- No formula of the list is a constant, and none is listed twice. -/
structure Distinct (fs : List Formula) : Prop where
  proper : ∀ f ∈ fs, f.isConstant = false
  nodup : fs.Nodup

/-- What simplified operands make of a conjunction or disjunction: none is beside its negation. -/
structure Consistent (fs : List Formula) : Prop extends Distinct fs where
  apart : ∀ f ∈ fs, .neg f ∉ fs

/-- What the normal form asks of a connective and its direct operands. -/
def IsTidy : Formula → Prop
  | .constant _ | .atom _ => True
  | .neg f => f.isConstant = false ∧ ∀ g, f ≠ .neg g
  | .conj fs => 2 ≤ fs.length ∧ Consistent fs ∧ ∀ gs, .conj gs ∉ fs
  | .disj fs => 2 ≤ fs.length ∧ Consistent fs ∧ ∀ gs, .disj gs ∉ fs
  | .exactlyOne fs | .noneOf fs => 2 ≤ fs.length ∧ Distinct fs
  | .implies a b => a.isConstant = false ∧ b.isConstant = false ∧ a ≠ b

/-- Every connective in the formula is tidy. -/
def IsReduced (f : Formula) : Prop := ∀ part, Within part f → part.IsTidy

variable {form : TwoLevel} {f g : Formula} {fs : List Formula}

theorem isReduced_iff : f.IsReduced ↔ f.IsTidy ∧ ∀ g ∈ f.operands, g.IsReduced :=
  @throughout_iff f IsTidy

theorem IsReduced.operands (reduced : f.IsReduced) : ∀ g ∈ f.operands, g.IsReduced :=
  (isReduced_iff.mp reduced).2

theorem isReduced_constant (value : Bool) : (constant value).IsReduced :=
  isReduced_iff.mpr ⟨trivial, nofun⟩

theorem isReduced_atom (term : Term) : (atom term).IsReduced :=
  isReduced_iff.mpr ⟨trivial, nofun⟩

theorem neg_ne_self (f : Formula) : f.neg ≠ f := by
  intro same
  have sizes := congrArg sizeOf same
  simp at sizes

theorem IsTidy.proper (tidy : f.IsTidy) : ∀ g ∈ f.operands, g.isConstant = false := by
  cases f with
  | constant value => nofun
  | atom term => nofun
  | neg f => exact List.forall_mem_singleton.mpr tidy.1
  | conj fs => exact tidy.2.1.proper
  | disj fs => exact tidy.2.1.proper
  | exactlyOne fs => exact tidy.2.proper
  | noneOf fs => exact tidy.2.proper
  | implies a b =>
    exact List.forall_mem_cons.mpr ⟨tidy.1, List.forall_mem_singleton.mpr tidy.2.1⟩

/-- A constant stands nowhere but at the root. -/
theorem IsReduced.eq_of_within {value : Bool} (reduced : f.IsReduced)
    (within : Within (.constant value) f) : f = .constant value := by
  induction f using induct_operands with
  | step f ih =>
    obtain ⟨tidy, operands⟩ := isReduced_iff.mp reduced
    cases within with
    | self => rfl
    | operand member inside =>
      have proper := tidy.proper _ member
      rw [ih _ member (operands _ member) inside] at proper
      cases proper

section Junctions

/-- The value of an operand that decides the outer connective of a form. -/
def absorbing : TwoLevel → Bool
  | .conjunctive => false
  | .disjunctive => true

/-- The outer connective of a form over reduced formulas. -/
def reduceOuter : TwoLevel → List Formula → Formula
  | .conjunctive => reduceConj
  | .disjunctive => reduceDisj

theorem reduceOuter_eq (form : TwoLevel) (fs : List Formula) :
    reduceOuter form fs = match gather (absorbing form) [] (spliced form fs) with
      | some kept => joined form kept
      | none => .constant (absorbing form) := by
  cases form <;> rfl

theorem isTidy_outer :
    (outer form fs).IsTidy ↔ 2 ≤ fs.length ∧ Consistent fs ∧ ∀ gs, outer form gs ∉ fs := by
  cases form <;> rfl

/-- Gathering drops constants and repetitions, and gives up at an operand beside its negation. -/
theorem consistent_gather {value : Bool} {kept result : List Formula}
    (gathered : gather value kept fs = some result) (start : Consistent kept) :
    Consistent result := by
  induction fs generalizing kept with
  | nil =>
    cases gathered
    exact start
  | cons f rest ih =>
    simp only [gather] at gathered
    split at gathered
    · cases gathered
    split at gathered
    · exact ih gathered start
    · rename_i notDropped
      split at gathered
      · cases gathered
      · rename_i noClash
        simp only [Bool.or_eq_true, List.contains_iff_mem, not_or, Bool.not_eq_true] at notDropped
        obtain ⟨proper, new⟩ := notDropped
        simp only [List.any_eq_true, isComplement, Bool.or_eq_true, beq_iff_eq, not_exists,
          not_and, not_or] at noClash
        refine ih gathered ⟨⟨?_, ?_⟩, ?_⟩
        · exact List.forall_mem_append.mpr ⟨start.proper, List.forall_mem_singleton.mpr proper⟩
        · exact List.nodup_append.mpr ⟨start.nodup, List.nodup_singleton f, by
            rintro g isKept _ isNew rfl
            exact new (List.mem_singleton.mp isNew ▸ isKept)⟩
        · intro g member negated
          rcases List.mem_append.mp member with isKept | isNew <;>
            rcases List.mem_append.mp negated with negatedKept | negatedNew
          · exact start.apart g isKept negatedKept
          · exact (noClash g isKept).2 (List.mem_singleton.mp negatedNew).symm
          · exact (noClash _ negatedKept).1 (by rw [List.mem_singleton.mp isNew])
          · exact neg_ne_self g ((List.mem_singleton.mp negatedNew).trans
              (List.mem_singleton.mp isNew).symm)

/-- Gathering keeps operands that are consistent as they are. -/
theorem gather_of_consistent (value : Bool) (kept : List Formula)
    (consistent : Consistent (kept ++ fs)) : gather value kept fs = some (kept ++ fs) := by
  induction fs generalizing kept with
  | nil => rw [gather, List.append_nil]
  | cons f rest ih =>
    have member : f ∈ kept ++ f :: rest := by simp
    have proper := consistent.proper f member
    have notAbsorbing : f ≠ .constant value := by
      rintro rfl
      cases proper
    have new : f ∉ kept := fun isKept =>
      (List.nodup_append.mp consistent.nodup).2.2 f isKept f (List.mem_cons_self ..) rfl
    have noClash : ¬ kept.any (isComplement · f) = true := by
      simp only [List.any_eq_true, isComplement, Bool.or_eq_true, beq_iff_eq, not_exists, not_and,
        not_or]
      intro g isKept
      have isMember : g ∈ kept ++ f :: rest := List.mem_append_left _ isKept
      exact ⟨fun negation => consistent.apart f member (negation ▸ isMember),
        fun negation => consistent.apart g isMember (negation ▸ member)⟩
    rw [gather, if_neg notAbsorbing, if_neg (by simp [proper, new]), if_neg noClash,
      ih _ (by simpa using consistent), List.append_assoc, List.singleton_append]

theorem spliced_of_not_mem (others : ∀ gs, outer form gs ∉ fs) : spliced form fs = fs := by
  induction fs with
  | nil => cases form <;> rfl
  | cons f rest ih =>
    have later := ih fun gs member => others gs (List.mem_cons_of_mem f member)
    have here : ∀ gs, f ≠ outer form gs := fun gs same => others gs (same ▸ List.mem_cons_self ..)
    cases form with
    | conjunctive =>
      change spliceConj (f :: rest) = f :: rest
      rw [spliceConj_cons]
      cases f with
      | conj gs => exact absurd rfl (here gs)
      | _ => exact congrArg (List.cons _) later
    | disjunctive =>
      change spliceDisj (f :: rest) = f :: rest
      rw [spliceDisj_cons]
      cases f with
      | disj gs => exact absurd rfl (here gs)
      | _ => exact congrArg (List.cons _) later

/-- Simplified operands make a simplified conjunction or disjunction. -/
theorem isReduced_reduceOuter (form : TwoLevel) (each : ∀ f ∈ fs, f.IsReduced) :
    (reduceOuter form fs).IsReduced := by
  rw [reduceOuter_eq]
  split
  · rename_i kept gathered
    have consistent := consistent_gather gathered ⟨⟨nofun, List.nodup_nil⟩, nofun⟩
    -- what is spliced is simplified, and of another connective
    have simplified : ∀ f ∈ kept, f.IsReduced ∧ ∀ gs, f ≠ outer form gs := by
      intro f member
      have isSpliced := (mem_of_gather gathered member).resolve_left List.not_mem_nil
      rcases of_mem_spliced isSpliced with ⟨operand, other⟩ | ⟨gs, operand, inside⟩
      · exact ⟨each f operand, other⟩
      · obtain ⟨tidy, operands⟩ := isReduced_iff.mp (each _ operand)
        rw [operands_outer] at operands
        refine ⟨operands f inside, ?_⟩
        rintro hs rfl
        exact (isTidy_outer.mp tidy).2.2 hs inside
    rcases kept with _ | ⟨first, _ | ⟨second, rest⟩⟩
    · cases form <;> exact isReduced_constant _
    · have alone := (simplified first (List.mem_singleton.mpr rfl)).1
      cases form <;> exact alone
    · have whole : (outer form (first :: second :: rest)).IsReduced := by
        refine isReduced_iff.mpr ⟨isTidy_outer.mpr ⟨by simp, consistent, ?_⟩, ?_⟩
        · exact fun gs member => (simplified _ member).2 gs rfl
        · rw [operands_outer]
          exact fun f member => (simplified f member).1
      cases form <;> exact whole
  · exact isReduced_constant _

theorem reduceOuter_of_isTidy (form : TwoLevel) (tidy : (outer form fs).IsTidy) :
    reduceOuter form fs = outer form fs := by
  obtain ⟨several, consistent, others⟩ := isTidy_outer.mp tidy
  rw [reduceOuter_eq, spliced_of_not_mem others, gather_of_consistent _ [] consistent]
  rcases fs with _ | ⟨first, _ | ⟨second, rest⟩⟩
  · simp at several
  · simp at several
  · cases form <;> rfl

end Junctions

section Steps

theorem isConstant_eq_false (notTrue : f ≠ verum) (notFalse : f ≠ falsum) :
    f.isConstant = false := by
  rcases f with (_ | _) | _ | _ | _ | _ | _ | _ | _
  · exact absurd rfl notFalse
  · exact absurd rfl notTrue
  all_goals rfl

theorem isReduced_negateReduced (reduced : f.IsReduced) : (negateReduced f).IsReduced := by
  cases f with
  | constant value => exact isReduced_constant _
  | neg f => exact reduced.operands f (List.mem_singleton.mpr rfl)
  | _ => exact isReduced_iff.mpr ⟨⟨rfl, nofun⟩, List.forall_mem_singleton.mpr reduced⟩

theorem negateReduced_of_isTidy (tidy : f.neg.IsTidy) : negateReduced f = f.neg := by
  cases f with
  | constant value => cases tidy.1
  | neg f => exact absurd rfl (tidy.2 f)
  | _ => rfl

theorem isReduced_reduceNoneOf (each : ∀ f ∈ fs, f.IsReduced) : (reduceNoneOf fs).IsReduced := by
  have kept : ∀ f ∈ (fs.filter (· ≠ falsum)).eraseDups, f ∈ fs ∧ f ≠ falsum := by
    intro f member
    simpa using List.mem_eraseDups.mp member
  have nodup := nodup_eraseDups (fs.filter (· ≠ falsum))
  rw [reduceNoneOf]
  split
  · exact isReduced_constant false
  · rename_i notTrue
    generalize (fs.filter (· ≠ falsum)).eraseDups = left at kept nodup ⊢
    rcases left with _ | ⟨first, _ | ⟨second, rest⟩⟩
    · exact isReduced_constant true
    · exact isReduced_negateReduced (each first (kept first (List.mem_singleton.mpr rfl)).1)
    · refine isReduced_iff.mpr ⟨⟨by simp, fun f member => ?_, nodup⟩, fun f member => ?_⟩
      · obtain ⟨operand, notFalse⟩ := kept f member
        refine isConstant_eq_false ?_ notFalse
        rintro rfl
        exact notTrue (List.contains_iff_mem.mpr operand)
      · exact each f (kept f member).1

theorem reduceNoneOf_of_distinct (several : 2 ≤ fs.length) (distinct : Distinct fs) :
    reduceNoneOf fs = .noneOf fs := by
  have notTrue : ¬ fs.contains verum = true := fun absorbed => by
    cases distinct.proper _ (List.contains_iff_mem.mp absorbed)
  have kept : fs.filter (· ≠ falsum) = fs := by
    refine List.filter_eq_self.mpr fun f member => decide_eq_true ?_
    rintro rfl
    cases distinct.proper _ member
  rw [reduceNoneOf, if_neg notTrue, kept, eraseDups_of_nodup distinct.nodup]
  rcases fs with _ | ⟨first, _ | ⟨second, rest⟩⟩
  · simp at several
  · simp at several
  · rfl

theorem isReduced_reduceImplies {a b : Formula} (reducedA : a.IsReduced) (reducedB : b.IsReduced) :
    (reduceImplies a b).IsReduced := by
  unfold reduceImplies
  split
  · exact reducedB
  split
  · exact isReduced_constant true
  split
  · exact isReduced_negateReduced reducedA
  · rename_i notTrueA notTrivial notFalseB
    simp only [not_or] at notTrivial
    refine isReduced_iff.mpr ⟨⟨?_, ?_, notTrivial.2.2⟩,
      List.forall_mem_cons.mpr ⟨reducedA, List.forall_mem_singleton.mpr reducedB⟩⟩
    · exact isConstant_eq_false notTrueA notTrivial.1
    · exact isConstant_eq_false notTrivial.2.1 notFalseB

theorem reduceImplies_of_isTidy {a b : Formula} (tidy : (implies a b).IsTidy) :
    reduceImplies a b = .implies a b := by
  obtain ⟨properA, properB, differ⟩ := tidy
  have notConstant : ∀ {f : Formula} {value : Bool},
      f.isConstant = false → f ≠ .constant value := by
    rintro _ _ proper rfl
    cases proper
  rw [reduceImplies, if_neg (notConstant properA), if_neg, if_neg (notConstant properB)]
  simp [notConstant properA, notConstant properB, differ]

end Steps

section ExactlyOne

/-- The operands that are no constants. -/
def undecided (fs : List Formula) : List Formula := fs.filter (!·.isConstant)

/-- The first operand that is listed twice. -/
def repeated? (fs : List Formula) : Option Formula := fs.find? fun f => 1 < fs.count f

/-- The formulas are in normal form, and none is a constant. -/
def AllReduced (fs : List Formula) : Prop := ∀ f ∈ fs, f.IsReduced ∧ f.isConstant = false

theorem mem_undecided : f ∈ undecided fs ↔ f ∈ fs ∧ f.isConstant = false := by
  simp [undecided]

theorem undecided_of_proper (proper : ∀ f ∈ fs, f.isConstant = false) : undecided fs = fs :=
  List.filter_eq_self.mpr fun f member => by simp [proper f member]

theorem allReduced_undecided (each : ∀ f ∈ fs, f.IsReduced) : AllReduced (undecided fs) := by
  intro f member
  obtain ⟨isOperand, proper⟩ := mem_undecided.mp member
  exact ⟨each f isOperand, proper⟩

theorem AllReduced.without (all : AllReduced fs) (f : Formula) : AllReduced (without f fs) :=
  fun g member => all g (List.mem_filter.mp member).1

theorem repeated?_eq_none : repeated? fs = none ↔ fs.Nodup := by
  rw [repeated?, List.find?_eq_none, List.nodup_iff_count]
  simp only [decide_eq_true_eq, Nat.not_lt]
  refine ⟨fun each f => ?_, fun each f _ => each f⟩
  by_cases member : f ∈ fs
  · exact each f member
  · rw [List.count_eq_zero.mpr member]
    exact Nat.zero_le 1

theorem mem_of_repeated? (found : repeated? fs = some f) : f ∈ fs := List.mem_of_find?_eq_some found

theorem oneOf_of_several (several : 2 ≤ fs.length) : oneOf fs = .exactlyOne fs := by
  rcases fs with _ | ⟨first, _ | ⟨second, rest⟩⟩
  · simp at several
  · simp at several
  · rfl

theorem reduceDistinct_of_nodup (nodup : fs.Nodup) : reduceDistinct fs = oneOf fs := by
  rw [reduceDistinct]
  split
  · rfl
  · rename_i found
    cases (repeated?_eq_none.mpr nodup).symm.trans found

theorem reduceDistinct_of_repeated {twice : Formula} (found : repeated? fs = some twice) :
    reduceDistinct fs = reduceConj [negateReduced twice, reduceDistinct (without twice fs)] := by
  conv => lhs; rw [reduceDistinct]
  split
  · rename_i noneTwice
    cases found.symm.trans noneTwice
  · rename_i same
    cases found.symm.trans same
    rfl

theorem isReduced_reduceDistinct (all : AllReduced fs) : (reduceDistinct fs).IsReduced := by
  fun_induction reduceDistinct fs with
  | case1 fs noneTwice =>
    rcases fs with _ | ⟨first, _ | ⟨second, rest⟩⟩
    · exact isReduced_constant false
    · exact (all first (List.mem_singleton.mpr rfl)).1
    · have distinct : Distinct (first :: second :: rest) :=
        ⟨fun f member => (all f member).2, repeated?_eq_none.mp noneTwice⟩
      exact isReduced_iff.mpr ⟨⟨by simp, distinct⟩, fun f member => (all f member).1⟩
  | case2 fs twice found fewer ih =>
    have fails := isReduced_negateReduced (all twice (mem_of_repeated? found)).1
    have others := ih (all.without twice)
    exact isReduced_reduceOuter .conjunctive
      (List.forall_mem_cons.mpr ⟨fails, List.forall_mem_singleton.mpr others⟩)

theorem isReduced_reduceExactlyOne (each : ∀ f ∈ fs, f.IsReduced) :
    (reduceExactlyOne fs).IsReduced := by
  have rest := allReduced_undecided each
  rw [reduceExactlyOne]
  split
  · exact isReduced_reduceDistinct rest
  · exact isReduced_reduceNoneOf fun f member => (rest f member).1
  · exact isReduced_constant false

theorem reduceExactlyOne_of_none (noneTrue : fs.count verum = 0) :
    reduceExactlyOne fs = reduceDistinct (undecided fs) := by
  rw [reduceExactlyOne, noneTrue]
  rfl

theorem reduceExactlyOne_of_one (one : fs.count verum = 1) :
    reduceExactlyOne fs = reduceNoneOf (undecided fs) := by
  rw [reduceExactlyOne, one]
  rfl

theorem reduceExactlyOne_of_several (several : 2 ≤ fs.count verum) :
    reduceExactlyOne fs = falsum := by
  rw [reduceExactlyOne]
  split
  · omega
  · omega
  · rfl

theorem reduceExactlyOne_of_proper (proper : ∀ f ∈ fs, f.isConstant = false) :
    reduceExactlyOne fs = reduceDistinct fs := by
  have noneTrue : fs.count verum = 0 :=
    List.count_eq_zero.mpr fun member => by cases proper _ member
  rw [reduceExactlyOne_of_none noneTrue, undecided_of_proper proper]

end ExactlyOne

section NormalForm

/-- Simplification reaches the normal form. -/
theorem isReduced_reduce (f : Formula) : f.reduce.IsReduced := by
  induction f using Formula.induct with
  | constant value => exact isReduced_constant value
  | atom term => exact isReduced_atom term
  | neg f ih => exact isReduced_negateReduced ih
  | conj fs ih =>
    rw [reduce_conj]
    exact isReduced_reduceOuter .conjunctive (List.forall_mem_map.mpr ih)
  | disj fs ih =>
    rw [reduce_disj]
    exact isReduced_reduceOuter .disjunctive (List.forall_mem_map.mpr ih)
  | exactlyOne fs ih =>
    rw [reduce_exactlyOne]
    exact isReduced_reduceExactlyOne (List.forall_mem_map.mpr ih)
  | noneOf fs ih =>
    rw [reduce_noneOf]
    exact isReduced_reduceNoneOf (List.forall_mem_map.mpr ih)
  | implies a b ihA ihB => exact isReduced_reduceImplies ihA ihB

/-- A formula in normal form is left as it is. -/
theorem reduce_of_isReduced (reduced : f.IsReduced) : f.reduce = f := by
  induction f using induct_operands with
  | step f ih =>
    obtain ⟨tidy, inside⟩ := isReduced_iff.mp reduced
    have each : ∀ g ∈ f.operands, g.reduce = g := fun g member => ih g member (inside g member)
    have same : ∀ fs, f.operands = fs → fs.map reduce = fs := by
      rintro _ rfl
      rw [List.map_congr_left each, List.map_id']
    cases f with
    | constant value => rfl
    | atom term => rfl
    | neg f =>
      rw [reduce_neg, each f (List.mem_singleton.mpr rfl), negateReduced_of_isTidy tidy]
    | conj fs =>
      rw [reduce_conj, same fs rfl]
      exact reduceOuter_of_isTidy .conjunctive tidy
    | disj fs =>
      rw [reduce_disj, same fs rfl]
      exact reduceOuter_of_isTidy .disjunctive tidy
    | exactlyOne fs =>
      obtain ⟨several, distinct⟩ := tidy
      rw [reduce_exactlyOne, same fs rfl, reduceExactlyOne_of_proper distinct.proper,
        reduceDistinct_of_nodup distinct.nodup, oneOf_of_several several]
    | noneOf fs => rw [reduce_noneOf, same fs rfl, reduceNoneOf_of_distinct tidy.1 tidy.2]
    | implies a b =>
      rw [reduce_implies, each a (by simp [operands]), each b (by simp [operands]),
        reduceImplies_of_isTidy tidy]

section Collapsing

/-- One simplified operand stands for its own conjunction or disjunction. -/
theorem reduceOuter_singleton (form : TwoLevel) (reduced : f.IsReduced) :
    reduceOuter form [f] = f := by
  by_cases sameKind : ∃ gs, f = outer form gs
  · obtain ⟨gs, rfl⟩ := sameKind
    have opened : reduceOuter form [outer form gs] = reduceOuter form gs := by
      have others := (isTidy_outer.mp (isReduced_iff.mp reduced).1).2.2
      have inner : spliced form [outer form gs] = gs := by
        cases form <;> exact List.flatMap_singleton _ _
      rw [reduceOuter_eq, reduceOuter_eq, inner, spliced_of_not_mem others]
    rw [opened, reduceOuter_of_isTidy form (isReduced_iff.mp reduced).1]
  · have alone : spliced form [f] = [f] :=
      spliced_of_not_mem fun gs member => sameKind ⟨gs, (List.mem_singleton.mp member).symm⟩
    rw [reduceOuter_eq, alone]
    cases form <;> rcases f with (_ | _) | _ | _ | _ | _ | _ | _ | _ <;> rfl

theorem reduce_allOf (fs : List Formula) : (allOf fs).reduce = reduceConj (fs.map reduce) := by
  match fs with
  | [] => rfl
  | [f] => exact (reduceOuter_singleton .conjunctive (isReduced_reduce f)).symm
  | first :: second :: rest => exact reduce_conj (first :: second :: rest)

theorem reduce_anyOf (fs : List Formula) : (anyOf fs).reduce = reduceDisj (fs.map reduce) := by
  match fs with
  | [] => rfl
  | [f] => exact (reduceOuter_singleton .disjunctive (isReduced_reduce f)).symm
  | first :: second :: rest => exact reduce_disj (first :: second :: rest)

theorem reduce_oneOf (fs : List Formula) :
    (oneOf fs).reduce = reduceExactlyOne (fs.map reduce) := by
  match fs with
  | [] => exact (reduceDistinct_of_nodup List.nodup_nil).symm
  | [f] =>
    change f.reduce = reduceExactlyOne [f.reduce]
    generalize f.reduce = g
    by_cases constant : g.isConstant = true
    · cases g with
      | constant value =>
        cases value with
        | false => exact (reduceDistinct_of_nodup List.nodup_nil).symm
        | true => rfl
      | _ => cases constant
    · have proper : ∀ h ∈ [g], h.isConstant = false := by simpa using constant
      rw [reduceExactlyOne_of_proper proper, reduceDistinct_of_nodup (List.nodup_singleton g)]
      rfl
  | first :: second :: rest => exact reduce_exactlyOne (first :: second :: rest)

theorem reduce_nor (fs : List Formula) : (nor fs).reduce = reduceNoneOf (fs.map reduce) := by
  match fs with
  | [] => rfl
  | [f] =>
    change negateReduced f.reduce = reduceNoneOf [f.reduce]
    generalize f.reduce = g
    rcases g with (_ | _) | _ | _ | _ | _ | _ | _ | _ <;> rfl
  | first :: second :: rest => exact reduce_noneOf (first :: second :: rest)

end Collapsing

section Again

variable (all : AllReduced fs)

include all

theorem AllReduced.map_reduce : fs.map reduce = fs := by
  rw [List.map_congr_left fun f member => reduce_of_isReduced (all f member).1, List.map_id']

/-- None of some formulas in normal form is simplified in one step. -/
theorem AllReduced.reduce_nor : (nor fs).reduce = reduceNoneOf fs := by
  rw [Formula.reduce_nor, all.map_reduce]

/-- Exactly one of some formulas in normal form is simplified by their repetitions. -/
theorem AllReduced.reduce_oneOf : (oneOf fs).reduce = reduceDistinct fs := by
  rw [Formula.reduce_oneOf, all.map_reduce,
    reduceExactlyOne_of_proper fun f member => (all f member).2]

theorem AllReduced.reduce_repeated {twice : Formula} (found : repeated? fs = some twice) :
    (conj [.neg twice, oneOf (Formula.without twice fs)]).reduce = reduceDistinct fs := by
  rw [reduceDistinct_of_repeated found, ← (all.without twice).reduce_oneOf, reduce_conj,
    List.map_cons, reduce_neg, reduce_of_isReduced (all twice (mem_of_repeated? found)).1]
  rfl

end Again

end NormalForm

/-- How simplification goes on where an exactly-one connective is spelled anew: the new formula is
simplified from its leaves, though its operands are simplified already. -/
inductive Reduces : Formula → Formula → Prop where
  | constant (value : Bool) : Reduces (.constant value) (.constant value)
  | atom (term : Term) : Reduces (.atom term) (.atom term)
  | neg {f g : Formula} (operand : Reduces f g) : Reduces (.neg f) (negateReduced g)
  | conj {fs : List Formula} {result : Formula → Formula}
      (operands : ∀ f ∈ fs, Reduces f (result f)) : Reduces (.conj fs) (reduceConj (fs.map result))
  | disj {fs : List Formula} {result : Formula → Formula}
      (operands : ∀ f ∈ fs, Reduces f (result f)) : Reduces (.disj fs) (reduceDisj (fs.map result))
  | noneOf {fs : List Formula} {result : Formula → Formula}
      (operands : ∀ f ∈ fs, Reduces f (result f)) :
      Reduces (.noneOf fs) (reduceNoneOf (fs.map result))
  | implies {a b c d : Formula} (antecedent : Reduces a c) (consequent : Reduces b d) :
      Reduces (.implies a b) (reduceImplies c d)
  /-- Two operands are true. -/
  | severalTrue {fs : List Formula} {result : Formula → Formula}
      (operands : ∀ f ∈ fs, Reduces f (result f)) (several : 2 ≤ (fs.map result).count verum) :
      Reduces (.exactlyOne fs) falsum
  /-- One operand is true, so none of the others may hold. -/
  | oneTrue {fs : List Formula} {result : Formula → Formula} {g : Formula}
      (operands : ∀ f ∈ fs, Reduces f (result f)) (one : (fs.map result).count verum = 1)
      (again : Reduces (nor (undecided (fs.map result))) g) : Reduces (.exactlyOne fs) g
  /-- An operand that is listed twice fails, and exactly one of the others holds. -/
  | repeated {fs : List Formula} {result : Formula → Formula} {twice g : Formula}
      (operands : ∀ f ∈ fs, Reduces f (result f)) (noneTrue : (fs.map result).count verum = 0)
      (found : repeated? (undecided (fs.map result)) = some twice)
      (again : Reduces (.conj [.neg twice, oneOf (without twice (undecided (fs.map result)))]) g) :
      Reduces (.exactlyOne fs) g
  | distinct {fs : List Formula} {result : Formula → Formula}
      (operands : ∀ f ∈ fs, Reduces f (result f)) (noneTrue : (fs.map result).count verum = 0)
      (noneTwice : repeated? (undecided (fs.map result)) = none) :
      Reduces (.exactlyOne fs) (oneOf (undecided (fs.map result)))

section Reduces

/-- Simplification that starts over has no other result. -/
theorem Reduces.eq_reduce (reduces : Reduces f g) : g = f.reduce := by
  have mapped : ∀ {fs : List Formula} {result : Formula → Formula},
      (∀ f ∈ fs, result f = f.reduce) → fs.map result = fs.map reduce :=
    fun each => List.map_congr_left each
  have rest : ∀ fs : List Formula, AllReduced (undecided (fs.map reduce)) := fun fs =>
    allReduced_undecided (List.forall_mem_map.mpr fun f _ => isReduced_reduce f)
  induction reduces with
  | constant value => rfl
  | atom term => rfl
  | neg operand ih => rw [reduce_neg, ih]
  | conj operands ih => rw [reduce_conj, mapped ih]
  | disj operands ih => rw [reduce_disj, mapped ih]
  | noneOf operands ih => rw [reduce_noneOf, mapped ih]
  | implies antecedent consequent ihA ihB => rw [reduce_implies, ihA, ihB]
  | severalTrue operands several ih =>
    rw [mapped ih] at several
    rw [reduce_exactlyOne, reduceExactlyOne_of_several several]
  | oneTrue operands one again ih ihAgain =>
    rw [mapped ih] at one ihAgain
    rw [reduce_exactlyOne, reduceExactlyOne_of_one one, ihAgain, (rest _).reduce_nor]
  | repeated operands noneTrue found again ih ihAgain =>
    rw [mapped ih] at noneTrue found ihAgain
    rw [reduce_exactlyOne, reduceExactlyOne_of_none noneTrue, ihAgain,
      (rest _).reduce_repeated found]
  | distinct operands noneTrue noneTwice ih =>
    rw [mapped ih] at noneTrue noneTwice ⊢
    rw [reduce_exactlyOne, reduceExactlyOne_of_none noneTrue,
      reduceDistinct_of_nodup (repeated?_eq_none.mp noneTwice)]

theorem Reduces.of_exists (ends : ∃ g, Reduces f g) : Reduces f f.reduce := by
  obtain ⟨g, reduces⟩ := ends
  exact reduces.eq_reduce ▸ reduces

/-- Only an exactly-one connective is spelled anew. -/
theorem Reduces.of_operands (each : ∀ g ∈ f.operands, Reduces g g.reduce)
    (other : ∀ fs, f ≠ .exactlyOne fs) : Reduces f f.reduce := by
  refine of_exists ?_
  cases f with
  | constant value => exact ⟨_, .constant value⟩
  | atom term => exact ⟨_, .atom term⟩
  | neg f => exact ⟨_, .neg (each f (List.mem_singleton.mpr rfl))⟩
  | conj fs => exact ⟨_, .conj each⟩
  | disj fs => exact ⟨_, .disj each⟩
  | exactlyOne fs => exact absurd rfl (other fs)
  | noneOf fs => exact ⟨_, .noneOf each⟩
  | implies a b =>
    obtain ⟨reducesA, reducesB⟩ := List.forall_mem_cons.mp each
    exact ⟨_, .implies reducesA (reducesB b (List.mem_singleton.mpr rfl))⟩

/-- Without true operands, what is left to show is that the others end once the first repetition is
taken out. -/
theorem Reduces.exactlyOne_of_none (each : ∀ f ∈ fs, Reduces f f.reduce)
    (noneTrue : (fs.map reduce).count verum = 0)
    (rest : ∀ f ∈ undecided (fs.map reduce), Reduces f f.reduce)
    (fewer : ∀ twice ∈ undecided (fs.map reduce),
      Reduces (oneOf (without twice (undecided (fs.map reduce))))
        (oneOf (without twice (undecided (fs.map reduce)))).reduce) :
    Reduces (.exactlyOne fs) (Formula.exactlyOne fs).reduce := by
  refine of_exists ?_
  cases found : repeated? (undecided (fs.map reduce)) with
  | none => exact ⟨_, .distinct each noneTrue found⟩
  | some twice =>
    have member := mem_of_repeated? found
    have fails : Reduces (.neg twice) (Formula.neg twice).reduce :=
      .of_operands (List.forall_mem_singleton.mpr (rest twice member)) nofun
    have both : ∀ f ∈ [.neg twice, oneOf (without twice (undecided (fs.map reduce)))],
        Reduces f f.reduce :=
      List.forall_mem_cons.mpr ⟨fails, List.forall_mem_singleton.mpr (fewer twice member)⟩
    exact ⟨_, .repeated each noneTrue found (.conj both)⟩

theorem Reduces.nor (each : ∀ f ∈ fs, Reduces f f.reduce) : Reduces (nor fs) (nor fs).reduce := by
  match fs with
  | [] => exact .constant true
  | [f] => exact .of_operands (f := .neg f) each nofun
  | first :: second :: rest =>
    exact .of_operands (f := .noneOf (first :: second :: rest)) each nofun

/-- Formulas in normal form get fewer with each repetition that is taken out. -/
theorem AllReduced.reduces_oneOf {fs : List Formula} (all : AllReduced fs)
    (each : ∀ f ∈ fs, Reduces f f.reduce) : Reduces (oneOf fs) (oneOf fs).reduce := by
  match fs with
  | [] => exact .constant false
  | [f] => exact each f (List.mem_singleton.mpr rfl)
  | first :: second :: rest =>
    have proper : ∀ f ∈ first :: second :: rest, f.isConstant = false := fun f member =>
      (all f member).2
    have same : undecided ((first :: second :: rest).map reduce) = first :: second :: rest := by
      rw [all.map_reduce, undecided_of_proper proper]
    refine .exactlyOne_of_none each ?_ (by rwa [same]) ?_
    · rw [all.map_reduce]
      exact List.count_eq_zero.mpr fun member => by cases proper _ member
    · rw [same]
      intro twice member
      exact (all.without twice).reduces_oneOf fun f inside => each f (List.mem_filter.mp inside).1
termination_by fs.length
decreasing_by exact length_without_lt member

/-- A formula in normal form is never spelled anew. -/
theorem IsReduced.reduces (reduced : f.IsReduced) : Reduces f f.reduce := by
  induction f using induct_operands with
  | step f ih =>
    obtain ⟨tidy, inside⟩ := isReduced_iff.mp reduced
    have each : ∀ g ∈ f.operands, Reduces g g.reduce := fun g member =>
      ih g member (inside g member)
    by_cases isOne : ∃ fs, f = .exactlyOne fs
    · obtain ⟨fs, rfl⟩ := isOne
      have all : AllReduced fs := fun g member => ⟨inside g member, tidy.2.proper g member⟩
      rw [← oneOf_of_several tidy.1]
      exact all.reduces_oneOf each
    · exact .of_operands each fun fs same => isOne ⟨fs, same⟩

/-- Simplification that starts over ends, with the result of one pass. -/
theorem reduces_reduce (f : Formula) : Reduces f f.reduce := by
  induction f using induct_operands with
  | step f ih =>
    by_cases isOne : ∃ fs, f = .exactlyOne fs
    · obtain ⟨fs, rfl⟩ := isOne
      have all : AllReduced (undecided (fs.map reduce)) :=
        allReduced_undecided (List.forall_mem_map.mpr fun f _ => isReduced_reduce f)
      have rest : ∀ f ∈ undecided (fs.map reduce), Reduces f f.reduce := fun f member =>
        (all f member).1.reduces
      by_cases noneTrue : (fs.map reduce).count verum = 0
      · refine .exactlyOne_of_none ih noneTrue rest fun twice _ => ?_
        exact (all.without twice).reduces_oneOf fun f inside => rest f (List.mem_filter.mp inside).1
      by_cases one : (fs.map reduce).count verum = 1
      · exact .of_exists ⟨_, .oneTrue ih one (.nor rest)⟩
      · exact .of_exists ⟨_, .severalTrue ih (by omega)⟩
    · exact .of_operands ih fun fs same => isOne ⟨fs, same⟩

end Reduces

/-- Simplification ends on every formula, with one result: it holds under the same valuations, every
connective in it is tidy, a constant is in it only if it is that constant, and to simplify it again
changes nothing. -/
theorem reduce_reaches_normal_form (f : Formula) :
    (∀ g, Reduces f g ↔ g = f.reduce) ∧
      (∀ valuation, f.reduce.holds valuation = f.holds valuation) ∧
      (∀ part, Within part f.reduce → part.IsTidy) ∧
      (∀ value, Within (.constant value) f.reduce → f.reduce = .constant value) ∧
      f.reduce.reduce = f.reduce := by
  refine ⟨fun g => ⟨fun reduces => reduces.eq_reduce, ?_⟩,
    fun valuation => holds_reduce valuation f, isReduced_reduce f, fun value => (isReduced_reduce f).eq_of_within,
    reduce_of_isReduced (isReduced_reduce f)⟩
  rintro rfl
  exact reduces_reduce f

end IsaLogic.Formula
