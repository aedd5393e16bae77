import IsaLogic.Formula.NegationNormal
import IsaLogic.Proofs.Formula.Simplification

/-!
# Negation normal form

`nnfWith` is read for both polarities at once: the form at a polarity holds when
the formula has that truth value (`holds_nnfWith`). An exactly-one connective is
the only one that needs an argument of its own; it is spelled out by counting.

Whatever works on a formula in negation normal form afterwards, that is `reduce`,
`flatten` and `binary`, keeps the meaning and the shape (`IsNnf`).
-/

namespace IsaLogic.Formula

section ExactlyOne

variable (valuation : Term → Bool)

/-- One operand holds and all others fail exactly if the count is one. -/
theorem holds_oneHolds (holding failing : List Formula)
    (opposite : failing.map (holds valuation) = holding.map fun f => !f.holds valuation) :
    (oneHolds holding failing).holds valuation = (holding.countP (holds valuation) == 1) := by
  induction holding generalizing failing with
  | nil => rfl
  | cons f holding ih =>
    obtain ⟨g, rest, rfl⟩ : ∃ g rest, failing = g :: rest := by
      cases failing with
      | nil => cases opposite
      | cons g rest => exact ⟨g, rest, rfl⟩
    simp only [List.map_cons, List.cons.injEq] at opposite
    obtain ⟨head, tail⟩ := opposite
    have noneOther : rest.all (holds valuation) = (holding.countP (holds valuation) == 0) := by
      have mapped : (rest.map (holds valuation)).all id = rest.all (holds valuation) := by simp
      rw [← mapped, tail, Bool.eq_iff_iff]
      simp [List.countP_eq_zero]
    have later := ih rest tail
    simp only [oneHolds, holds_anyOf] at later ⊢
    simp only [List.zipIdx_cons, List.map_cons, List.any_cons, holds_allOf, List.eraseIdx_zero,
      List.tail_cons, List.all_cons, noneOther, List.countP_cons]
    rw [Nat.zero_add, List.zipIdx_succ]
    simp only [List.map_map, List.any_map, Function.comp_def, List.eraseIdx_cons_succ, holds_allOf,
      List.all_cons, head] at later ⊢
    cases truth : f.holds valuation
    · simpa [truth] using later
    · simp

/-- None of the operands holds, or two of them, exactly if the count is not one. -/
theorem holds_notOneHolds (holding failing : List Formula)
    (opposite : failing.map (holds valuation) = holding.map fun f => !f.holds valuation) :
    (notOneHolds holding failing).holds valuation = !(holding.countP (holds valuation) == 1) := by
  have noneHolds : failing.all (holds valuation) = (holding.countP (holds valuation) == 0) := by
    have mapped : (failing.map (holds valuation)).all id = failing.all (holds valuation) := by simp
    rw [← mapped, opposite, Bool.eq_iff_iff]
    simp [List.countP_eq_zero]
  have twoHold : ((pairs holding).map fun pair => allOf [pair.1, pair.2]).any (holds valuation) =
      decide (2 ≤ holding.countP (holds valuation)) := by
    clear opposite noneHolds
    induction holding with
    | nil => rfl
    | cons f holding ih =>
      rw [pairs, List.map_append, List.any_append, ih, Bool.eq_iff_iff]
      cases truth : f.holds valuation
      · simp [truth, List.any_map, Function.comp_def]
      · have some : (∃ g ∈ holding, g.holds valuation = true) ↔
            0 < holding.countP (holds valuation) := List.countP_pos_iff.symm
        simp only [List.map_map, List.any_map, Function.comp_def, holds_allOf, List.all_cons,
          truth, List.all_nil, Bool.and_true, Bool.true_and, Bool.or_eq_true, List.any_eq_true,
          decide_eq_true_eq, List.countP_cons_of_pos, some]
        omega
  rw [notOneHolds, holds_anyOf, List.any_cons, twoHold, holds_allOf, noneHolds, Bool.eq_iff_iff]
  simp only [Bool.or_eq_true, beq_iff_eq, decide_eq_true_eq, Bool.not_eq_true', beq_eq_false_iff_ne]
  omega

end ExactlyOne

theorem nnfWith_conj (fs : List Formula) (polarity : Bool) :
    (conj fs).nnfWith polarity =
      if polarity then allOf (fs.map (·.nnfWith true)) else anyOf (fs.map (·.nnfWith false)) := by
  cases polarity <;> simp [nnfWith, fold, foldList_eq_map, Function.comp_def]

theorem nnfWith_disj (fs : List Formula) (polarity : Bool) :
    (disj fs).nnfWith polarity =
      if polarity then anyOf (fs.map (·.nnfWith true)) else allOf (fs.map (·.nnfWith false)) := by
  cases polarity <;> simp [nnfWith, fold, foldList_eq_map, Function.comp_def]

theorem nnfWith_noneOf (fs : List Formula) (polarity : Bool) :
    (noneOf fs).nnfWith polarity =
      if polarity then allOf (fs.map (·.nnfWith false)) else anyOf (fs.map (·.nnfWith true)) := by
  cases polarity <;> simp [nnfWith, fold, foldList_eq_map, Function.comp_def]

theorem nnfWith_exactlyOne (fs : List Formula) (polarity : Bool) :
    (exactlyOne fs).nnfWith polarity =
      if polarity then oneHolds (fs.map (·.nnfWith true)) (fs.map (·.nnfWith false))
      else notOneHolds (fs.map (·.nnfWith true)) (fs.map (·.nnfWith false)) := by
  cases polarity <;> simp [nnfWith, fold, foldList_eq_map, Function.comp_def]

theorem nnfWith_neg (f : Formula) (polarity : Bool) :
    (neg f).nnfWith polarity = f.nnfWith !polarity := rfl

theorem nnfWith_implies (a b : Formula) (polarity : Bool) :
    (implies a b).nnfWith polarity =
      if polarity then anyOf [a.nnfWith false, b.nnfWith true]
      else allOf [a.nnfWith true, b.nnfWith false] := rfl

/-- The form at a polarity holds when the formula has that truth value. -/
theorem holds_nnfWith (valuation : Term → Bool) (f : Formula) (polarity : Bool) :
    (f.nnfWith polarity).holds valuation = (f.holds valuation == polarity) := by
  induction f using Formula.induct generalizing polarity with
  | constant value => rfl
  | atom term => cases polarity <;> simp [nnfWith, fold]
  | neg f ih =>
    rw [nnfWith_neg, ih, holds_neg]
    cases f.holds valuation <;> cases polarity <;> rfl
  | conj fs ih =>
    rw [nnfWith_conj, holds_conj]
    cases polarity
    · rw [if_neg (by simp), holds_anyOf, List.any_map, beq_false, List.not_all_eq_any_not]
      exact any_congr_of_mem fun f member => by simp [ih f member]
    · rw [if_pos rfl, holds_allOf, List.all_map, beq_true]
      exact all_congr_of_mem fun f member => by simp [ih f member]
  | disj fs ih =>
    rw [nnfWith_disj, holds_disj]
    cases polarity
    · rw [if_neg (by simp), holds_allOf, List.all_map, beq_false, List.not_any_eq_all_not]
      exact all_congr_of_mem fun f member => by simp [ih f member]
    · rw [if_pos rfl, holds_anyOf, List.any_map, beq_true]
      exact any_congr_of_mem fun f member => by simp [ih f member]
  | noneOf fs ih =>
    rw [nnfWith_noneOf, holds_noneOf]
    cases polarity
    · rw [if_neg (by simp), holds_anyOf, List.any_map, beq_false, Bool.not_not]
      exact any_congr_of_mem fun f member => by simp [ih f member]
    · rw [if_pos rfl, holds_allOf, List.all_map, beq_true, List.not_any_eq_all_not]
      exact all_congr_of_mem fun f member => by simp [ih f member]
  | exactlyOne fs ih =>
    have opposite : (fs.map (·.nnfWith false)).map (holds valuation) =
        (fs.map (·.nnfWith true)).map fun f => !f.holds valuation := by
      rw [List.map_map, List.map_map]
      exact List.map_congr_left fun f member => by simp [ih f member]
    have counted : (fs.map (·.nnfWith true)).countP (holds valuation) =
        fs.countP (holds valuation) := by
      rw [List.countP_map]
      exact countP_congr_of_mem fun f member => by simp [ih f member]
    rw [nnfWith_exactlyOne, holds_exactlyOne, ← counted]
    cases polarity
    · rw [if_neg (by simp), holds_notOneHolds valuation _ _ opposite, beq_false]
    · rw [if_pos rfl, holds_oneHolds valuation _ _ opposite, beq_true]
  | implies a b ihA ihB =>
    rw [nnfWith_implies, holds_implies]
    cases polarity <;> simp [ihA, ihB]

/-- Negation normal form keeps the truth value. -/
@[simp] theorem holds_nnf (valuation : Term → Bool) (f : Formula) :
    f.nnf.holds valuation = f.holds valuation := by
  rw [nnf, holds_nnfWith, beq_true]

/-- Only conjunctions, disjunctions, constants, terms and negated terms are left. -/
inductive IsNnf : Formula → Prop where
  | constant (value : Bool) : IsNnf (.constant value)
  | atom (term : Term) : IsNnf (.atom term)
  | negAtom (term : Term) : IsNnf (.neg (.atom term))
  | conj {fs : List Formula} (operands : ∀ f ∈ fs, IsNnf f) : IsNnf (.conj fs)
  | disj {fs : List Formula} (operands : ∀ f ∈ fs, IsNnf f) : IsNnf (.disj fs)

section Shape

theorem IsNnf.allOf {fs : List Formula} (operands : ∀ f ∈ fs, IsNnf f) : IsNnf (allOf fs) := by
  match fs with
  | [] => exact .constant true
  | [f] => exact operands f (List.mem_singleton.mpr rfl)
  | f :: g :: rest => exact .conj operands

theorem IsNnf.anyOf {fs : List Formula} (operands : ∀ f ∈ fs, IsNnf f) : IsNnf (anyOf fs) := by
  match fs with
  | [] => exact .constant false
  | [f] => exact operands f (List.mem_singleton.mpr rfl)
  | f :: g :: rest => exact .disj operands

theorem IsNnf.conj_operands {fs : List Formula} (shape : IsNnf (.conj fs)) : ∀ f ∈ fs, IsNnf f := by
  cases shape
  assumption

theorem IsNnf.disj_operands {fs : List Formula} (shape : IsNnf (.disj fs)) : ∀ f ∈ fs, IsNnf f := by
  cases shape
  assumption

/-- All pairs are taken from the list. -/
theorem mem_of_mem_pairs {α : Type} {list : List α} {x y : α} (pair : (x, y) ∈ pairs list) :
    x ∈ list ∧ y ∈ list := by
  induction list with
  | nil => cases pair
  | cons first rest ih =>
    rcases List.mem_append.mp pair with here | later
    · obtain ⟨z, member, equal⟩ := List.mem_map.mp here
      obtain ⟨rfl, rfl⟩ := Prod.mk.injEq .. ▸ equal
      exact ⟨List.mem_cons_self, List.mem_cons_of_mem _ member⟩
    · have ⟨inX, inY⟩ := ih later
      exact ⟨List.mem_cons_of_mem _ inX, List.mem_cons_of_mem _ inY⟩

/-- Two different elements are a pair in one order. -/
theorem mem_pairs_of_ne {α : Type} {list : List α} {x y : α} (isX : x ∈ list) (isY : y ∈ list)
    (differ : x ≠ y) : (x, y) ∈ pairs list ∨ (y, x) ∈ pairs list := by
  induction list with
  | nil => cases isX
  | cons first rest ih =>
    rw [pairs, List.mem_append, List.mem_append]
    rcases List.mem_cons.mp isX with rfl | laterX
    · have laterY := (List.mem_cons.mp isY).resolve_left (Ne.symm differ)
      exact .inl (.inl (List.mem_map_of_mem laterY))
    · rcases List.mem_cons.mp isY with rfl | laterY
      · exact .inr (.inl (List.mem_map_of_mem laterX))
      · exact (ih laterX laterY).imp .inr .inr

/-- What conjunctions and disjunctions inherit from their operands, an exactly-one
connective that is spelled out inherits from its operands at both polarities. -/
theorem oneHolds_induction {motive : Formula → Prop} {holding failing : List Formula}
    (allOf : ∀ gs, (∀ g ∈ gs, motive g) → motive (allOf gs))
    (anyOf : ∀ gs, (∀ g ∈ gs, motive g) → motive (anyOf gs))
    (holds : ∀ f ∈ holding, motive f) (fails : ∀ f ∈ failing, motive f) :
    motive (oneHolds holding failing) ∧ motive (notOneHolds holding failing) := by
  constructor
  · refine anyOf _ fun g member => ?_
    obtain ⟨⟨f, place⟩, entry, rfl⟩ := List.mem_map.mp member
    refine allOf _ fun g member => ?_
    rcases List.mem_cons.mp member with rfl | other
    · exact holds _ (List.fst_mem_of_mem_zipIdx entry)
    · exact fails g (List.mem_of_mem_eraseIdx other)
  · refine anyOf _ fun g member => ?_
    rcases List.mem_cons.mp member with rfl | other
    · exact allOf failing fails
    · obtain ⟨⟨x, y⟩, pair, rfl⟩ := List.mem_map.mp other
      have ⟨inX, inY⟩ := mem_of_mem_pairs pair
      refine allOf _ fun g member => ?_
      simp only [List.mem_cons, List.not_mem_nil, or_false] at member
      rcases member with rfl | rfl
      · exact holds _ inX
      · exact holds _ inY

/-- A property of literals and constants that conjunctions and disjunctions inherit
from their operands holds of every negation normal form. -/
theorem nnfWith_induction {motive : Formula → Prop} {f : Formula}
    (constant : ∀ value, motive (.constant value))
    (literal : ∀ t ∈ f.occurrences, motive (.atom t) ∧ motive (.neg (.atom t)))
    (allOf : ∀ gs, (∀ g ∈ gs, motive g) → motive (allOf gs))
    (anyOf : ∀ gs, (∀ g ∈ gs, motive g) → motive (anyOf gs)) (polarity : Bool) :
    motive (f.nnfWith polarity) := by
  have mapped : ∀ (fs : List Formula),
      (∀ f ∈ fs, (∀ t ∈ f.occurrences, motive (.atom t) ∧ motive (.neg (.atom t))) →
        ∀ polarity, motive (f.nnfWith polarity)) →
      (∀ t ∈ fs.flatMap occurrences, motive (.atom t) ∧ motive (.neg (.atom t))) →
      ∀ polarity, ∀ g ∈ fs.map (·.nnfWith polarity), motive g := by
    intro fs ih literal polarity g member
    obtain ⟨f, operand, rfl⟩ := List.mem_map.mp member
    exact ih f operand (fun t occurs => literal t (List.mem_flatMap.mpr ⟨f, operand, occurs⟩)) _
  induction f using Formula.induct generalizing polarity with
  | constant value => exact constant _
  | atom term =>
    have ⟨positive, negative⟩ := literal term (by simp)
    cases polarity
    · exact negative
    · exact positive
  | neg f ih => exact ih literal _
  | conj fs ih =>
    have operands := mapped fs ih (occurrences_conj fs ▸ literal)
    rw [nnfWith_conj]
    split
    · exact allOf _ (operands true)
    · exact anyOf _ (operands false)
  | disj fs ih =>
    have operands := mapped fs ih (occurrences_disj fs ▸ literal)
    rw [nnfWith_disj]
    split
    · exact anyOf _ (operands true)
    · exact allOf _ (operands false)
  | noneOf fs ih =>
    have operands := mapped fs ih (occurrences_noneOf fs ▸ literal)
    rw [nnfWith_noneOf]
    split
    · exact allOf _ (operands false)
    · exact anyOf _ (operands true)
  | exactlyOne fs ih =>
    have operands := mapped fs ih (occurrences_exactlyOne fs ▸ literal)
    have ⟨one, notOne⟩ := oneHolds_induction allOf anyOf (operands true) (operands false)
    rw [nnfWith_exactlyOne]
    split
    · exact one
    · exact notOne
  | implies a b ihA ihB =>
    have inA := ihA fun t occurs => literal t (by simp [occurs])
    have inB := ihB fun t occurs => literal t (by simp [occurs])
    rw [nnfWith_implies]
    split
    · exact anyOf _ (by simp [inA, inB])
    · exact allOf _ (by simp [inA, inB])

theorem isNnf_nnf (f : Formula) : f.nnf.IsNnf :=
  nnfWith_induction IsNnf.constant (fun t _ => ⟨.atom t, .negAtom t⟩)
    (fun _ => IsNnf.allOf) (fun _ => IsNnf.anyOf) true

theorem map_nnf {fs : List Formula} (each : ∀ f ∈ fs, f.nnf = f) : fs.map (·.nnfWith true) = fs :=
  (List.map_congr_left each).trans (List.map_id fs)

theorem nnf_allOf {fs : List Formula} (each : ∀ f ∈ fs, f.nnf = f) : (allOf fs).nnf = allOf fs := by
  match fs with
  | [] => rfl
  | [f] => exact each f (List.mem_singleton.mpr rfl)
  | f :: g :: rest =>
    change (conj (f :: g :: rest)).nnfWith true = _
    rw [nnfWith_conj, if_pos rfl, map_nnf each]

theorem nnf_anyOf {fs : List Formula} (each : ∀ f ∈ fs, f.nnf = f) : (anyOf fs).nnf = anyOf fs := by
  match fs with
  | [] => rfl
  | [f] => exact each f (List.mem_singleton.mpr rfl)
  | f :: g :: rest =>
    change (disj (f :: g :: rest)).nnfWith true = _
    rw [nnfWith_disj, if_pos rfl, map_nnf each]

/-- A negation normal form is its own negation normal form. -/
theorem nnf_nnf (f : Formula) : f.nnf.nnf = f.nnf := by
  apply nnfWith_induction (motive := fun g => g.nnf = g)
  case constant =>
    intro value
    cases value <;> rfl
  case literal => exact fun t _ => ⟨rfl, rfl⟩
  case allOf => exact fun gs => nnf_allOf
  case anyOf => exact fun gs => nnf_anyOf

/-- Negation normal form is exact at every depth: only conjunctions, disjunctions, constants and
literals are left, they hold under the same valuations, a second pass changes nothing, and the form
of the negation holds when the form fails. -/
theorem nnf_exact (f : Formula) :
    f.nnf.IsNnf ∧ (∀ valuation, f.nnf.holds valuation = f.holds valuation) ∧
      f.nnf.nnf = f.nnf ∧
      ∀ valuation, (neg f).nnf.holds valuation = !f.nnf.holds valuation := by
  refine ⟨isNnf_nnf f, fun valuation => holds_nnf valuation f, nnf_nnf f, fun valuation => ?_⟩
  rw [holds_nnf, holds_nnf, holds_neg]

theorem mentionsOnly_nnf {allowed : Term → Prop} {f : Formula}
    (mentions : f.MentionsOnly allowed) : f.nnf.MentionsOnly allowed :=
  nnfWith_induction mentionsOnly_constant
    (fun t occurs => by simp [mentions t occurs])
    (fun gs => (mentionsOnly_allOf gs).mpr) (fun gs => (mentionsOnly_anyOf gs).mpr) true

theorem isNnf_flatten {f : Formula} (shape : f.IsNnf) : f.flatten.IsNnf := by
  induction shape with
  | constant value => exact .constant value
  | atom term => exact .atom term
  | negAtom term => exact .negAtom term
  | @conj fs operands ih =>
    rw [flatten_conj]
    exact IsNnf.allOf
      (forall_mem_spliceConj (List.forall_mem_map.mpr ih) fun _ => IsNnf.conj_operands)
  | @disj fs operands ih =>
    rw [flatten_disj]
    exact IsNnf.anyOf
      (forall_mem_spliceDisj (List.forall_mem_map.mpr ih) fun _ => IsNnf.disj_operands)

theorem isNnf_reduce {f : Formula} (shape : f.IsNnf) : f.reduce.IsNnf := by
  induction shape with
  | constant value => exact .constant value
  | atom term => exact .atom term
  | negAtom term => exact .negAtom term
  | @conj fs operands ih =>
    rw [reduce_conj]
    exact reduceConj_induction
      (forall_mem_spliceConj (List.forall_mem_map.mpr ih) fun _ => IsNnf.conj_operands)
      IsNnf.constant fun _ => IsNnf.allOf
  | @disj fs operands ih =>
    rw [reduce_disj]
    exact reduceDisj_induction
      (forall_mem_spliceDisj (List.forall_mem_map.mpr ih) fun _ => IsNnf.disj_operands)
      IsNnf.constant fun _ => IsNnf.anyOf

end Shape

section Binary

theorem binary_conj (fs : List Formula) :
    (conj fs).binary = chain (fun f g => conj [f, g]) verum (fs.map binary) := by
  simp [binary, fold, foldList_eq_map]

theorem binary_disj (fs : List Formula) :
    (disj fs).binary = chain (fun f g => disj [f, g]) falsum (fs.map binary) := by
  simp [binary, fold, foldList_eq_map]

theorem binary_exactlyOne (fs : List Formula) :
    (exactlyOne fs).binary = oneOf (fs.map binary) := by
  simp [binary, fold, foldList_eq_map]

theorem binary_noneOf (fs : List Formula) : (noneOf fs).binary = nor (fs.map binary) := by
  simp [binary, fold, foldList_eq_map]

/-- A property of the empty chain that the binary connective inherits from its two
operands holds of every chain of formulas that have it. -/
theorem chain_induction {motive : Formula → Prop} {connect : Formula → Formula → Formula}
    {empty : Formula} (ofEmpty : motive empty)
    (ofConnect : ∀ f g, motive f → motive g → motive (connect f g)) {fs : List Formula}
    (operands : ∀ f ∈ fs, motive f) : motive (chain connect empty fs) := by
  have folded : ∀ (rest : List Formula) (f : Formula), motive f → (∀ g ∈ rest, motive g) →
      motive (rest.foldl connect f) := by
    intro rest
    induction rest with
    | nil => exact fun f here _ => here
    | cons g rest ih =>
      intro f here later
      exact ih _ (ofConnect f g here (later g List.mem_cons_self))
        fun h member => later h (List.mem_cons_of_mem _ member)
  cases fs with
  | nil => exact ofEmpty
  | cons f rest =>
    exact folded rest f (operands f List.mem_cons_self)
      fun g member => operands g (List.mem_cons_of_mem _ member)

theorem holds_chain_conj (valuation : Term → Bool) (fs : List Formula) :
    (chain (fun f g => conj [f, g]) verum fs).holds valuation = fs.all (holds valuation) := by
  have folded : ∀ (rest : List Formula) (f : Formula),
      (rest.foldl (fun f g => conj [f, g]) f).holds valuation =
        (f.holds valuation && rest.all (holds valuation)) := by
    intro rest
    induction rest with
    | nil => simp
    | cons g rest ih =>
      intro f
      rw [List.foldl_cons, ih, List.all_cons]
      simp [Bool.and_assoc]
  cases fs with
  | nil => rfl
  | cons f rest => exact folded rest f

theorem holds_chain_disj (valuation : Term → Bool) (fs : List Formula) :
    (chain (fun f g => disj [f, g]) falsum fs).holds valuation = fs.any (holds valuation) := by
  have folded : ∀ (rest : List Formula) (f : Formula),
      (rest.foldl (fun f g => disj [f, g]) f).holds valuation =
        (f.holds valuation || rest.any (holds valuation)) := by
    intro rest
    induction rest with
    | nil => simp
    | cons g rest ih =>
      intro f
      rw [List.foldl_cons, ih, List.any_cons]
      simp [Bool.or_assoc]
  cases fs with
  | nil => rfl
  | cons f rest => exact folded rest f

/-- Binary form keeps the truth value. -/
@[simp] theorem holds_binary (valuation : Term → Bool) (f : Formula) :
    f.binary.holds valuation = f.holds valuation := by
  induction f using Formula.induct with
  | constant value => rfl
  | atom term => rfl
  | neg f ih => exact congrArg not ih
  | conj fs ih =>
    rw [binary_conj, holds_chain_conj, List.all_map, holds_conj]
    exact all_congr_of_mem ih
  | disj fs ih =>
    rw [binary_disj, holds_chain_disj, List.any_map, holds_disj]
    exact any_congr_of_mem ih
  | exactlyOne fs ih =>
    rw [binary_exactlyOne, holds_oneOf, holds_exactlyOne, List.countP_map]
    exact congrArg (· == 1) (countP_congr_of_mem ih)
  | noneOf fs ih =>
    rw [binary_noneOf, holds_nor, holds_noneOf, List.any_map]
    exact congrArg not (any_congr_of_mem ih)
  | implies a b ihA ihB =>
    change (!a.binary.holds valuation || b.binary.holds valuation) = _
    rw [ihA, ihB, holds_implies]

theorem isNnf_binary {f : Formula} (shape : f.IsNnf) : f.binary.IsNnf := by
  induction shape with
  | constant value => exact .constant value
  | atom term => exact .atom term
  | negAtom term => exact .negAtom term
  | @conj fs operands ih =>
    rw [binary_conj]
    exact chain_induction (.constant true)
      (fun f g inF inG => .conj (by simp [inF, inG])) (List.forall_mem_map.mpr ih)
  | @disj fs operands ih =>
    rw [binary_disj]
    exact chain_induction (.constant false)
      (fun f g inF inG => .disj (by simp [inF, inG])) (List.forall_mem_map.mpr ih)

theorem mentionsOnly_binary {allowed : Term → Prop} {f : Formula}
    (mentions : f.MentionsOnly allowed) : f.binary.MentionsOnly allowed := by
  induction f using Formula.induct with
  | constant value => exact mentions
  | atom term => exact mentions
  | neg f ih => exact ih mentions
  | conj fs ih =>
    rw [binary_conj]
    exact chain_induction (mentionsOnly_constant true) (fun f g inF inG => by simp [inF, inG])
      (mentionsOnly_map ih ((mentionsOnly_conj fs).mp mentions))
  | disj fs ih =>
    rw [binary_disj]
    exact chain_induction (mentionsOnly_constant false) (fun f g inF inG => by simp [inF, inG])
      (mentionsOnly_map ih ((mentionsOnly_disj fs).mp mentions))
  | exactlyOne fs ih =>
    rw [binary_exactlyOne, mentionsOnly_oneOf]
    exact mentionsOnly_map ih ((mentionsOnly_exactlyOne fs).mp mentions)
  | noneOf fs ih =>
    rw [binary_noneOf, mentionsOnly_nor]
    exact mentionsOnly_map ih ((mentionsOnly_noneOf fs).mp mentions)
  | implies a b ihA ihB =>
    have ⟨inA, inB⟩ := (mentionsOnly_implies a b).mp mentions
    exact (mentionsOnly_implies _ _).mpr ⟨ihA inA, ihB inB⟩

end Binary

end IsaLogic.Formula
