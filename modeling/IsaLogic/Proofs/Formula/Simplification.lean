import IsaLogic.Formula.Simplify
import IsaLogic.Proofs.Formula.Truth

/-!
# Flattening and simplification keep the meaning

`flatten` and `reduce` are read connective by connective: each step has one lemma
that compares its truth with that of the connective it replaces, and one for all
properties that formulas inherit from their operands and hand down to them
(`Hereditary`). To have terms of some kind only is such a property (`MentionsOnly`).
-/

namespace IsaLogic.Formula

/-- Every term that occurs in the formula is one of the allowed ones. -/
def MentionsOnly (allowed : Term → Prop) (f : Formula) : Prop :=
  ∀ t ∈ f.occurrences, allowed t

section MentionsOnly

variable {allowed : Term → Prop}

@[simp] theorem mentionsOnly_constant (value : Bool) : (constant value).MentionsOnly allowed := by
  simp [MentionsOnly]

@[simp] theorem mentionsOnly_atom (term : Term) :
    (atom term).MentionsOnly allowed ↔ allowed term := by
  simp [MentionsOnly]

@[simp] theorem mentionsOnly_neg (f : Formula) :
    (neg f).MentionsOnly allowed ↔ f.MentionsOnly allowed := Iff.rfl

@[simp] theorem mentionsOnly_implies (a b : Formula) :
    (implies a b).MentionsOnly allowed ↔ a.MentionsOnly allowed ∧ b.MentionsOnly allowed := by
  simp only [MentionsOnly, occurrences_implies, List.mem_append]
  exact ⟨fun h => ⟨fun t m => h t (.inl m), fun t m => h t (.inr m)⟩,
    fun h t m => m.elim (h.1 t) (h.2 t)⟩

theorem mentionsOnly_of_operands {f : Formula} {fs : List Formula}
    (operands : f.occurrences = fs.flatMap occurrences) :
    f.MentionsOnly allowed ↔ ∀ g ∈ fs, g.MentionsOnly allowed := by
  simp only [MentionsOnly, operands, List.mem_flatMap]
  exact ⟨fun h g member t occurs => h t ⟨g, member, occurs⟩,
    fun h t ⟨g, member, occurs⟩ => h g member t occurs⟩

@[simp] theorem mentionsOnly_conj (fs : List Formula) :
    (conj fs).MentionsOnly allowed ↔ ∀ g ∈ fs, g.MentionsOnly allowed :=
  mentionsOnly_of_operands (occurrences_conj fs)

@[simp] theorem mentionsOnly_disj (fs : List Formula) :
    (disj fs).MentionsOnly allowed ↔ ∀ g ∈ fs, g.MentionsOnly allowed :=
  mentionsOnly_of_operands (occurrences_disj fs)

@[simp] theorem mentionsOnly_exactlyOne (fs : List Formula) :
    (exactlyOne fs).MentionsOnly allowed ↔ ∀ g ∈ fs, g.MentionsOnly allowed :=
  mentionsOnly_of_operands (occurrences_exactlyOne fs)

@[simp] theorem mentionsOnly_noneOf (fs : List Formula) :
    (noneOf fs).MentionsOnly allowed ↔ ∀ g ∈ fs, g.MentionsOnly allowed :=
  mentionsOnly_of_operands (occurrences_noneOf fs)

@[simp] theorem mentionsOnly_allOf (fs : List Formula) :
    (allOf fs).MentionsOnly allowed ↔ ∀ g ∈ fs, g.MentionsOnly allowed :=
  mentionsOnly_of_operands (occurrences_allOf fs)

@[simp] theorem mentionsOnly_anyOf (fs : List Formula) :
    (anyOf fs).MentionsOnly allowed ↔ ∀ g ∈ fs, g.MentionsOnly allowed :=
  mentionsOnly_of_operands (occurrences_anyOf fs)

@[simp] theorem mentionsOnly_oneOf (fs : List Formula) :
    (oneOf fs).MentionsOnly allowed ↔ ∀ g ∈ fs, g.MentionsOnly allowed :=
  mentionsOnly_of_operands (occurrences_oneOf fs)

@[simp] theorem mentionsOnly_nor (fs : List Formula) :
    (nor fs).MentionsOnly allowed ↔ ∀ g ∈ fs, g.MentionsOnly allowed :=
  mentionsOnly_of_operands (occurrences_nor fs)

theorem mentionsOnly_pair {f g : Formula} (first : f.MentionsOnly allowed)
    (second : g.MentionsOnly allowed) : ∀ h ∈ [f, g], h.MentionsOnly allowed :=
  List.forall_mem_cons.mpr ⟨first, List.forall_mem_cons.mpr ⟨second, nofun⟩⟩

theorem mentionsOnly_map {rewrite : Formula → Formula} {fs : List Formula}
    (each : ∀ f ∈ fs, f.MentionsOnly allowed → (rewrite f).MentionsOnly allowed)
    (mentions : ∀ f ∈ fs, f.MentionsOnly allowed) :
    ∀ f ∈ fs.map rewrite, f.MentionsOnly allowed :=
  List.forall_mem_map.mpr fun f member => each f member (mentions f member)

end MentionsOnly

/-- A property that a formula has if its operands have it, also where a connective collapses, and
that its operands have if it has it. -/
structure Hereditary (property : Formula → Prop) : Prop where
  constant : ∀ value, property (.constant value)
  neg : ∀ {f}, property f → property (.neg f)
  allOf : ∀ {fs : List Formula}, (∀ f ∈ fs, property f) → property (allOf fs)
  anyOf : ∀ {fs : List Formula}, (∀ f ∈ fs, property f) → property (anyOf fs)
  oneOf : ∀ {fs : List Formula}, (∀ f ∈ fs, property f) → property (oneOf fs)
  nor : ∀ {fs : List Formula}, (∀ f ∈ fs, property f) → property (nor fs)
  implies : ∀ {a b}, property a → property b → property (.implies a b)
  operands : ∀ {f}, property f → ∀ g ∈ f.operands, property g

/-- What a connective inherits over two operands or more, it inherits also where it collapses. -/
theorem Hereditary.of_several {property : Formula → Prop}
    (constant : ∀ value, property (.constant value)) (neg : ∀ {f}, property f → property (.neg f))
    (conj : ∀ {fs : List Formula}, 1 < fs.length → (∀ f ∈ fs, property f) → property (.conj fs))
    (disj : ∀ {fs : List Formula}, 1 < fs.length → (∀ f ∈ fs, property f) → property (.disj fs))
    (exactlyOne : ∀ {fs : List Formula}, 1 < fs.length → (∀ f ∈ fs, property f) →
      property (.exactlyOne fs))
    (noneOf : ∀ {fs : List Formula}, 1 < fs.length → (∀ f ∈ fs, property f) →
      property (.noneOf fs))
    (implies : ∀ {a b}, property a → property b → property (.implies a b))
    (operands : ∀ {f}, property f → ∀ g ∈ f.operands, property g) : Hereditary property where
  constant := constant
  neg := neg
  allOf {fs} each := by
    match fs with
    | [] => exact constant true
    | [f] => exact each f (List.mem_singleton.mpr rfl)
    | _ :: _ :: _ => exact conj (by simp) each
  anyOf {fs} each := by
    match fs with
    | [] => exact constant false
    | [f] => exact each f (List.mem_singleton.mpr rfl)
    | _ :: _ :: _ => exact disj (by simp) each
  oneOf {fs} each := by
    match fs with
    | [] => exact constant false
    | [f] => exact each f (List.mem_singleton.mpr rfl)
    | _ :: _ :: _ => exact exactlyOne (by simp) each
  nor {fs} each := by
    match fs with
    | [] => exact constant true
    | [f] => exact neg (each f (List.mem_singleton.mpr rfl))
    | _ :: _ :: _ => exact noneOf (by simp) each
  implies := implies
  operands := operands

theorem hereditary_mentionsOnly (allowed : Term → Prop) :
    Hereditary fun f => f.MentionsOnly allowed where
  constant := mentionsOnly_constant
  neg := id
  allOf := (mentionsOnly_allOf _).mpr
  anyOf := (mentionsOnly_anyOf _).mpr
  oneOf := (mentionsOnly_oneOf _).mpr
  nor := (mentionsOnly_nor _).mpr
  implies inA inB := (mentionsOnly_implies _ _).mpr ⟨inA, inB⟩
  operands {f} mentions := by
    cases f with
    | constant value => nofun
    | atom term => nofun
    | neg f => exact List.forall_mem_singleton.mpr mentions
    | conj fs => exact (mentionsOnly_conj fs).mp mentions
    | disj fs => exact (mentionsOnly_disj fs).mp mentions
    | exactlyOne fs => exact (mentionsOnly_exactlyOne fs).mp mentions
    | noneOf fs => exact (mentionsOnly_noneOf fs).mp mentions
    | implies a b =>
      obtain ⟨inA, inB⟩ := (mentionsOnly_implies a b).mp mentions
      exact mentionsOnly_pair inA inB

/-- What rewritten operands inherit from the operands. -/
theorem Hereditary.map {property : Formula → Prop} {rewrite : Formula → Formula}
    {fs : List Formula} (each : ∀ f ∈ fs, property f → property (rewrite f))
    (operands : ∀ f ∈ fs, property f) : ∀ f ∈ fs.map rewrite, property f :=
  List.forall_mem_map.mpr fun f member => each f member (operands f member)

section Flatten

theorem spliceConj_cons (f : Formula) (fs : List Formula) :
    spliceConj (f :: fs) = (match f with | .conj inner => inner | f => [f]) ++ spliceConj fs := by
  cases f <;> rfl

theorem spliceDisj_cons (f : Formula) (fs : List Formula) :
    spliceDisj (f :: fs) = (match f with | .disj inner => inner | f => [f]) ++ spliceDisj fs := by
  cases f <;> rfl

@[simp] theorem all_spliceConj (valuation : Term → Bool) (fs : List Formula) :
    (spliceConj fs).all (holds valuation) = fs.all (holds valuation) := by
  induction fs with
  | nil => rfl
  | cons f fs ih =>
    rw [spliceConj_cons, List.all_append, ih, List.all_cons]
    cases f <;> simp

@[simp] theorem any_spliceDisj (valuation : Term → Bool) (fs : List Formula) :
    (spliceDisj fs).any (holds valuation) = fs.any (holds valuation) := by
  induction fs with
  | nil => rfl
  | cons f fs ih =>
    rw [spliceDisj_cons, List.any_append, ih, List.any_cons]
    cases f <;> simp

/-- A spliced operand is an operand, or one of an operand that is a conjunction. -/
theorem mem_spliceConj {f : Formula} {fs : List Formula} (member : f ∈ spliceConj fs) :
    f ∈ fs ∨ ∃ inner, conj inner ∈ fs ∧ f ∈ inner := by
  induction fs with
  | nil => cases member
  | cons first rest ih =>
    rw [spliceConj_cons, List.mem_append] at member
    rcases member with here | later
    · cases first with
      | conj inner => exact .inr ⟨inner, List.mem_cons_self, here⟩
      | _ => exact .inl (List.mem_cons.mpr (.inl (List.mem_singleton.mp here)))
    · rcases ih later with operand | ⟨inner, nested, inside⟩
      · exact .inl (List.mem_cons_of_mem _ operand)
      · exact .inr ⟨inner, List.mem_cons_of_mem _ nested, inside⟩

/-- A spliced operand is an operand, or one of an operand that is a disjunction. -/
theorem mem_spliceDisj {f : Formula} {fs : List Formula} (member : f ∈ spliceDisj fs) :
    f ∈ fs ∨ ∃ inner, disj inner ∈ fs ∧ f ∈ inner := by
  induction fs with
  | nil => cases member
  | cons first rest ih =>
    rw [spliceDisj_cons, List.mem_append] at member
    rcases member with here | later
    · cases first with
      | disj inner => exact .inr ⟨inner, List.mem_cons_self, here⟩
      | _ => exact .inl (List.mem_cons.mpr (.inl (List.mem_singleton.mp here)))
    · rcases ih later with operand | ⟨inner, nested, inside⟩
      · exact .inl (List.mem_cons_of_mem _ operand)
      · exact .inr ⟨inner, List.mem_cons_of_mem _ nested, inside⟩

/-- What holds of the operands and is inherited from a conjunction by its operands
holds of the spliced ones. -/
theorem forall_mem_spliceConj {motive : Formula → Prop} {fs : List Formula}
    (operands : ∀ f ∈ fs, motive f)
    (inherited : ∀ inner, motive (conj inner) → ∀ f ∈ inner, motive f) :
    ∀ f ∈ spliceConj fs, motive f := by
  intro f member
  rcases mem_spliceConj member with operand | ⟨inner, nested, inside⟩
  · exact operands f operand
  · exact inherited inner (operands _ nested) f inside

/-- What holds of the operands and is inherited from a disjunction by its operands
holds of the spliced ones. -/
theorem forall_mem_spliceDisj {motive : Formula → Prop} {fs : List Formula}
    (operands : ∀ f ∈ fs, motive f)
    (inherited : ∀ inner, motive (disj inner) → ∀ f ∈ inner, motive f) :
    ∀ f ∈ spliceDisj fs, motive f := by
  intro f member
  rcases mem_spliceDisj member with operand | ⟨inner, nested, inside⟩
  · exact operands f operand
  · exact inherited inner (operands _ nested) f inside

theorem flatten_conj (fs : List Formula) :
    (conj fs).flatten = allOf (spliceConj (fs.map flatten)) := by
  simp [flatten, fold, foldList_eq_map]

theorem flatten_disj (fs : List Formula) :
    (disj fs).flatten = anyOf (spliceDisj (fs.map flatten)) := by
  simp [flatten, fold, foldList_eq_map]

theorem flatten_exactlyOne (fs : List Formula) :
    (exactlyOne fs).flatten = oneOf (fs.map flatten) := by
  simp [flatten, fold, foldList_eq_map]

theorem flatten_noneOf (fs : List Formula) :
    (noneOf fs).flatten = nor (fs.map flatten) := by
  simp [flatten, fold, foldList_eq_map]

/-- Merging nested connectives keeps the truth value. -/
@[simp] theorem holds_flatten (valuation : Term → Bool) (f : Formula) :
    f.flatten.holds valuation = f.holds valuation := by
  induction f using Formula.induct with
  | constant value => rfl
  | atom term => rfl
  | neg f ih => exact congrArg not ih
  | conj fs ih =>
    rw [flatten_conj, holds_allOf, all_spliceConj, holds_conj, List.all_map]
    exact all_congr_of_mem ih
  | disj fs ih =>
    rw [flatten_disj, holds_anyOf, any_spliceDisj, holds_disj, List.any_map]
    exact any_congr_of_mem ih
  | exactlyOne fs ih =>
    rw [flatten_exactlyOne, holds_oneOf, holds_exactlyOne, List.countP_map]
    exact congrArg (· == 1) (countP_congr_of_mem ih)
  | noneOf fs ih =>
    rw [flatten_noneOf, holds_nor, holds_noneOf, List.any_map]
    exact congrArg not (any_congr_of_mem ih)
  | implies a b ihA ihB =>
    change (!a.flatten.holds valuation || b.flatten.holds valuation) = _
    rw [ihA, ihB, holds_implies]

theorem Hereditary.flatten {property : Formula → Prop} (hereditary : Hereditary property)
    {f : Formula} (holds : property f) : property f.flatten := by
  induction f using Formula.induct with
  | constant value => exact holds
  | atom term => exact holds
  | neg f ih => exact hereditary.neg (ih (hereditary.operands holds f (List.mem_singleton.mpr rfl)))
  | conj fs ih =>
    rw [flatten_conj]
    exact hereditary.allOf (forall_mem_spliceConj (map ih (hereditary.operands holds))
      fun _ => hereditary.operands)
  | disj fs ih =>
    rw [flatten_disj]
    exact hereditary.anyOf (forall_mem_spliceDisj (map ih (hereditary.operands holds))
      fun _ => hereditary.operands)
  | exactlyOne fs ih =>
    rw [flatten_exactlyOne]
    exact hereditary.oneOf (map ih (hereditary.operands holds))
  | noneOf fs ih =>
    rw [flatten_noneOf]
    exact hereditary.nor (map ih (hereditary.operands holds))
  | implies a b ihA ihB =>
    obtain ⟨holdsA, holdsB⟩ := List.forall_mem_cons.mp (hereditary.operands holds)
    exact hereditary.implies (ihA holdsA) (ihB (holdsB b (List.mem_singleton.mpr rfl)))

theorem mentionsOnly_flatten {allowed : Term → Prop} {f : Formula}
    (mentions : f.MentionsOnly allowed) : f.flatten.MentionsOnly allowed :=
  (hereditary_mentionsOnly allowed).flatten mentions

end Flatten

section Reduce

variable (valuation : Term → Bool)

@[simp] theorem holds_negateReduced (f : Formula) :
    (negateReduced f).holds valuation = !f.holds valuation := by
  cases f <;> simp [negateReduced]

/-- An operand and its complement have opposite truth values. -/
theorem holds_of_isComplement {f g : Formula} (complement : isComplement f g = true) :
    f.holds valuation = !g.holds valuation := by
  simp only [isComplement, Bool.or_eq_true, beq_iff_eq] at complement
  rcases complement with rfl | rfl <;> simp

/-- Whether an operand has the absorbing value of a junction. -/
def absorbs (absorbing : Bool) (f : Formula) : Bool := f.holds valuation == absorbing

/-- Gathering keeps whether some operand absorbs, and gives up only if one does. -/
theorem absorbs_gather (absorbing : Bool) (kept fs : List Formula) :
    (match gather absorbing kept fs with
      | some result => result.any (absorbs valuation absorbing)
      | none => true) = (kept ++ fs).any (absorbs valuation absorbing) := by
  induction fs generalizing kept with
  | nil => simp [gather]
  | cons f rest ih =>
    rw [gather]
    by_cases isAbsorbing : f = .constant absorbing
    · simp [isAbsorbing, absorbs]
    rw [if_neg isAbsorbing]
    by_cases dropped : (f.isConstant || kept.contains f) = true
    · rw [if_pos dropped, ih kept, List.any_append, List.any_append, List.any_cons]
      rcases (Bool.or_eq_true _ _).mp dropped with constant | repeated
      · -- a constant that does not absorb is neutral
        cases f with
        | constant value =>
          have neutral : absorbs valuation absorbing (.constant value) = false := by
            simpa [absorbs] using isAbsorbing
          rw [neutral, Bool.false_or]
        | _ => simp [isConstant] at constant
      · have member : f ∈ kept := List.contains_iff_mem.mp repeated
        cases here : absorbs valuation absorbing f with
        | false => rw [Bool.false_or]
        | true =>
          have found : kept.any (absorbs valuation absorbing) = true :=
            List.any_eq_true.mpr ⟨f, member, here⟩
          rw [found, Bool.true_or, Bool.true_or]
    rw [if_neg dropped]
    by_cases clash : kept.any (isComplement · f) = true
    · obtain ⟨g, member, complement⟩ := List.any_eq_true.mp clash
      have opposite := holds_of_isComplement valuation complement
      rw [if_pos clash]
      symm
      rw [List.any_eq_true]
      by_cases here : f.holds valuation = absorbing
      · exact ⟨f, by simp, by simp [absorbs, here]⟩
      · refine ⟨g, by simp [member], ?_⟩
        rw [absorbs, opposite, beq_iff_eq]
        exact Bool.not_eq.mpr here
    rw [if_neg clash, ih (kept ++ [f]), List.append_assoc, List.singleton_append]

theorem all_eq_not_absorbs (fs : List Formula) :
    fs.all (holds valuation) = !fs.any (absorbs valuation false) := by
  rw [List.not_any_eq_all_not]
  exact all_congr_of_mem fun f _ => by simp [absorbs]

theorem any_eq_absorbs (fs : List Formula) :
    fs.any (holds valuation) = fs.any (absorbs valuation true) := by
  exact any_congr_of_mem fun f _ => by simp [absorbs]

@[simp] theorem holds_reduceConj (fs : List Formula) :
    (reduceConj fs).holds valuation = fs.all (holds valuation) := by
  have spec := absorbs_gather valuation false [] (spliceConj fs)
  rw [← all_spliceConj, all_eq_not_absorbs, ← List.nil_append (spliceConj fs), ← spec, reduceConj]
  cases gather false [] (spliceConj fs) with
  | none => simp
  | some kept => rw [holds_allOf, all_eq_not_absorbs]

@[simp] theorem holds_reduceDisj (fs : List Formula) :
    (reduceDisj fs).holds valuation = fs.any (holds valuation) := by
  have spec := absorbs_gather valuation true [] (spliceDisj fs)
  rw [← any_spliceDisj, any_eq_absorbs, ← List.nil_append (spliceDisj fs), ← spec, reduceDisj]
  cases gather true [] (spliceDisj fs) with
  | none => simp
  | some kept => rw [holds_anyOf, any_eq_absorbs]

@[simp] theorem holds_reduceNoneOf (fs : List Formula) :
    (reduceNoneOf fs).holds valuation = !fs.any (holds valuation) := by
  have kept : (fs.filter (· ≠ falsum)).eraseDups.any (holds valuation) = fs.any (holds valuation) := by
    rw [Bool.eq_iff_iff, List.any_eq_true, List.any_eq_true]
    constructor
    · rintro ⟨f, member, truth⟩
      exact ⟨f, (List.mem_filter.mp (List.mem_eraseDups.mp member)).1, truth⟩
    · rintro ⟨f, member, truth⟩
      have notFalsum : f ≠ falsum := by
        rintro rfl
        cases truth
      exact ⟨f, List.mem_eraseDups.mpr (List.mem_filter.mpr ⟨member, by simpa using notFalsum⟩),
        truth⟩
  rw [← kept, reduceNoneOf]
  by_cases absorbed : fs.contains verum = true
  · have found : fs.any (holds valuation) = true :=
      List.any_eq_true.mpr ⟨verum, List.contains_iff_mem.mp absorbed, rfl⟩
    rw [if_pos absorbed, kept, found]
    rfl
  · rw [if_neg absorbed]
    match (fs.filter (· ≠ falsum)).eraseDups with
    | [] => rfl
    | [f] => simp
    | f :: g :: rest => exact holds_noneOf valuation (f :: g :: rest)

theorem countP_without (twice : Formula) (fs : List Formula) (fails : twice.holds valuation = false) :
    (without twice fs).countP (holds valuation) = fs.countP (holds valuation) := by
  rw [without, List.countP_filter]
  refine countP_congr_of_mem fun f _ => ?_
  by_cases same : f = twice
  · rw [same, fails, Bool.false_and]
  · simp [same]

@[simp] theorem holds_reduceDistinct (fs : List Formula) :
    (reduceDistinct fs).holds valuation = (fs.countP (holds valuation) == 1) := by
  fun_induction reduceDistinct fs with
  | case1 fs none => exact holds_oneOf valuation fs
  | case2 fs twice found fewer ih =>
    have listed : 1 < fs.count twice := by simpa using List.find?_some found
    rw [holds_reduceConj]
    simp only [List.all_cons, List.all_nil, holds_negateReduced, ih, Bool.and_true]
    cases truth : twice.holds valuation with
    | false => rw [countP_without valuation twice fs truth]; rfl
    | true =>
      -- an operand listed twice counts twice when it holds
      have atLeast : fs.count twice ≤ fs.countP (holds valuation) := by
        rw [List.count_eq_countP]
        refine List.countP_mono_left fun f _ same => ?_
        rw [eq_of_beq same, truth]
      have tooMany : (fs.countP (holds valuation) == 1) = false := by
        rw [beq_eq_false_iff_ne]
        omega
      rw [tooMany]
      rfl

/-- The operands that hold are the true constants and those that are no constants. -/
theorem countP_eq_count_verum_add (fs : List Formula) :
    fs.countP (holds valuation) =
      fs.count verum + (fs.filter (!·.isConstant)).countP (holds valuation) := by
  induction fs with
  | nil => rfl
  | cons f fs ih =>
    rw [List.countP_cons, ih, List.count_cons]
    cases f with
    | constant value =>
      cases value <;> simp [isConstant]
      omega
    | _ => simp [isConstant, List.countP_cons]; omega

@[simp] theorem holds_reduceExactlyOne (fs : List Formula) :
    (reduceExactlyOne fs).holds valuation = (fs.countP (holds valuation) == 1) := by
  rw [countP_eq_count_verum_add, reduceExactlyOne]
  split
  · rename_i noneTrue
    rw [holds_reduceDistinct, noneTrue, Nat.zero_add]
  · rename_i oneTrue
    rw [holds_reduceNoneOf, oneTrue, Bool.eq_iff_iff]
    simp [List.countP_eq_zero]
  · rename_i notZero notOne
    have several : fs.count verum ≠ 0 ∧ fs.count verum ≠ 1 := ⟨notZero, notOne⟩
    symm
    rw [holds_constant, beq_eq_false_iff_ne]
    omega

@[simp] theorem holds_reduceImplies (a b : Formula) :
    (reduceImplies a b).holds valuation = (!a.holds valuation || b.holds valuation) := by
  rw [reduceImplies]
  by_cases holdsA : a = verum
  · simp [holdsA]
  rw [if_neg holdsA]
  by_cases trivially : a = falsum ∨ b = verum ∨ a = b
  · rw [if_pos trivially]
    rcases trivially with rfl | rfl | rfl <;> simp
  rw [if_neg trivially]
  by_cases failsB : b = falsum
  · simp [failsB]
  · rw [if_neg failsB, holds_implies]

theorem reduce_conj (fs : List Formula) : (conj fs).reduce = reduceConj (fs.map reduce) := by
  simp [reduce, fold, foldList_eq_map]

theorem reduce_disj (fs : List Formula) : (disj fs).reduce = reduceDisj (fs.map reduce) := by
  simp [reduce, fold, foldList_eq_map]

theorem reduce_exactlyOne (fs : List Formula) :
    (exactlyOne fs).reduce = reduceExactlyOne (fs.map reduce) := by
  simp [reduce, fold, foldList_eq_map]

theorem reduce_noneOf (fs : List Formula) :
    (noneOf fs).reduce = reduceNoneOf (fs.map reduce) := by
  simp [reduce, fold, foldList_eq_map]

theorem reduce_neg (f : Formula) : (neg f).reduce = negateReduced f.reduce := rfl

theorem reduce_implies (a b : Formula) : (implies a b).reduce = reduceImplies a.reduce b.reduce :=
  rfl

/-- Simplification keeps the truth value. -/
@[simp] theorem holds_reduce (f : Formula) : f.reduce.holds valuation = f.holds valuation := by
  induction f using Formula.induct with
  | constant value => rfl
  | atom term => rfl
  | neg f ih => rw [reduce_neg, holds_negateReduced, ih, holds_neg]
  | conj fs ih =>
    rw [reduce_conj, holds_reduceConj, holds_conj, List.all_map]
    exact all_congr_of_mem ih
  | disj fs ih =>
    rw [reduce_disj, holds_reduceDisj, holds_disj, List.any_map]
    exact any_congr_of_mem ih
  | exactlyOne fs ih =>
    rw [reduce_exactlyOne, holds_reduceExactlyOne, holds_exactlyOne, List.countP_map]
    exact congrArg (· == 1) (countP_congr_of_mem ih)
  | noneOf fs ih =>
    rw [reduce_noneOf, holds_reduceNoneOf, holds_noneOf, List.any_map]
    exact congrArg not (any_congr_of_mem ih)
  | implies a b ihA ihB =>
    rw [reduce_implies, holds_reduceImplies, ihA, ihB, holds_implies]

end Reduce

section Gathering

/-- Gathered operands are operands. -/
theorem mem_of_gather {absorbing : Bool} {kept fs result : List Formula}
    (gathered : gather absorbing kept fs = some result) {f : Formula} (member : f ∈ result) :
    f ∈ kept ∨ f ∈ fs := by
  induction fs generalizing kept with
  | nil =>
    simp only [gather, Option.some.injEq] at gathered
    exact .inl (gathered ▸ member)
  | cons first rest ih =>
    simp only [gather] at gathered
    split at gathered
    · cases gathered
    split at gathered
    · exact (ih gathered).imp_right (List.mem_cons_of_mem _)
    split at gathered
    · cases gathered
    · rcases ih gathered with earlier | later
      · rcases List.mem_append.mp earlier with inKept | here
        · exact .inl inKept
        · exact .inr (List.mem_cons.mpr (.inl (List.mem_singleton.mp here)))
      · exact .inr (List.mem_cons_of_mem _ later)

/-- What holds of the constants and of the spliced operands is inherited by the
reduced conjunction, if conjunctions inherit it from their operands. -/
theorem reduceConj_induction {motive : Formula → Prop} {fs : List Formula}
    (spliced : ∀ f ∈ spliceConj fs, motive f) (constant : ∀ value, motive (.constant value))
    (allOf : ∀ gs, (∀ g ∈ gs, motive g) → motive (allOf gs)) : motive (reduceConj fs) := by
  rw [reduceConj]
  split
  · rename_i kept gathered
    refine allOf kept fun g member => spliced g ?_
    exact (mem_of_gather gathered member).resolve_left List.not_mem_nil
  · exact constant false

/-- What holds of the constants and of the spliced operands is inherited by the
reduced disjunction, if disjunctions inherit it from their operands. -/
theorem reduceDisj_induction {motive : Formula → Prop} {fs : List Formula}
    (spliced : ∀ f ∈ spliceDisj fs, motive f) (constant : ∀ value, motive (.constant value))
    (anyOf : ∀ gs, (∀ g ∈ gs, motive g) → motive (anyOf gs)) : motive (reduceDisj fs) := by
  rw [reduceDisj]
  split
  · rename_i kept gathered
    refine anyOf kept fun g member => spliced g ?_
    exact (mem_of_gather gathered member).resolve_left List.not_mem_nil
  · exact constant true

end Gathering

namespace Hereditary

variable {property : Formula → Prop} (hereditary : Hereditary property)

include hereditary

theorem negateReduced {f : Formula} (holds : property f) : property (negateReduced f) := by
  cases f with
  | constant value => exact hereditary.constant _
  | neg f => exact hereditary.operands holds f (List.mem_singleton.mpr rfl)
  | _ => exact hereditary.neg holds

theorem reduceConj {fs : List Formula} (operands : ∀ f ∈ fs, property f) :
    property (reduceConj fs) :=
  reduceConj_induction (forall_mem_spliceConj operands fun _ => hereditary.operands)
    hereditary.constant fun _ => hereditary.allOf

theorem reduceDisj {fs : List Formula} (operands : ∀ f ∈ fs, property f) :
    property (reduceDisj fs) :=
  reduceDisj_induction (forall_mem_spliceDisj operands fun _ => hereditary.operands)
    hereditary.constant fun _ => hereditary.anyOf

theorem reduceNoneOf {fs : List Formula} (operands : ∀ f ∈ fs, property f) :
    property (reduceNoneOf fs) := by
  have kept : ∀ f ∈ (fs.filter (· ≠ falsum)).eraseDups, property f := fun f member =>
    operands f (List.mem_filter.mp (List.mem_eraseDups.mp member)).1
  rw [Formula.reduceNoneOf]
  split
  · exact hereditary.constant false
  · generalize (fs.filter (· ≠ falsum)).eraseDups = left at kept ⊢
    match left with
    | [] => exact hereditary.constant true
    | [f] => exact hereditary.negateReduced (kept f (List.mem_singleton.mpr rfl))
    | _ :: _ :: _ => exact hereditary.nor kept

theorem reduceDistinct {fs : List Formula} (operands : ∀ f ∈ fs, property f) :
    property (reduceDistinct fs) := by
  fun_induction Formula.reduceDistinct fs with
  | case1 fs none => exact hereditary.oneOf operands
  | case2 fs twice found fewer ih =>
    have rest : ∀ f ∈ without twice fs, property f := fun f member =>
      operands f (List.mem_filter.mp member).1
    refine hereditary.reduceConj fun f member => ?_
    simp only [List.mem_cons, List.not_mem_nil, or_false] at member
    rcases member with rfl | rfl
    · exact hereditary.negateReduced (operands twice (List.mem_of_find?_eq_some found))
    · exact ih rest

theorem reduceExactlyOne {fs : List Formula} (operands : ∀ f ∈ fs, property f) :
    property (reduceExactlyOne fs) := by
  have rest : ∀ f ∈ fs.filter (!·.isConstant), property f := fun f member =>
    operands f (List.mem_filter.mp member).1
  rw [Formula.reduceExactlyOne]
  split
  · exact hereditary.reduceDistinct rest
  · exact hereditary.reduceNoneOf rest
  · exact hereditary.constant false

theorem reduceImplies {a b : Formula} (holdsA : property a) (holdsB : property b) :
    property (reduceImplies a b) := by
  rw [Formula.reduceImplies]
  split
  · exact holdsB
  split
  · exact hereditary.constant true
  split
  · exact hereditary.negateReduced holdsA
  · exact hereditary.implies holdsA holdsB

theorem reduce {f : Formula} (holds : property f) : property f.reduce := by
  induction f using Formula.induct with
  | constant value => exact holds
  | atom term => exact holds
  | neg f ih =>
    rw [reduce_neg]
    exact hereditary.negateReduced (ih (hereditary.operands holds f (List.mem_singleton.mpr rfl)))
  | conj fs ih =>
    rw [reduce_conj]
    exact hereditary.reduceConj (map ih (hereditary.operands holds))
  | disj fs ih =>
    rw [reduce_disj]
    exact hereditary.reduceDisj (map ih (hereditary.operands holds))
  | exactlyOne fs ih =>
    rw [reduce_exactlyOne]
    exact hereditary.reduceExactlyOne (map ih (hereditary.operands holds))
  | noneOf fs ih =>
    rw [reduce_noneOf]
    exact hereditary.reduceNoneOf (map ih (hereditary.operands holds))
  | implies a b ihA ihB =>
    obtain ⟨holdsA, holdsB⟩ := List.forall_mem_cons.mp (hereditary.operands holds)
    exact hereditary.reduceImplies (ihA holdsA) (ihB (holdsB b (List.mem_singleton.mpr rfl)))

end Hereditary

theorem mentionsOnly_reduce {allowed : Term → Prop} {f : Formula}
    (mentions : f.MentionsOnly allowed) : f.reduce.MentionsOnly allowed :=
  (hereditary_mentionsOnly allowed).reduce mentions

end IsaLogic.Formula
