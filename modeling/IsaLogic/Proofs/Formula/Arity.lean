import IsaLogic.Formula.Operation
import IsaLogic.Proofs.Clause.Compile
import IsaLogic.Proofs.Cover.Cube
import IsaLogic.Proofs.Formula.Knowledge
import IsaLogic.Proofs.Formula.Proper
import IsaLogic.Proofs.Formula.Verdict

/-!
# Built formulas have the operands their connectives need

A formula is built if it comes from the constructors, the readers of clauses and groups, and the
rewrites, each applied to what the others gave (`Built`). Whatever the order, all of its parts
have at least two operands where the connective takes any number of them: to be proper is
hereditary, so every operation that only uses the collapsing constructors keeps it, and the few
that name a connective do so over two operands or more (`Built.isProper`).

To collapse loses nothing. Over no operand and over one, a collapsing constructor gives a formula
that means what the connective means there, for valuations and for incomplete knowledge
(`MeansSame`).
-/

namespace IsaLogic.Formula

/-- A connective that takes any number of operands has at least two. -/
def HasArity : Formula → Prop
  | .conj fs | .disj fs | .exactlyOne fs | .noneOf fs => 2 ≤ fs.length
  | _ => True

/-- Two formulas hold under the same valuations, and have one verdict whatever is known. -/
def MeansSame (f g : Formula) : Prop :=
  f.Equivalent g ∧ ∀ known, f.verdict known = g.verdict known

/-- A formula that constructors and rewrites give, one applied to the results of others. -/
inductive Built : Formula → Prop where
  | constant (value : Bool) : Built (.constant value)
  | atom (term : Term) : Built (.atom term)
  | neg {f : Formula} (operand : Built f) : Built (.neg f)
  | implies {a b : Formula} (antecedent : Built a) (consequent : Built b) : Built (.implies a b)
  | iff {a b : Formula} (left : Built a) (right : Built b) : Built (iff a b)
  | allOf {fs : List Formula} (each : ∀ f ∈ fs, Built f) : Built (allOf fs)
  | anyOf {fs : List Formula} (each : ∀ f ∈ fs, Built f) : Built (anyOf fs)
  | oneOf {fs : List Formula} (each : ∀ f ∈ fs, Built f) : Built (oneOf fs)
  | nor {fs : List Formula} (each : ∀ f ∈ fs, Built f) : Built (nor fs)
  /-- The constructor that checks the number of operands. -/
  | checked {connective : Connective} {fs : List Formula} {f : Formula}
      (each : ∀ f ∈ fs, Built f) (accepted : build connective fs = .ok f) : Built f
  | ofGroups (form : TwoLevel) (groups : List (List Literal)) : Built (ofGroups form groups)
  | compiled {clause : Clause} {f : Formula} (means : clause.compile = .ok f) : Built f
  | flatten {f : Formula} (before : Built f) : Built f.flatten
  | reduce {f : Formula} (before : Built f) : Built f.reduce
  | nnf {f : Formula} (before : Built f) : Built f.nnf
  | binary {f : Formula} (before : Built f) : Built f.binary
  | twoLevel {f g : Formula} {form : TwoLevel} {limit : Option Nat} (before : Built f)
      (within : f.equivalentForm form limit = .ok g) : Built g
  | tseytin {f : Formula} (next : Nat) (before : Built f) : Built (f.tseytin next).1
  | partialEvaluate {f : Formula} (known : Term → Verdict) (before : Built f) :
      Built (f.partialEvaluate known)
  | minimizeExact {f : Formula} (form : TwoLevel) (before : Built f) : Built (f.minimizeExact form)

variable {f : Formula} {fs : List Formula}

section Proper

/-- The collapsing constructors build proper formulas from proper ones. -/
theorem hereditary_isProper : Hereditary fun f => f.isProper = true := by
  refine .of_several (fun _ => rfl) id ?conj ?disj ?exactlyOne ?noneOf ?implies ?operands
  case conj => exact fun several each => isProper_conj.mpr ⟨several, each⟩
  case disj => exact fun several each => isProper_disj.mpr ⟨several, each⟩
  case exactlyOne => exact fun several each => isProper_exactlyOne.mpr ⟨several, each⟩
  case noneOf => exact fun several each => isProper_noneOf.mpr ⟨several, each⟩
  case implies => exact fun properA properB => isProper_implies.mpr ⟨properA, properB⟩
  case operands =>
    intro f proper
    cases f with
    | constant value => nofun
    | atom term => nofun
    | neg f => exact List.forall_mem_singleton.mpr proper
    | conj fs => exact (isProper_conj.mp proper).2
    | disj fs => exact (isProper_disj.mp proper).2
    | exactlyOne fs => exact (isProper_exactlyOne.mp proper).2
    | noneOf fs => exact (isProper_noneOf.mp proper).2
    | implies a b =>
      obtain ⟨properA, properB⟩ := isProper_implies.mp proper
      exact List.forall_mem_cons.mpr ⟨properA, List.forall_mem_singleton.mpr properB⟩

/-- All parts of a formula have the operands they need exactly if it is proper. -/
theorem isProper_iff : f.isProper = true ↔ f.Throughout HasArity := by
  induction f using Formula.induct with
  | constant value => exact iff_of_true rfl (throughout_iff.mpr ⟨trivial, nofun⟩)
  | atom term => exact iff_of_true rfl (throughout_iff.mpr ⟨trivial, nofun⟩)
  | neg f ih =>
    rw [throughout_iff]
    exact ih.trans (by simp [HasArity, Formula.operands])
  | conj fs ih =>
    rw [isProper_conj, throughout_iff]
    exact and_congr Iff.rfl (forall₂_congr ih)
  | disj fs ih =>
    rw [isProper_disj, throughout_iff]
    exact and_congr Iff.rfl (forall₂_congr ih)
  | exactlyOne fs ih =>
    rw [isProper_exactlyOne, throughout_iff]
    exact and_congr Iff.rfl (forall₂_congr ih)
  | noneOf fs ih =>
    rw [isProper_noneOf, throughout_iff]
    exact and_congr Iff.rfl (forall₂_congr ih)
  | implies a b ihA ihB =>
    rw [isProper_implies, throughout_iff, ihA, ihB]
    simp [HasArity, Formula.operands]

end Proper

section Operations

/-- A constructor that checks the number of operands accepts enough of them only. -/
theorem isProper_build {connective : Connective} (each : ∀ f ∈ fs, f.isProper = true)
    (accepted : build connective fs = .ok f) : f.isProper = true := by
  have found : build? connective fs = some f := by
    unfold build at accepted
    split at accepted
    · cases accepted
      assumption
    · cases accepted
  unfold build? at found
  split at found <;> cases found
  · have operand := each _ (List.mem_singleton.mpr rfl)
    exact operand
  · exact isProper_implies.mpr ⟨each _ (by simp), each _ (by simp)⟩
  · exact isProper_conj.mpr ⟨by simp, each⟩
  · exact isProper_disj.mpr ⟨by simp, each⟩
  · exact isProper_exactlyOne.mpr ⟨by simp, each⟩
  · exact isProper_noneOf.mpr ⟨by simp, each⟩

theorem isProper_ofGroups (form : TwoLevel) (groups : List (List Literal)) :
    (ofGroups form groups).isProper = true := by
  refine hereditary_isProper.ofGroups form fun group _ literal _ => ?_
  unfold Literal.toFormula
  split <;> rfl

theorem isProper_nnf (f : Formula) : f.nnf.isProper = true :=
  nnfWith_induction hereditary_isProper.constant (fun _ _ => ⟨rfl, rfl⟩)
    (fun _ => hereditary_isProper.allOf) (fun _ => hereditary_isProper.anyOf) true

/-- Binary form needs no collapsing constructor: a link of a chain has two operands. -/
theorem isProper_binary (f : Formula) : f.binary.isProper = true := by
  induction f using Formula.induct with
  | constant value => rfl
  | atom term => rfl
  | neg f ih => exact ih
  | conj fs ih =>
    rw [binary_conj]
    exact chain_induction (motive := fun g => g.isProper = true) rfl
      (fun f g properF properG => isProper_conj.mpr ⟨by simp, by simp [properF, properG]⟩)
      (List.forall_mem_map.mpr ih)
  | disj fs ih =>
    rw [binary_disj]
    exact chain_induction (motive := fun g => g.isProper = true) rfl
      (fun f g properF properG => isProper_disj.mpr ⟨by simp, by simp [properF, properG]⟩)
      (List.forall_mem_map.mpr ih)
  | exactlyOne fs ih =>
    rw [binary_exactlyOne]
    exact hereditary_isProper.oneOf (List.forall_mem_map.mpr ih)
  | noneOf fs ih =>
    rw [binary_noneOf]
    exact hereditary_isProper.nor (List.forall_mem_map.mpr ih)
  | implies a b ihA ihB => exact isProper_implies.mpr ⟨ihA, ihB⟩

theorem isProper_tseytin (f : Formula) (next : Nat) : (f.tseytin next).1.isProper = true := by
  unfold Formula.tseytin
  dsimp only
  split
  · exact hereditary_isProper.flatten (hereditary_isProper.reduce (isProper_nnf f))
  · exact isProper_ofGroups .conjunctive _

/-- Whatever constructors and rewrites built it, a built formula is proper. -/
theorem Built.isProper (built : f.Built) : f.isProper = true := by
  induction built with
  | constant value => rfl
  | atom term => rfl
  | neg _ ih => exact ih
  | implies _ _ ihA ihB => exact isProper_implies.mpr ⟨ihA, ihB⟩
  | iff _ _ ihA ihB => exact isProper_conj.mpr ⟨by simp, by simp [isProper_implies, ihA, ihB]⟩
  | allOf _ ih => exact hereditary_isProper.allOf ih
  | anyOf _ ih => exact hereditary_isProper.anyOf ih
  | oneOf _ ih => exact hereditary_isProper.oneOf ih
  | nor _ ih => exact hereditary_isProper.nor ih
  | checked _ accepted ih => exact isProper_build ih accepted
  | ofGroups form groups => exact isProper_ofGroups form groups
  | compiled means => exact hereditary_isProper.compile (fun _ _ => rfl) _ _ means
  | flatten _ ih => exact hereditary_isProper.flatten ih
  | reduce _ ih => exact hereditary_isProper.reduce ih
  | nnf _ _ => exact isProper_nnf _
  | binary _ _ => exact isProper_binary _
  | twoLevel _ within _ =>
    obtain ⟨groups, _, rfl⟩ := exists_ok_of_map within
    exact isProper_ofGroups _ groups
  | tseytin next _ _ => exact isProper_tseytin _ next
  | partialEvaluate known _ ih => exact hereditary_isProper.partialEvaluate known ih
  | minimizeExact form _ _ =>
    rw [Formula.minimizeExact, Cube.coverFormula_eq]
    exact isProper_ofGroups form _

/-- One operation leads from a built formula to a built one. -/
theorem Built.apply {operation : Operation} {next last : Nat} {g : Formula} (built : f.Built)
    (applied : operation.apply f next = .ok (g, last)) : g.Built := by
  cases operation with
  | twoLevel form limit =>
    obtain ⟨found, within, result⟩ := exists_ok_of_bind applied
    cases result
    exact .twoLevel built within
  | flatten => cases applied; exact .flatten built
  | reduce => cases applied; exact .reduce built
  | nnf => cases applied; exact .nnf built
  | binary => cases applied; exact .binary built
  | tseytin =>
    have same : (f.tseytin next).1 = g := congrArg Prod.fst (Except.ok.inj applied)
    exact same ▸ .tseytin next built
  | negate => cases applied; exact .neg built
  | minimizeExact form => cases applied; exact .minimizeExact form built

/-- Operations in any order lead from a built formula to a built one. -/
theorem Built.applyAll {operations : List Operation} {next last : Nat} {g : Formula}
    (built : f.Built) (applied : Operation.applyAll operations f next = .ok (g, last)) :
    g.Built := by
  induction operations generalizing f next with
  | nil => cases applied; exact built
  | cons operation rest ih =>
    obtain ⟨⟨between, passed⟩, first, others⟩ := exists_ok_of_bind applied
    exact ih (built.apply first) others

end Operations

section Collapse

theorem meansSame_allOf (fs : List Formula) : (allOf fs).MeansSame (.conj fs) := by
  refine ⟨fun valuation => by simp, fun known => ?_⟩
  match fs with
  | [] => rfl
  | [f] =>
    rw [verdict_conj, List.map_singleton]
    change f.verdict known = _
    cases f.verdict known <;> rfl
  | _ :: _ :: _ => rfl

theorem meansSame_anyOf (fs : List Formula) : (anyOf fs).MeansSame (.disj fs) := by
  refine ⟨fun valuation => by simp, fun known => ?_⟩
  match fs with
  | [] => rfl
  | [f] =>
    rw [verdict_disj, List.map_singleton]
    change f.verdict known = _
    cases f.verdict known <;> rfl
  | _ :: _ :: _ => rfl

theorem meansSame_oneOf (fs : List Formula) : (oneOf fs).MeansSame (.exactlyOne fs) := by
  refine ⟨fun valuation => by simp, fun known => ?_⟩
  match fs with
  | [] => rfl
  | [f] =>
    rw [verdict_exactlyOne, List.map_singleton]
    change f.verdict known = _
    cases f.verdict known <;> rfl
  | _ :: _ :: _ => rfl

theorem meansSame_nor (fs : List Formula) : (nor fs).MeansSame (.noneOf fs) := by
  refine ⟨fun valuation => by simp, fun known => ?_⟩
  match fs with
  | [] => rfl
  | [f] =>
    rw [verdict_noneOf, List.map_singleton]
    change (f.verdict known).negate = _
    cases f.verdict known <;> rfl
  | _ :: _ :: _ => rfl

end Collapse

/-- Connectives never have too few operands, and collapsing them changes no meaning: at every part
of a built formula, and of what operations make of it one after the other, a connective that takes
any number of operands has at least two; and over any operands, in particular over none or one, the
collapsing constructors mean what the connectives mean. -/
theorem built_hasArity :
    (∀ f : Formula, f.Built → f.Throughout HasArity) ∧
      (∀ (operations : List Operation) (f g : Formula) (next last : Nat), f.Built →
        Operation.applyAll operations f next = .ok (g, last) → g.Throughout HasArity) ∧
      ∀ fs : List Formula,
        (allOf fs).MeansSame (.conj fs) ∧ (anyOf fs).MeansSame (.disj fs) ∧
          (oneOf fs).MeansSame (.exactlyOne fs) ∧ (nor fs).MeansSame (.noneOf fs) := by
  refine ⟨fun f built => isProper_iff.mp built.isProper, ?_, fun fs => ?_⟩
  · intro operations f g next last built applied
    exact isProper_iff.mp (built.applyAll applied).isProper
  · exact ⟨meansSame_allOf fs, meansSame_anyOf fs, meansSame_oneOf fs, meansSame_nor fs⟩

/-- That a width is 32 bits exactly if it is not 64 bits, and the binary form of that. -/
theorem built_hasArity_width :
    (iff narrow (.neg (.atom (.xlen .rv64)))).Throughout HasArity ∧
      ∃ g, Operation.applyAll [.nnf, .binary] (iff narrow (.neg (.atom (.xlen .rv64)))) 0 =
          .ok (g, 0) ∧
        g.operands.length = 2 ∧ g.Throughout HasArity := by
  have built : (iff narrow (.neg (.atom (.xlen .rv64)))).Built := .iff (.atom _) (.neg (.atom _))
  refine ⟨built_hasArity.1 _ built, _, rfl, rfl, ?_⟩
  exact built_hasArity.2.1 [.nnf, .binary] _ _ 0 0 built rfl

end IsaLogic.Formula
