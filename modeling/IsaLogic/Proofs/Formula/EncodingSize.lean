import Mathlib
import IsaLogic.Proofs.Formula.Regrouping
import IsaLogic.Proofs.Formula.Tseytin

/-!
# The size of the Tseytin encoding

The encoding of a negation normal form has a clause for each operand of a connective and one more
(`length_encode`), and simplification makes it no larger. But the negation normal form of an
exactly-one connective copies each operand as often as there are operands, and where such
connectives are nested the copies multiply (`spread`). So the encoding is linear in the size of the
formula times its spread (`length_clauses_tseytin_lt`), and not in the size alone: a chain of binary
exactly-one connectives has exponentially many clauses (`length_tseytin_parity`).
-/

namespace IsaLogic.Formula

section Measures

/-- The largest of some numbers, and at least one. -/
def largest (ns : List Nat) : Nat := ns.foldr max 1

/-- The number of nodes. -/
def size : Formula → Nat :=
  fold {
    constant := fun _ => 1
    atom := fun _ => 1
    neg := (· + 1)
    conj := fun ns => ns.sum + 1
    disj := fun ns => ns.sum + 1
    exactlyOne := fun ns => ns.sum + 1
    noneOf := fun ns => ns.sum + 1
    implies := fun a b => a + b + 1 }

/-- How often a part can be copied when the exactly-one connectives are spelled out: each of them
copies its operands as often as it has any. -/
def spread : Formula → Nat :=
  fold {
    constant := fun _ => 1
    atom := fun _ => 1
    neg := id
    conj := largest
    disj := largest
    exactlyOne := fun ns => max 1 (ns.length * largest ns)
    noneOf := largest
    implies := max }

/-- The clauses that encode a negation normal form, with the one that asserts it; a constant has a
variable of its own. -/
def load : Formula → Nat :=
  fold {
    constant := fun _ => 2
    atom := fun _ => 1
    neg := id
    conj := fun ns => ns.sum + 2
    disj := fun ns => ns.sum + 2
    exactlyOne := fun ns => ns.sum + 2
    noneOf := fun ns => ns.sum + 2
    implies := fun a b => a + b + 2 }

end Measures

variable {form : TwoLevel} {f : Formula} {fs : List Formula}

section Load

theorem load_outer (form : TwoLevel) (fs : List Formula) :
    (outer form fs).load = (fs.map load).sum + 2 := by
  cases form <;> rw [outer, load, fold, foldList_eq_map]

theorem load_joined_le (form : TwoLevel) (fs : List Formula) :
    (joined form fs).load ≤ (fs.map load).sum + 2 := by
  rcases fs with _ | ⟨first, _ | ⟨second, rest⟩⟩
  · cases form <;> exact Nat.le_refl 2
  · rw [joined_singleton]
    simp
  · rw [joined_of_several (by simp), load_outer]

/-- Splicing takes connectives away. -/
theorem load_spliced_le (form : TwoLevel) (fs : List Formula) :
    ((spliced form fs).map load).sum ≤ (fs.map load).sum := by
  induction fs with
  | nil => cases form <;> exact Nat.le_refl 0
  | cons f rest ih =>
    by_cases isOuter : ∃ gs, f = outer form gs
    · obtain ⟨gs, rfl⟩ := isOuter
      have spliced_cons : spliced form (outer form gs :: rest) = gs ++ spliced form rest := by
        cases form <;> rfl
      rw [spliced_cons, List.map_append, List.sum_append, List.map_cons, List.sum_cons, load_outer]
      omega
    · have spliced_cons : spliced form (f :: rest) = f :: spliced form rest := by
        cases form <;> cases f <;> first | rfl | exact absurd ⟨_, rfl⟩ isOuter
      rw [spliced_cons, List.map_cons, List.sum_cons, List.map_cons, List.sum_cons]
      omega

/-- Gathering drops operands. -/
theorem load_gather_le {value : Bool} {kept result : List Formula}
    (gathered : gather value kept fs = some result) :
    (result.map load).sum ≤ (kept.map load).sum + (fs.map load).sum := by
  induction fs generalizing kept with
  | nil =>
    cases gathered
    exact Nat.le_refl _
  | cons f rest ih =>
    rw [List.map_cons, List.sum_cons]
    rw [gather] at gathered
    split at gathered
    · cases gathered
    split at gathered
    · have := ih gathered
      omega
    split at gathered
    · cases gathered
    · have later := ih gathered
      rw [List.map_append, List.sum_append, List.map_singleton, List.sum_singleton] at later
      omega

theorem load_reduceOuter_le (form : TwoLevel) (fs : List Formula) :
    (reduceOuter form fs).load ≤ (fs.map load).sum + 2 := by
  rw [reduceOuter_eq]
  split
  · rename_i kept gathered
    have keptLoad := load_gather_le gathered
    have splicedLoad := load_spliced_le form fs
    have joinedLoad := load_joined_le form kept
    simp only [List.map_nil, List.sum_nil] at keptLoad
    omega
  · exact Nat.le_add_left 2 _

/-- Simplifying a negation normal form takes no more clauses to encode. -/
theorem load_reduce_le (shape : f.IsNnf) : f.reduce.load ≤ f.load := by
  have each : ∀ (form : TwoLevel) (fs : List Formula), (∀ f ∈ fs, f.reduce.load ≤ f.load) →
      (reduceOuter form (fs.map reduce)).load ≤ (outer form fs).load := by
    intro form fs ih
    have operands : ((fs.map reduce).map load).sum ≤ (fs.map load).sum := by
      rw [List.map_map]
      exact List.sum_le_sum ih
    have whole := load_reduceOuter_le form (fs.map reduce)
    rw [load_outer]
    omega
  induction shape with
  | constant value => exact Nat.le_refl _
  | atom term => exact Nat.le_refl _
  | negAtom term => exact Nat.le_refl _
  | @conj fs _ ih =>
    rw [reduce_conj]
    exact each .conjunctive fs ih
  | @disj fs _ ih =>
    rw [reduce_disj]
    exact each .disjunctive fs ih

end Load

section Encode

theorem length_encodeList {fs : List Formula}
    (each : ∀ f ∈ fs, ∀ next, (encode f next).clauses.length + 1 = f.load) (next : Nat) :
    (encodeList fs next).1.length = fs.length ∧
      (encodeList fs next).2.1.length + fs.length = (fs.map load).sum := by
  induction fs generalizing next with
  | nil => exact ⟨rfl, rfl⟩
  | cons f rest ih =>
    obtain ⟨first, others⟩ := List.forall_mem_cons.mp each
    obtain ⟨literals, clauses⟩ := ih others (encode f next).next
    have ofFirst := first next
    rw [List.map_cons, List.sum_cons, List.length_cons]
    refine ⟨congrArg (· + 1) literals, ?_⟩
    change ((encode f next).clauses ++ (encodeList rest (encode f next).next).2.1).length + _ = _
    rw [List.length_append]
    omega

/-- Defining a variable takes a clause for each literal, and one more. -/
theorem length_defineConj (var : Literal) (literals : List Literal) :
    (defineConj var literals).length = literals.length + 1 := by
  simp [defineConj]

/-- A negation normal form has a clause for each operand of a connective, and one more for the
connective. -/
theorem length_encode (shape : f.IsNnf) (next : Nat) :
    (encode f next).clauses.length + 1 = f.load := by
  induction f using Formula.induct generalizing next with
  | constant value => cases value <;> rfl
  | atom term => rfl
  | neg f =>
    cases shape
    rfl
  | conj fs ih =>
    obtain ⟨literals, clauses⟩ := length_encodeList
      (fun f member => ih f member (shape.conj_operands f member)) (next + 1)
    change ((encodeList fs (next + 1)).2.1 ++
      defineConj _ (encodeList fs (next + 1)).1).length + 1 = (outer .conjunctive fs).load
    rw [List.length_append, length_defineConj, load_outer]
    omega
  | disj fs ih =>
    obtain ⟨literals, clauses⟩ := length_encodeList
      (fun f member => ih f member (shape.disj_operands f member)) (next + 1)
    change ((encodeList fs (next + 1)).2.1 ++
      defineDisj _ (encodeList fs (next + 1)).1).length + 1 = (outer .disjunctive fs).load
    rw [List.length_append, defineDisj_eq_defineConj, length_defineConj, List.length_map,
      load_outer]
    omega
  | exactlyOne fs | noneOf fs | implies a b => cases shape

end Encode

section Tseytin

theorem IsTidy.hasArity (tidy : f.IsTidy) : f.HasArity := by
  cases f with
  | conj fs | disj fs | exactlyOne fs | noneOf fs => exact tidy.1
  | _ => trivial

theorem IsTidy.isMerged (tidy : f.IsTidy) : f.IsMerged := by
  cases f with
  | conj fs | disj fs => exact tidy.2.2
  | _ => trivial

/-- A simplified formula is flat. -/
theorem flatten_of_isReduced (reduced : f.IsReduced) : f.flatten = f := by
  have proper : f.isProper = true :=
    isProper_iff.mpr fun part within => (reduced part within).hasArity
  exact flatten_of_isMerged proper fun part within => (reduced part within).isMerged

/-- The encoding has as many clauses as the simplified negation normal form asks for. -/
theorem exists_clauses_tseytin (f : Formula) (next : Nat) :
    ∃ clauses, (f.tseytin next).1.clauses? = some clauses ∧ clauses.length ≤ f.nnf.reduce.load ∧
      (f.nnf.reduce.isConstant = false → clauses.length = f.nnf.reduce.load) := by
  have shape : f.nnf.reduce.IsNnf := isNnf_reduce (isNnf_nnf f)
  have prepared : f.nnf.reduce.flatten = f.nnf.reduce :=
    flatten_of_isReduced (isReduced_reduce f.nnf)
  rw [tseytin, prepared]
  dsimp only
  generalize f.nnf.reduce = g at shape
  split
  · rename_i simple
    cases shape with
    | constant value =>
      cases value
      · exact ⟨[[]], rfl, Nat.le_succ 1, nofun⟩
      · exact ⟨[], rfl, Nat.zero_le 2, nofun⟩
    | atom term => exact ⟨_, rfl, Nat.le_refl 1, fun _ => rfl⟩
    | negAtom term => exact ⟨_, rfl, Nat.le_refl 1, fun _ => rfl⟩
    | conj operands | disj operands => cases simple
  · have encodes := encodesOne_encode shape next
    have nonempty : [] ∉ (encode g next).clauses ++ [[(encode g next).literal]] := by
      intro member
      rcases List.mem_append.mp member with defining | asserting
      · exact encodes.nonempty [] defining rfl
      · cases List.mem_singleton.mp asserting
    refine ⟨_, clauses?_ofClauses fun empty => absurd empty nonempty, ?_⟩
    have count := length_encode shape next
    rw [List.length_append, List.length_singleton]
    exact ⟨count.le, fun _ => count⟩

end Tseytin

section Spread

theorem le_largest {n : Nat} {ns : List Nat} (member : n ∈ ns) : n ≤ largest ns := by
  induction ns with
  | nil => cases member
  | cons m rest ih =>
    rcases List.mem_cons.mp member with rfl | later
    · exact Nat.le_max_left ..
    · exact (ih later).trans (Nat.le_max_right ..)

theorem one_le_largest (ns : List Nat) : 1 ≤ largest ns := by
  induction ns with
  | nil => exact Nat.le_refl 1
  | cons n rest ih => exact ih.trans (Nat.le_max_right ..)

theorem size_eq (f : Formula) : f.size = (f.operands.map size).sum + 1 := by
  cases f with
  | constant value => rfl
  | atom term => rfl
  | neg f => rfl
  | implies a b => simp [operands, size, fold]
  | _ fs => rw [size, fold, foldList_eq_map]; rfl

theorem spread_exactlyOne (fs : List Formula) :
    (exactlyOne fs).spread = max 1 (fs.length * largest (fs.map spread)) := by
  rw [spread, fold, foldList_eq_map]
  simp

theorem spread_pos (f : Formula) : 1 ≤ f.spread := by
  induction f using Formula.induct with
  | constant value | atom term => exact Nat.le_refl 1
  | neg f ih => exact ih
  | conj fs | disj fs | noneOf fs => exact one_le_largest _
  | exactlyOne fs => exact Nat.le_max_left ..
  | implies a b ihA _ => exact ihA.trans (Nat.le_max_left ..)

/-- Connectives other than exactly-one copy nothing. -/
theorem spread_eq (other : ∀ fs, f ≠ .exactlyOne fs) :
    f.spread = largest (f.operands.map spread) := by
  cases f with
  | constant value | atom term => rfl
  | neg f => exact (Nat.max_eq_left (spread_pos f)).symm
  | implies a b => exact congrArg (max a.spread) (Nat.max_eq_left (spread_pos b)).symm
  | exactlyOne fs => exact absurd rfl (other fs)
  | _ fs => rw [spread, fold, foldList_eq_map]; rfl

end Spread

section NegationNormal

/-- Forms of operands that each keep below a multiple of the size keep below it together. -/
theorem load_parts_le {scale : Nat} {polarity : Bool}
    (each : ∀ f ∈ fs, (f.nnfWith polarity).load < scale * f.size) :
    ((fs.map (·.nnfWith polarity)).map load).sum + fs.length ≤ scale * (fs.map size).sum := by
  induction fs with
  | nil => exact Nat.zero_le _
  | cons f rest ih =>
    obtain ⟨first, others⟩ := List.forall_mem_cons.mp each
    have later := ih others
    simp only [List.map_cons, List.sum_cons, List.length_cons, Nat.mul_add]
    omega

theorem load_oneHolds_le {holding failing : List Formula} {total : Nat}
    (each : ∀ place (inside : place < holding.length),
      holding[place].load + ((failing.eraseIdx place).map load).sum < total) :
    (oneHolds holding failing).load ≤ holding.length * (total + 1) + 2 := by
  have bound : ∀ ns : List Nat, ∀ most, (∀ n ∈ ns, n ≤ most) → ns.sum ≤ ns.length * most :=
    fun ns most below => List.sum_le_card_nsmul ns most below
  refine (load_joined_le .disjunctive _).trans (Nat.add_le_add_right ?_ 2)
  rw [List.map_map]
  refine (bound _ (total + 1) ?_).trans (by simp)
  simp only [List.forall_mem_map, Function.comp_def]
  rintro ⟨f, place⟩ member
  obtain ⟨inside, rfl⟩ := List.getElem?_eq_some_iff.mp (List.mk_mem_zipIdx_iff_getElem?.mp member)
  have below := each place inside
  have whole := load_joined_le .conjunctive (holding[place] :: failing.eraseIdx place)
  rw [List.map_cons, List.sum_cons] at whole
  exact whole.trans (by omega)

/-- Among all pairs, each element is paired with every other one. -/
theorem sum_pairs {α : Type} (weight : α → Nat) (list : List α) :
    ((pairs list).map fun pair => weight pair.1 + weight pair.2).sum + (list.map weight).sum =
      list.length * (list.map weight).sum := by
  induction list with
  | nil => rfl
  | cons x rest ih =>
    have withFirst :
        ((rest.map fun y => (x, y)).map fun pair => weight pair.1 + weight pair.2).sum =
          rest.length * weight x + (rest.map weight).sum := by
      simp [Function.comp_def, List.sum_map_add]
    rw [pairs, List.map_append, List.sum_append, withFirst, List.map_cons, List.sum_cons,
      List.length_cons]
    linarith

theorem load_notOneHolds_le (holding failing : List Formula) :
    (notOneHolds holding failing).load + (holding.map fun f => f.load + 1).sum ≤
      (failing.map load).sum + holding.length * (holding.map fun f => f.load + 1).sum + 4 := by
  have both : ((pairs holding).map fun pair => allOf [pair.1, pair.2]).map load =
      (pairs holding).map fun pair => (pair.1.load + 1) + (pair.2.load + 1) := by
    rw [List.map_map]
    refine List.map_congr_left fun pair _ => ?_
    change (outer .conjunctive [pair.1, pair.2]).load = _
    rw [load_outer]
    simp only [List.map_cons, List.map_nil, List.sum_cons, List.sum_nil]
    omega
  have whole : (notOneHolds holding failing).load ≤ (joined .conjunctive failing).load +
      ((pairs holding).map fun pair => (pair.1.load + 1) + (pair.2.load + 1)).sum + 2 := by
    rw [← both]
    exact load_joined_le .disjunctive (_ :: _)
  have noneHolds := load_joined_le .conjunctive failing
  have counted := sum_pairs (fun f => f.load + 1) holding
  omega

/-- Forms of the operands of a connective, joined by one, keep below the scale. -/
theorem load_joined_lt (form : TwoLevel) {parts : List Formula} {scale total : Nat}
    (enough : 4 ≤ scale) (below : (parts.map load).sum ≤ scale * total) :
    (joined form parts).load < scale * (total + 1) := by
  have whole := load_joined_le form parts
  rw [Nat.mul_add]
  omega

/-- One operand of a list and the others are all of them. -/
theorem size_eraseIdx {place : Nat} (inside : place < fs.length) :
    fs[place].size + ((fs.eraseIdx place).map size).sum = (fs.map size).sum := by
  have order := (List.getElem_cons_eraseIdx_perm inside).map size
  exact order.sum_eq

/-- Spelling an exactly-one connective out makes as many copies as there are operands. -/
theorem load_exactlyOne_lt {scale : Nat} (enough : 4 ≤ scale) (some : fs ≠ [])
    (each : ∀ f ∈ fs, ∀ polarity, (f.nnfWith polarity).load < scale * f.size) (polarity : Bool) :
    ((exactlyOne fs).nnfWith polarity).load <
      fs.length * scale * ((fs.map size).sum + 1) := by
  obtain ⟨others, isLength⟩ := Nat.exists_eq_succ_of_ne_zero (mt List.length_eq_zero_iff.mp some)
  have scaled : 4 * fs.length ≤ scale * fs.length := Nat.mul_le_mul_right _ enough
  rw [nnfWith_exactlyOne]
  cases polarity
  · have holding := load_parts_le fun f member => each f member true
    have failing := load_parts_le fun f member => each f member false
    have whole := load_notOneHolds_le (fs.map (·.nnfWith true)) (fs.map (·.nnfWith false))
    rw [List.sum_map_add, List.length_map] at whole
    simp only [List.map_const', List.length_map, List.sum_replicate, smul_eq_mul, mul_one] at whole
    have copies := Nat.mul_le_mul_left others holding
    -- every operand fails once, and holds once with each of the others
    rw [if_neg Bool.false_ne_true]
    rw [isLength] at *
    nlinarith
  · have atPlace : ∀ place (inside : place < (fs.map (nnfWith · true)).length),
        (fs.map (nnfWith · true))[place].load +
          (((fs.map (nnfWith · false)).eraseIdx place).map load).sum <
            scale * (fs.map size).sum := by
      intro place inside
      have isPlace : place < fs.length := by simpa using inside
      have here := each fs[place] (List.getElem_mem isPlace) true
      have rest := load_parts_le fun f (member : f ∈ fs.eraseIdx place) =>
        each f (List.mem_of_mem_eraseIdx member) false
      rw [List.getElem_map, List.eraseIdx_map, ← size_eraseIdx isPlace, Nat.mul_add]
      omega
    have whole := load_oneHolds_le atPlace
    rw [List.length_map] at whole
    -- at every place one operand holds and the others fail
    rw [if_pos rfl]
    nlinarith

/-- A negation normal form takes fewer clauses to encode than four times the size and the spread. -/
theorem load_nnfWith_lt (f : Formula) (polarity : Bool) :
    (f.nnfWith polarity).load < 4 * f.spread * f.size := by
  have scaled : ∀ {fs : List Formula},
      (∀ f ∈ fs, ∀ polarity, (f.nnfWith polarity).load < 4 * f.spread * f.size) →
      ∀ f ∈ fs, ∀ polarity,
        (f.nnfWith polarity).load < 4 * largest (fs.map spread) * f.size := by
    intro fs each f member polarity
    have most : f.spread ≤ largest (fs.map spread) := le_largest (List.mem_map_of_mem member)
    exact (each f member polarity).trans_le
      (Nat.mul_le_mul_right _ (Nat.mul_le_mul_left 4 most))
  have junction : ∀ (form : TwoLevel) {fs : List Formula} (polarity : Bool),
      (∀ f ∈ fs, ∀ polarity, (f.nnfWith polarity).load < 4 * f.spread * f.size) →
      (joined form (fs.map (·.nnfWith polarity))).load <
        4 * largest (fs.map spread) * ((fs.map size).sum + 1) := by
    intro form fs polarity each
    have parts := load_parts_le fun f member => scaled each f member polarity
    have enough := one_le_largest (fs.map spread)
    exact load_joined_lt form (by omega) (by omega)
  induction f using Formula.induct generalizing polarity with
  | constant value => exact (by decide : 2 < 4 * 1 * 1)
  | atom term => cases polarity <;> exact (by decide : 1 < 4 * 1 * 1)
  | neg f ih => exact (ih !polarity).trans_le (Nat.mul_le_mul_left _ (Nat.le_succ f.size))
  | conj fs ih =>
    rw [nnfWith_conj, spread_eq (f := .conj fs) nofun, size_eq]
    cases polarity
    · exact junction .disjunctive false ih
    · exact junction .conjunctive true ih
  | disj fs ih =>
    rw [nnfWith_disj, spread_eq (f := .disj fs) nofun, size_eq]
    cases polarity
    · exact junction .conjunctive false ih
    · exact junction .disjunctive true ih
  | noneOf fs ih =>
    rw [nnfWith_noneOf, spread_eq (f := .noneOf fs) nofun, size_eq]
    cases polarity
    · exact junction .disjunctive true ih
    · exact junction .conjunctive false ih
  | implies a b ihA ihB =>
    have each : ∀ f ∈ [a, b], ∀ polarity, (f.nnfWith polarity).load < 4 * f.spread * f.size :=
      List.forall_mem_cons.mpr ⟨ihA, List.forall_mem_singleton.mpr ihB⟩
    have atA := scaled each a (List.mem_cons_self ..) (!polarity)
    have atB := scaled each b (List.mem_cons_of_mem a (List.mem_singleton.mpr rfl)) polarity
    have enough : 4 ≤ 4 * largest ([a, b].map spread) :=
      Nat.le_mul_of_pos_right 4 (one_le_largest _)
    have parts : ([a.nnfWith !polarity, b.nnfWith polarity].map load).sum ≤
        4 * largest ([a, b].map spread) * ([a, b].map size).sum := by
      simp only [List.map_cons, List.map_nil, List.sum_cons, List.sum_nil, Nat.mul_add] at *
      omega
    rw [nnfWith_implies, spread_eq (f := .implies a b) nofun, size_eq]
    cases polarity
    · exact load_joined_lt .conjunctive enough parts
    · exact load_joined_lt .disjunctive enough parts
  | exactlyOne fs ih =>
    rw [spread_exactlyOne, size_eq]
    by_cases some : fs = []
    · subst some
      cases polarity <;> exact (by decide : 2 < 4 * 1 * 1)
    · have enough := one_le_largest (fs.map spread)
      have below := load_exactlyOne_lt (by omega) some (scaled ih) polarity
      refine below.trans_le (Nat.mul_le_mul_right _ ?_)
      rw [Nat.mul_left_comm]
      exact Nat.mul_le_mul_left 4 (Nat.le_max_right ..)

end NegationNormal

section Parity

/-- A term for each number, named by a letter that is repeated. -/
def chainTerm (n : Nat) : Term :=
  .extension (.any (String.ofList (List.replicate (n + 1) 'A')))

theorem chainTerm_inj {m n : Nat} (same : chainTerm m = chainTerm n) : m = n := by
  have names : String.ofList (List.replicate (m + 1) 'A') =
      String.ofList (List.replicate (n + 1) 'A') := by
    simpa [chainTerm, ExtensionTerm.any] using same
  have lengths := congrArg (fun text : String => text.toList.length) names
  simpa using lengths

/-- A chain of binary exactly-one connectives: it holds where an odd number of the terms do. -/
def parity : Nat → Formula
  | 0 => .atom (chainTerm 0)
  | n + 1 => .exactlyOne [.atom (chainTerm (n + 1)), parity n]

theorem size_parity (n : Nat) : (parity n).size = 2 * n + 1 := by
  induction n with
  | zero => rfl
  | succ n ih =>
    have step : (parity (n + 1)).size = 1 + ((parity n).size + 0) + 1 := size_eq _
    omega

/-- A term of the chain or its negation. -/
def chainLiteral (n : Nat) : Bool → Formula
  | true => .atom (chainTerm n)
  | false => .neg (.atom (chainTerm n))

theorem nnfWith_parity (n : Nat) : ∀ polarity, (parity (n + 1)).nnfWith polarity =
    match polarity with
    | true => .disj [.conj [chainLiteral (n + 1) true, (parity n).nnfWith false],
        .conj [(parity n).nnfWith true, chainLiteral (n + 1) false]]
    | false => .disj [.conj [chainLiteral (n + 1) false, (parity n).nnfWith false],
        .conj [chainLiteral (n + 1) true, (parity n).nnfWith true]]
  | true => nnfWith_exactlyOne _ true
  | false => nnfWith_exactlyOne _ false

/-- Two simplified operands that have nothing in common make a simplified formula. -/
theorem isReduced_pair {f g : Formula} (form : TwoLevel) (reducedF : f.IsReduced)
    (reducedG : g.IsReduced) (proper : f.isConstant = false ∧ g.isConstant = false)
    (inner : ∀ gs, f ≠ outer form gs ∧ g ≠ outer form gs)
    (differ : f ≠ g ∧ f.neg ≠ g ∧ g.neg ≠ f) : (outer form [f, g]).IsReduced := by
  have apart : ∀ h ∈ [f, g], h.neg ∉ [f, g] := by
    simp [differ.2.1, differ.2.2, neg_ne_self]
  have distinct : Distinct [f, g] := {
    proper := by simpa using proper
    nodup := by simpa using differ.1 }
  refine isReduced_iff.mpr ⟨isTidy_outer.mpr ⟨Nat.le_refl 2, ⟨distinct, apart⟩, ?_⟩, ?_⟩
  · intro gs member
    rcases List.mem_pair.mp member with same | same
    · exact (inner gs).1 same.symm
    · exact (inner gs).2 same.symm
  · rw [operands_outer]
    exact List.forall_mem_cons.mpr ⟨reducedF, List.forall_mem_singleton.mpr reducedG⟩

/-- What is known of the negation normal form of a chain and of that of its negation. -/
structure IsLink (n : Nat) (f : Formula) : Prop where
  reduced : f.IsReduced
  proper : f.isConstant = false
  notConj : ∀ gs, f ≠ .conj gs
  earlier : ∀ term ∈ f.occurrences, ∃ m ≤ n, term = chainTerm m
  load : f.load + 8 = 9 * 2 ^ n

theorem occurrences_chainLiteral (n : Nat) (positive : Bool) :
    (chainLiteral n positive).occurrences = [chainTerm n] := by
  cases positive <;> rfl

theorem isReduced_chainLiteral (n : Nat) (positive : Bool) :
    (chainLiteral n positive).IsReduced := by
  cases positive
  · exact isReduced_iff.mpr ⟨⟨rfl, nofun⟩, List.forall_mem_singleton.mpr (isReduced_atom _)⟩
  · exact isReduced_atom _

theorem isLink_chainLiteral (positive : Bool) : IsLink 0 (chainLiteral 0 positive) where
  reduced := isReduced_chainLiteral 0 positive
  proper := by cases positive <;> rfl
  notConj := by cases positive <;> nofun
  earlier term occurs := by
    rw [occurrences_chainLiteral] at occurs
    exact ⟨0, Nat.le_refl 0, List.mem_singleton.mp occurs⟩
  load := by cases positive <;> rfl

/-- A link does not mention the next term. -/
theorem IsLink.new {n : Nat} (link : IsLink n f) : chainTerm (n + 1) ∉ f.occurrences := by
  intro occurs
  obtain ⟨m, atMost, same⟩ := link.earlier _ occurs
  have := chainTerm_inj same
  omega

theorem IsLink.ne_literal {n : Nat} (link : IsLink n f) (positive : Bool) :
    chainLiteral (n + 1) positive ≠ f := by
  rintro rfl
  exact link.new (occurrences_chainLiteral (n + 1) positive ▸ List.mem_singleton.mpr rfl)

/-- A new literal beside a link. -/
structure Beside (n : Nat) (positive : Bool) (f : Formula) (fs : List Formula) : Prop where
  link : IsLink n f
  order : fs = [chainLiteral (n + 1) positive, f] ∨ fs = [f, chainLiteral (n + 1) positive]

namespace Beside

variable {n : Nat} {positive : Bool}

theorem isReduced_conj (beside : Beside n positive f fs) : (conj fs).IsReduced := by
  have link := beside.link
  have own := occurrences_chainLiteral (n + 1) positive
  have apart : (chainLiteral (n + 1) positive).neg ≠ f ∧ f.neg ≠ chainLiteral (n + 1) positive := by
    refine ⟨?_, fun same => link.new ?_⟩
    · rintro rfl
      exact link.new (own ▸ List.mem_singleton.mpr rfl)
    · rw [← occurrences_neg, same, own]
      exact List.mem_singleton.mpr rfl
  have reduced := isReduced_chainLiteral (n + 1) positive
  have proper : (chainLiteral (n + 1) positive).isConstant = false := by cases positive <;> rfl
  have notConj : ∀ gs, chainLiteral (n + 1) positive ≠ .conj gs := by cases positive <;> nofun
  rcases beside.order with rfl | rfl
  · exact isReduced_pair .conjunctive reduced link.reduced ⟨proper, link.proper⟩
      (fun gs => ⟨notConj gs, link.notConj gs⟩) ⟨link.ne_literal positive, apart⟩
  · exact isReduced_pair .conjunctive link.reduced reduced ⟨link.proper, proper⟩
      (fun gs => ⟨link.notConj gs, notConj gs⟩) ⟨(link.ne_literal positive).symm, apart.2, apart.1⟩

theorem load_conj (beside : Beside n positive f fs) : (conj fs).load = f.load + 3 := by
  have literal : (chainLiteral (n + 1) positive).load = 1 := by cases positive <;> rfl
  have whole : (conj fs).load = (fs.map load).sum + 2 := load_outer .conjunctive fs
  rw [whole]
  rcases beside.order with rfl | rfl <;>
    simp only [List.map_cons, List.map_nil, List.sum_cons, List.sum_nil, literal] <;> omega

theorem earlier (beside : Beside n positive f fs) {term : Term}
    (occurs : term ∈ (conj fs).occurrences) : ∃ m ≤ n + 1, term = chainTerm m := by
  have cases : term = chainTerm (n + 1) ∨ term ∈ f.occurrences := by
    rcases beside.order with rfl | rfl <;>
      simpa [occurrences_chainLiteral, or_comm] using occurs
  rcases cases with rfl | inLink
  · exact ⟨n + 1, Nat.le_refl _, rfl⟩
  · obtain ⟨m, atMost, same⟩ := beside.link.earlier term inLink
    exact ⟨m, atMost.trans (Nat.le_succ n), same⟩

/-- Two links of one length make one of the next. -/
theorem isLink_disj {other : Bool} {g : Formula} {gs : List Formula}
    (first : Beside n positive f fs) (second : Beside n other g gs) (differ : fs ≠ gs) :
    IsLink (n + 1) (.disj [.conj fs, .conj gs]) where
  reduced := isReduced_pair .disjunctive first.isReduced_conj second.isReduced_conj ⟨rfl, rfl⟩
    (fun _ => ⟨nofun, nofun⟩) ⟨fun same => differ (conj.inj same), nofun, nofun⟩
  proper := rfl
  notConj := nofun
  earlier term occurs := by
    have cases : term ∈ (conj fs).occurrences ∨ term ∈ (conj gs).occurrences := by
      simpa using occurs
    exact cases.elim first.earlier second.earlier
  load := by
    have whole : (disj [.conj fs, .conj gs]).load = (conj fs).load + ((conj gs).load + 0) + 2 :=
      load_outer .disjunctive _
    have ofFirst := first.link.load
    have ofSecond := second.link.load
    rw [whole, first.load_conj, second.load_conj, Nat.pow_succ]
    omega

end Beside

theorem isLink_nnfWith (n : Nat) (polarity : Bool) : IsLink n ((parity n).nnfWith polarity) := by
  induction n generalizing polarity with
  | zero =>
    cases polarity
    · exact isLink_chainLiteral false
    · exact isLink_chainLiteral true
  | succ n ih =>
    rw [nnfWith_parity]
    cases polarity
    · have first : Beside n false _ _ := ⟨ih false, .inl rfl⟩
      have second : Beside n true _ _ := ⟨ih true, .inl rfl⟩
      exact first.isLink_disj second (fun same => by cases same)
    · have first : Beside n true _ _ := ⟨ih false, .inl rfl⟩
      have second : Beside n false _ _ := ⟨ih true, .inr rfl⟩
      exact first.isLink_disj second fun same =>
        (ih true).ne_literal true (List.cons.inj same).1

/-- The encoding of a chain has exponentially many clauses. -/
theorem length_tseytin_parity (n next : Nat) : ∃ clauses,
    ((parity n).tseytin next).1.clauses? = some clauses ∧ clauses.length + 8 = 9 * 2 ^ n := by
  have link := isLink_nnfWith n true
  obtain ⟨clauses, isClauses, _, exact⟩ := exists_clauses_tseytin (parity n) next
  rw [nnf, reduce_of_isReduced link.reduced] at exact
  exact ⟨clauses, isClauses, by rw [exact link.proper, link.load]⟩

end Parity

section Bound

theorem largest_of_ones {ns : List Nat} (ones : ∀ n ∈ ns, n = 1) : largest ns = 1 := by
  induction ns with
  | nil => rfl
  | cons n rest ih =>
    obtain ⟨rfl, later⟩ := List.forall_mem_cons.mp ones
    rw [largest, List.foldr_cons]
    exact congrArg (max 1) (ih later)

/-- Without exactly-one connectives nothing is copied. -/
theorem spread_eq_one (plain : ∀ fs, ¬ Within (.exactlyOne fs) f) : f.spread = 1 := by
  induction f using induct_operands with
  | step f ih =>
    rw [spread_eq fun fs same => plain fs (same ▸ .self f)]
    refine largest_of_ones (List.forall_mem_map.mpr fun g member => ih g member fun fs within => ?_)
    exact plain fs (.operand member within)

/-- The encoding has fewer clauses than four times the size and the spread of the formula; so it is
linear in the size of formulas without exactly-one connectives. -/
theorem length_clauses_tseytin_lt (f : Formula) (next : Nat) :
    ∃ clauses, (f.tseytin next).1.clauses? = some clauses ∧
      clauses.length < 4 * f.spread * f.size ∧
      ((∀ fs, ¬ Within (.exactlyOne fs) f) → clauses.length < 4 * f.size) := by
  obtain ⟨clauses, isClauses, atMost, _⟩ := exists_clauses_tseytin f next
  have below := atMost.trans_lt <|
    (load_reduce_le (isNnf_nnf f)).trans_lt (load_nnfWith_lt f true)
  exact ⟨clauses, isClauses, below, fun plain => by rwa [spread_eq_one plain, mul_one] at below⟩

/-- An exactly-one connective within another one, and an implication that has none. -/
theorem length_clauses_tseytin_lt_nested :
    let a : Formula := .atom (.extension (.any "A"))
    let b : Formula := .atom (.extension (.any "B"))
    let c : Formula := .atom (.xlen .rv64)
    (∃ clauses, ((exactlyOne [a, .exactlyOne [b, c]]).tseytin 0).1.clauses? = some clauses ∧
      clauses.length < 80) ∧
    ∃ clauses, ((implies a b).tseytin 0).1.clauses? = some clauses ∧ clauses.length < 12 := by
  intro a b c
  obtain ⟨clauses, isClauses, below, _⟩ :=
    length_clauses_tseytin_lt (exactlyOne [a, .exactlyOne [b, c]]) 0
  obtain ⟨others, areOthers, _, linear⟩ := length_clauses_tseytin_lt (implies a b) 0
  have leaf : ∀ term fs, ¬ Within (.exactlyOne fs) (.atom term) := by
    intro term fs within
    cases within with
    | operand none _ => cases none
  have plain : ∀ fs, ¬ Within (.exactlyOne fs) (implies a b) := by
    intro fs within
    cases within with
    | operand member inside =>
      rcases List.mem_pair.mp member with rfl | rfl
      · exact leaf _ fs inside
      · exact leaf _ fs inside
  have bound : 4 * (exactlyOne [a, .exactlyOne [b, c]]).spread *
      (exactlyOne [a, .exactlyOne [b, c]]).size = 80 := by
    simp [a, b, c, spread, size, fold, foldList, largest]
  have plainBound : 4 * (implies a b).size = 12 := by
    simp [a, b, size, fold]
  exact ⟨⟨clauses, isClauses, below.trans_eq bound⟩, others, areOthers,
    (linear plain).trans_eq plainBound⟩

/-- No multiple of the size bounds the number of clauses. -/
theorem tseytin_not_linear : ¬ ∃ factor, ∀ (f : Formula) (next : Nat) clauses,
    (f.tseytin next).1.clauses? = some clauses → clauses.length ≤ factor * f.size := by
  rintro ⟨factor, linear⟩
  obtain ⟨clauses, isClauses, count⟩ := length_tseytin_parity (2 * factor) 0
  have atMost := linear _ 0 clauses isClauses
  have growth : factor + 1 ≤ 2 ^ factor := Nat.lt_two_pow_self
  have square : (factor + 1) * (factor + 1) ≤ 2 ^ (2 * factor) := by
    rw [Nat.two_mul, Nat.pow_add]
    exact Nat.mul_le_mul growth growth
  rw [size_parity] at atMost
  nlinarith

end Bound

end IsaLogic.Formula
