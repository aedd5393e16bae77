import Mathlib.Logic.ExistsUnique
import IsaLogic.Formula.Tseytin
import IsaLogic.Proofs.Formula.TwoLevel

/-!
# The Tseytin encoding keeps satisfiability

Encoded formulas are described by one predicate, `Encodes`: where the clauses hold,
every literal has the truth value of the formula it stands for; and every valuation
can be changed on the variables numbered meanwhile so that the clauses hold. It is
closed under encoding one list of formulas after another (`Encodes.append`) and
under defining a variable for a connective (`Encodes.define`), and the encoding
does nothing else.

Each of these variables names a formula over the terms that were there before, so the
change is determined (`Encodes.unique`): the encoding leaves no choice but that of a
valuation of the formula itself (`tseytin_defines`).

Only existence and uniqueness of the change need the numbers to be new. No hypothesis
is made on the size of a formula.
-/

namespace IsaLogic

/-- A term is no synthetic variable from a number on. -/
def Term.NumberedBelow (next : Nat) (term : Term) : Prop :=
  ∀ number, term = .free number → number < next

theorem Term.NumberedBelow.mono {low high : Nat} {term : Term} (below : term.NumberedBelow low)
    (grows : low ≤ high) : term.NumberedBelow high :=
  fun number is => Nat.lt_of_lt_of_le (below number is) grows

namespace Formula

/-- Two valuations differ only on synthetic variables numbered in a range. -/
def AgreeOutside (low high : Nat) (v w : Term → Bool) : Prop :=
  ∀ term, (∀ number, low ≤ number → number < high → term ≠ .free number) → w term = v term

theorem AgreeOutside.of_numberedBelow {low high : Nat} {v w : Term → Bool} {term : Term}
    (agree : AgreeOutside low high v w) (below : term.NumberedBelow low) : w term = v term :=
  agree term fun number atLeast _ is => Nat.lt_irrefl _ (Nat.lt_of_lt_of_le (below number is) atLeast)

/-- A variable is defined as the conjunction of some literals. -/
@[simp] theorem groupsHold_defineConj (v : Term → Bool) (var : Literal) (literals : List Literal) :
    groupsHold .conjunctive v (defineConj var literals) =
      (var.holds v == literals.all (Literal.holds v)) := by
  have opposite : literals.any (fun l => !l.holds v) = !literals.all (Literal.holds v) :=
    List.not_all_eq_any_not.symm
  simp only [defineConj, groupsHold, List.all_append, List.all_map, Function.comp_def,
    List.any_cons, List.any_nil, List.all_cons, List.all_nil, List.any_map, Literal.holds_negated,
    opposite, Bool.or_false, Bool.and_true]
  cases var.holds v
  · simp
  · simp

/-- Standing for a disjunction is the opposite of standing for the conjunction of opposites. -/
theorem defineDisj_eq_defineConj (var : Literal) (literals : List Literal) :
    defineDisj var literals = defineConj var.negated (literals.map Literal.negated) := by
  simp [defineDisj, defineConj, Function.comp_def]

/-- A variable is defined as the disjunction of some literals. -/
@[simp] theorem groupsHold_defineDisj (v : Term → Bool) (var : Literal) (literals : List Literal) :
    groupsHold .conjunctive v (defineDisj var literals) =
      (var.holds v == literals.any (Literal.holds v)) := by
  have opposite : (literals.map Literal.negated).all (Literal.holds v) =
      !literals.any (Literal.holds v) := by
    simp [List.all_map, Function.comp_def, List.not_any_eq_all_not]
  rw [defineDisj_eq_defineConj, groupsHold_defineConj, Literal.holds_negated, opposite]
  cases var.holds v <;> cases literals.any (Literal.holds v) <;> rfl

/-- Clauses have the same truth under valuations that agree on their terms. -/
theorem groupsHold_congr {form : TwoLevel} {v w : Term → Bool} {groups : List (List Literal)}
    (same : ∀ group ∈ groups, ∀ l ∈ group, v l.term = w l.term) :
    groupsHold form v groups = groupsHold form w groups := by
  rw [← holds_ofGroups, ← holds_ofGroups]
  refine holds_congr fun t occurs => ?_
  obtain ⟨group, member, l, inside, rfl⟩ := (mem_occurrences_ofGroups form).mp occurs
  exact same group member l inside

/-- Literals that stand for formulas, and clauses that define them with the synthetic
variables from `low` up to `high`. -/
structure Encodes (low : Nat) (fs : List Formula) (literals : List Literal)
    (clauses : List (List Literal)) (high : Nat) : Prop where
  grows : low ≤ high
  nonempty : ∀ clause ∈ clauses, clause ≠ []
  terms : ∀ l, l ∈ literals ∨ (∃ clause ∈ clauses, l ∈ clause) →
    (∃ f ∈ fs, l.term ∈ f.occurrences) ∨ ∃ number, low ≤ number ∧ number < high ∧
      l.term = .free number
  sound : ∀ v, groupsHold .conjunctive v clauses = true →
    literals.map (Literal.holds v) = fs.map (holds v)
  /-- Where the clauses hold, a new variable has the truth value of a formula over given terms. -/
  names : ∀ number, low ≤ number → number < high → ∃ g : Formula,
    g.MentionsOnly (· ∈ fs.flatMap occurrences) ∧
      ∀ v, groupsHold .conjunctive v clauses = true → v (.free number) = g.holds v
  complete : (∀ f ∈ fs, f.MentionsOnly (Term.NumberedBelow low)) → ∀ v, ∃ w,
    AgreeOutside low high v w ∧ groupsHold .conjunctive w clauses = true

namespace Encodes

theorem nil (next : Nat) : Encodes next [] [] [] next where
  grows := Nat.le_refl next
  nonempty := by simp
  terms := by simp
  sound := by simp
  names := by omega
  complete _ v := ⟨v, fun _ _ => rfl, rfl⟩

theorem literal (next : Nat) (literal : Literal) :
    Encodes next [literal.toFormula] [literal] [] next where
  grows := Nat.le_refl next
  nonempty := by simp
  terms := by simp
  sound := by simp
  names := by omega
  complete _ v := ⟨v, fun _ _ => rfl, rfl⟩

section

variable {low middle high : Nat} {fs gs : List Formula} {literals laterLiterals : List Literal}
  {clauses laterClauses : List (List Literal)}

/-- Under new numbers, no term of the encoding is numbered from its end on. -/
theorem numberedBelow (encodes : Encodes low fs literals clauses high)
    (new : ∀ f ∈ fs, f.MentionsOnly (Term.NumberedBelow low)) {l : Literal}
    (mentioned : l ∈ literals ∨ ∃ clause ∈ clauses, l ∈ clause) :
    l.term.NumberedBelow high := by
  rcases encodes.terms l mentioned with ⟨f, inFs, occurs⟩ | ⟨k, _, below, is⟩
  · exact (new f inFs l.term occurs).mono encodes.grows
  · rintro number isNumber
    cases is.symm.trans isNumber
    exact below

/-- Encoding one list of formulas after another. -/
theorem append (first : Encodes low fs literals clauses middle)
    (later : Encodes middle gs laterLiterals laterClauses high) :
    Encodes low (fs ++ gs) (literals ++ laterLiterals) (clauses ++ laterClauses) high where
  grows := Nat.le_trans first.grows later.grows
  nonempty clause member :=
    (List.mem_append.mp member).elim (first.nonempty clause) (later.nonempty clause)
  terms l occurs := by
    have split : (l ∈ literals ∨ ∃ clause ∈ clauses, l ∈ clause) ∨
        l ∈ laterLiterals ∨ ∃ clause ∈ laterClauses, l ∈ clause := by
      rcases occurs with inLiterals | ⟨clause, inClauses, inside⟩
      · exact (List.mem_append.mp inLiterals).imp .inl .inl
      · exact (List.mem_append.mp inClauses).imp (fun m => .inr ⟨clause, m, inside⟩)
          fun m => .inr ⟨clause, m, inside⟩
    rcases split with inFirst | inLater
    · rcases first.terms l inFirst with ⟨f, member, occurs⟩ | ⟨k, atLeast, below, is⟩
      · exact .inl ⟨f, List.mem_append_left gs member, occurs⟩
      · exact .inr ⟨k, atLeast, Nat.lt_of_lt_of_le below later.grows, is⟩
    · rcases later.terms l inLater with ⟨f, member, occurs⟩ | ⟨k, atLeast, below, is⟩
      · exact .inl ⟨f, List.mem_append_right fs member, occurs⟩
      · exact .inr ⟨k, Nat.le_trans first.grows atLeast, below, is⟩
  sound v truth := by
    simp only [groupsHold, List.all_append, Bool.and_eq_true] at truth
    rw [List.map_append, List.map_append, first.sound v truth.1, later.sound v truth.2]
  names number atLeast below := by
    simp only [groupsHold, List.all_append, Bool.and_eq_true, List.flatMap_append]
    by_cases isFirst : number < middle
    · obtain ⟨g, mentions, value⟩ := first.names number atLeast isFirst
      exact ⟨g, fun t occurs => List.mem_append_left _ (mentions t occurs),
        fun v truth => value v truth.1⟩
    · obtain ⟨g, mentions, value⟩ := later.names number (Nat.le_of_not_lt isFirst) below
      exact ⟨g, fun t occurs => List.mem_append_right _ (mentions t occurs),
        fun v truth => value v truth.2⟩
  complete new v := by
    have newFirst := fun f member => new f (List.mem_append_left gs member)
    obtain ⟨v₁, agreeFirst, holdFirst⟩ := first.complete newFirst v
    obtain ⟨w, agreeLater, holdLater⟩ := later.complete (fun f member t occurs =>
      (new f (List.mem_append_right fs member) t occurs).mono first.grows) v₁
    refine ⟨w, fun t outside => ?_, ?_⟩
    · rw [agreeLater t fun k atLeast => outside k (Nat.le_trans first.grows atLeast),
        agreeFirst t fun k atLeast below => outside k atLeast (Nat.lt_of_lt_of_le below later.grows)]
    · -- the later numbers do not touch the first clauses
      have kept : groupsHold .conjunctive w clauses = groupsHold .conjunctive v₁ clauses :=
        groupsHold_congr fun clause member l inside =>
          agreeLater.of_numberedBelow (first.numberedBelow newFirst (.inr ⟨clause, member, inside⟩))
      have both := Bool.and_eq_true_iff.mpr ⟨kept.trans holdFirst, holdLater⟩
      simpa only [groupsHold, List.all_append] using both

/-- Formulas without a variable are encoded without it if the numbers start after it. -/
theorem ne_free (encodes : Encodes (low + 1) fs literals clauses high)
    (new : ∀ f ∈ fs, f.MentionsOnly (Term.NumberedBelow low)) {l : Literal}
    (mentioned : l ∈ literals ∨ ∃ clause ∈ clauses, l ∈ clause) : l.term ≠ .free low := by
  intro isLow
  rcases encodes.terms l mentioned with ⟨f, inFs, occurs⟩ | ⟨k, atLeast, _, is⟩
  · exact Nat.lt_irrefl low (new f inFs l.term occurs low isLow)
  · cases is.symm.trans isLow
    exact Nat.lt_irrefl _ atLeast

/-- Where the clauses of a definition and of the operands hold, the variable has the truth value of
the formula. -/
theorem value_of_define (operands : Encodes (low + 1) fs literals clauses high) {g : Formula}
    {definition : List (List Literal)} {v : Term → Bool}
    (means : literals.map (Literal.holds v) = fs.map (holds v) →
      groupsHold .conjunctive v definition = (v (.free low) == g.holds v))
    (truth : groupsHold .conjunctive v (clauses ++ definition) = true) :
    v (.free low) = g.holds v := by
  simp only [groupsHold, List.all_append, Bool.and_eq_true] at truth
  have defined := means (operands.sound v truth.1)
  rw [groupsHold, truth.2] at defined
  exact eq_of_beq defined.symm

/-- Defining a variable for a formula over operands that are encoded. -/
theorem define (operands : Encodes (low + 1) fs literals clauses high) {g : Formula}
    {definition : List (List Literal)}
    (means : ∀ v, literals.map (Literal.holds v) = fs.map (holds v) →
      groupsHold .conjunctive v definition = (v (.free low) == g.holds v))
    (nonempty : ∀ clause ∈ definition, clause ≠ [])
    (mentions : ∀ clause ∈ definition, ∀ l ∈ clause,
      l.term = .free low ∨ ∃ m ∈ literals, l.term = m.term)
    (occurrences_eq : g.occurrences = fs.flatMap occurrences) :
    Encodes low [g] [{ term := .free low, positive := true }] (clauses ++ definition) high where
  grows := Nat.le_trans (Nat.le_succ low) operands.grows
  nonempty clause member :=
    (List.mem_append.mp member).elim (operands.nonempty clause) (nonempty clause)
  terms l occurs := by
    have isVar : l.term = .free low → (∃ f ∈ [g], l.term ∈ f.occurrences) ∨
        ∃ number, low ≤ number ∧ number < high ∧ l.term = .free number :=
      fun is => .inr ⟨low, Nat.le_refl low, operands.grows, is⟩
    have ofOperands : ∀ m : Literal, m.term = l.term →
        (m ∈ literals ∨ ∃ clause ∈ clauses, m ∈ clause) →
        (∃ f ∈ [g], l.term ∈ f.occurrences) ∨
          ∃ number, low ≤ number ∧ number < high ∧ l.term = .free number := by
      intro m sameTerm inOperands
      rcases operands.terms m inOperands with ⟨f, member, occurs⟩ | ⟨k, atLeast, below, is⟩
      · refine .inl ⟨g, List.mem_singleton.mpr rfl, ?_⟩
        rw [occurrences_eq, ← sameTerm]
        exact List.mem_flatMap.mpr ⟨f, member, occurs⟩
      · exact .inr ⟨k, Nat.le_of_succ_le atLeast, below, sameTerm ▸ is⟩
    rcases occurs with isLiteral | ⟨clause, member, inside⟩
    · rw [List.mem_singleton] at isLiteral
      exact isVar (isLiteral ▸ rfl)
    · rcases List.mem_append.mp member with inClauses | inDefinition
      · exact ofOperands l rfl (.inr ⟨clause, inClauses, inside⟩)
      · rcases mentions clause inDefinition l inside with is | ⟨m, inLiterals, sameTerm⟩
        · exact isVar is
        · exact ofOperands m sameTerm.symm (.inl inLiterals)
  sound v truth := by
    simpa [Literal.holds] using operands.value_of_define (means v) truth
  names number atLeast below := by
    rw [List.flatMap_singleton, occurrences_eq]
    by_cases isVar : number = low
    · subst isVar
      refine ⟨g, fun t occurs => ?_, fun v truth => operands.value_of_define (means v) truth⟩
      exact occurrences_eq ▸ occurs
    · obtain ⟨h, mentions, value⟩ := operands.names number (by omega) below
      refine ⟨h, mentions, fun v truth => value v ?_⟩
      simp only [groupsHold, List.all_append, Bool.and_eq_true] at truth
      exact truth.1
  complete new v := by
    have newOperands : ∀ f ∈ fs, f.MentionsOnly (Term.NumberedBelow low) := fun f member t occurs =>
      new g (List.mem_singleton.mpr rfl) t
        (occurrences_eq ▸ List.mem_flatMap.mpr ⟨f, member, occurs⟩)
    obtain ⟨v₁, agree, truth⟩ := operands.complete (fun f member t occurs =>
      (newOperands f member t occurs).mono (Nat.le_succ low)) v
    let w : Term → Bool := fun t => if t = .free low then g.holds v₁ else v₁ t
    have unchanged : ∀ t, t ≠ .free low → w t = v₁ t := fun t other => if_neg other
    refine ⟨w, fun t outside => ?_, ?_⟩
    · rw [unchanged t (outside low (Nat.le_refl low) operands.grows)]
      exact agree t fun k atLeast => outside k (Nat.le_of_succ_le atLeast)
    · have kept : groupsHold .conjunctive w clauses = true := by
        rw [← truth]
        refine groupsHold_congr fun clause member l inside => unchanged l.term ?_
        exact operands.ne_free newOperands (.inr ⟨clause, member, inside⟩)
      have sameTruth : g.holds w = g.holds v₁ := by
        refine holds_congr fun t occurs => unchanged t fun is => ?_
        exact Nat.lt_irrefl low (new g (List.mem_singleton.mpr rfl) t occurs low is)
      have defined : groupsHold .conjunctive w definition = true := by
        rw [means w (operands.sound w kept), sameTruth, beq_iff_eq]
        exact if_pos rfl
      have both := Bool.and_eq_true_iff.mpr ⟨kept, defined⟩
      simpa only [groupsHold, List.all_append] using both

/-- Under new numbers, the clauses determine the variables that they introduce. -/
theorem unique (encodes : Encodes low fs literals clauses high)
    (new : ∀ f ∈ fs, f.MentionsOnly (Term.NumberedBelow low)) {v w other : Term → Bool}
    (agree : AgreeOutside low high v w) (agreeOther : AgreeOutside low high v other)
    (truth : groupsHold .conjunctive w clauses = true)
    (truthOther : groupsHold .conjunctive other clauses = true) : other = w := by
  funext t
  by_cases isNew : ∃ number, low ≤ number ∧ number < high ∧ t = .free number
  · obtain ⟨number, atLeast, below, rfl⟩ := isNew
    obtain ⟨g, mentions, value⟩ := encodes.names number atLeast below
    rw [value w truth, value other truthOther]
    -- what the variable names is over given terms, and these were not changed
    refine holds_congr fun s occurs => ?_
    obtain ⟨f, inFs, occursInF⟩ := List.mem_flatMap.mp (mentions s occurs)
    have given := new f inFs s occursInF
    rw [agree.of_numberedBelow given, agreeOther.of_numberedBelow given]
  · have outside : ∀ number, low ≤ number → number < high → t ≠ .free number := by
      intro number atLeast below is
      exact isNew ⟨number, atLeast, below, is⟩
    rw [agree t outside, agreeOther t outside]

end

end Encodes

section Encode

/-- What `encode` gives is described by `Encodes`. -/
def EncodesOne (next : Nat) (f : Formula) (encoded : Encoded) : Prop :=
  Encodes next [f] [encoded.literal] encoded.clauses encoded.next

theorem encodes_encodeList {fs : List Formula}
    (operands : ∀ f ∈ fs, ∀ next, EncodesOne next f (encode f next)) (next : Nat) :
    Encodes next fs (encodeList fs next).1 (encodeList fs next).2.1 (encodeList fs next).2.2 := by
  induction fs generalizing next with
  | nil => exact Encodes.nil next
  | cons f fs ih =>
    have first := operands f (List.mem_cons_self ..) next
    have later := ih (fun g member => operands g (List.mem_cons_of_mem _ member)) (encode f next).next
    exact first.append later

theorem defineConj_mentions {var : Literal} {literals : List Literal} :
    ∀ clause ∈ defineConj var literals, clause ≠ [] ∧
      ∀ l ∈ clause, l.term = var.term ∨ ∃ m ∈ literals, l.term = m.term := by
  intro clause member
  rcases List.mem_append.mp member with each | last
  · obtain ⟨m, inLiterals, rfl⟩ := List.mem_map.mp each
    simp only [ne_eq, reduceCtorEq, not_false_eq_true, List.mem_cons, List.not_mem_nil, or_false,
      forall_eq_or_imp, Literal.negated_term, true_or, forall_eq, true_and]
    exact .inr ⟨m, inLiterals, rfl⟩
  · rw [List.mem_singleton] at last
    subst last
    refine ⟨List.cons_ne_nil _ _, fun l inside => ?_⟩
    rcases List.mem_cons.mp inside with rfl | negated
    · exact .inl rfl
    · obtain ⟨m, inLiterals, rfl⟩ := List.mem_map.mp negated
      exact .inr ⟨m, inLiterals, rfl⟩

theorem defineDisj_mentions {var : Literal} {literals : List Literal} :
    ∀ clause ∈ defineDisj var literals, clause ≠ [] ∧
      ∀ l ∈ clause, l.term = var.term ∨ ∃ m ∈ literals, l.term = m.term := by
  intro clause member
  rw [defineDisj_eq_defineConj] at member
  obtain ⟨nonempty, mentions⟩ := defineConj_mentions clause member
  refine ⟨nonempty, fun l inside => (mentions l inside).imp_right ?_⟩
  rintro ⟨negated, inNegated, sameTerm⟩
  obtain ⟨m, inLiterals, rfl⟩ := List.mem_map.mp inNegated
  exact ⟨m, inLiterals, sameTerm⟩

/-- The encoding of a formula in negation normal form. -/
theorem encodesOne_encode {f : Formula} (shape : f.IsNnf) (next : Nat) :
    EncodesOne next f (encode f next) := by
  induction f using Formula.induct generalizing next with
  | constant value =>
    cases value
    · exact (Encodes.nil (next + 1)).define (fun v _ => by simp [groupsHold, Literal.holds,
        Literal.negated]) (by simp) (by simp) rfl
    · exact (Encodes.nil (next + 1)).define (fun v _ => by simp [groupsHold, Literal.holds])
        (by simp) (by simp) rfl
  | atom term => exact Encodes.literal next { term, positive := true }
  | neg f =>
    cases shape
    exact Encodes.literal next { term := _, positive := false }
  | conj fs ih =>
    have operands := encodes_encodeList
      (fun f member => ih f member (shape.conj_operands f member)) (next + 1)
    refine operands.define (fun v same => ?_) (fun clause member => (defineConj_mentions clause member).1)
      (fun clause member => (defineConj_mentions clause member).2) (occurrences_conj fs)
    have sameTruth := congrArg (·.all id) same
    simp only [List.all_map, Function.id_comp] at sameTruth
    rw [groupsHold_defineConj, sameTruth, holds_conj]
    simp [Literal.holds]
  | disj fs ih =>
    have operands := encodes_encodeList
      (fun f member => ih f member (shape.disj_operands f member)) (next + 1)
    refine operands.define (fun v same => ?_) (fun clause member => (defineDisj_mentions clause member).1)
      (fun clause member => (defineDisj_mentions clause member).2) (occurrences_disj fs)
    have sameTruth := congrArg (·.any id) same
    simp only [List.any_map, Function.id_comp] at sameTruth
    rw [groupsHold_defineDisj, sameTruth, holds_disj]
    simp [Literal.holds]
  | exactlyOne fs | noneOf fs | implies a b => cases shape

end Encode

section Tseytin

variable {f : Formula} {next : Nat}

/-- The Tseytin form is a flat conjunctive form. -/
theorem isCnf_tseytin (f : Formula) (next : Nat) : (f.tseytin next).1.isCnf = true := by
  unfold tseytin
  dsimp only
  split
  · rename_i simple
    cases prepared : f.nnf.reduce.flatten with
    | constant value => rfl
    | atom term => rfl
    | neg g =>
      rw [prepared] at simple
      rw [Bool.or_eq_true] at simple
      rcases simple with constant | literal
      · cases constant
      · exact Bool.or_eq_true_iff.mpr (.inl literal)
    | _ => simp [prepared, isConstant, isLiteral, literal?] at simple
  · have encodes := encodesOne_encode (isNnf_flatten (isNnf_reduce (isNnf_nnf f))) next
    refine isFlat_ofGroups .conjunctive fun clause member => ?_
    rcases List.mem_append.mp member with defining | asserting
    · exact encodes.nonempty clause defining
    · rw [List.mem_singleton.mp asserting]
      exact List.cons_ne_nil _ _

/-- Clauses with a literal asserted beside them. -/
theorem holds_ofClauses_asserted (v : Term → Bool) (clauses : List (List Literal))
    (literal : Literal) :
    (ofClauses (clauses ++ [[literal]])).holds v =
      (groupsHold .conjunctive v clauses && literal.holds v) := by
  change (ofGroups .conjunctive _).holds v = _
  simp [groupsHold]

/-- Where the Tseytin form holds, so does the formula. -/
theorem holds_of_tseytin {v : Term → Bool} (truth : (f.tseytin next).1.holds v = true) :
    f.holds v = true := by
  have same : f.nnf.reduce.flatten.holds v = f.holds v := by
    rw [holds_flatten, holds_reduce, holds_nnf]
  unfold tseytin at truth
  dsimp only at truth
  split at truth
  · rw [← same, truth]
  · have encodes := encodesOne_encode (isNnf_flatten (isNnf_reduce (isNnf_nnf f))) next
    rw [holds_ofClauses_asserted, Bool.and_eq_true] at truth
    have stands := encodes.sound v truth.1
    simp only [List.map_cons, List.map_nil, List.cons.injEq, and_true] at stands
    rw [← same, ← stands, truth.2]

/-- With new numbers, a valuation of the formula extends to one of its Tseytin form. -/
theorem tseytin_extends (new : f.MentionsOnly (Term.NumberedBelow next)) {v : Term → Bool}
    (truth : f.holds v = true) :
    ∃ w, AgreeOutside next (f.tseytin next).2 v w ∧ (f.tseytin next).1.holds w = true := by
  have same : ∀ v, f.nnf.reduce.flatten.holds v = f.holds v := fun v => by
    rw [holds_flatten, holds_reduce, holds_nnf]
  have newPrepared := mentionsOnly_flatten (mentionsOnly_reduce (mentionsOnly_nnf new))
  unfold tseytin
  dsimp only
  split
  · exact ⟨v, fun _ _ => rfl, (same v).trans truth⟩
  · have encodes := encodesOne_encode (isNnf_flatten (isNnf_reduce (isNnf_nnf f))) next
    obtain ⟨w, agree, clausesHold⟩ := encodes.complete (by simpa using newPrepared) v
    refine ⟨w, agree, ?_⟩
    have stands := encodes.sound w clausesHold
    simp only [List.map_cons, List.map_nil, List.cons.injEq, and_true] at stands
    have stillTrue : f.nnf.reduce.flatten.holds w = true := by
      rw [← truth, ← same v]
      exact holds_congr fun t occurs => agree.of_numberedBelow (newPrepared t occurs)
    rw [holds_ofClauses_asserted, Bool.and_eq_true]
    exact ⟨clausesHold, stands.trans stillTrue⟩

/-- With new numbers, a valuation extends to the Tseytin form in one way at most. -/
theorem tseytin_unique (new : f.MentionsOnly (Term.NumberedBelow next)) {v w other : Term → Bool}
    (agree : AgreeOutside next (f.tseytin next).2 v w)
    (agreeOther : AgreeOutside next (f.tseytin next).2 v other)
    (truth : (f.tseytin next).1.holds w = true)
    (truthOther : (f.tseytin next).1.holds other = true) : other = w := by
  have newPrepared := mentionsOnly_flatten (mentionsOnly_reduce (mentionsOnly_nnf new))
  unfold tseytin at agree agreeOther truth truthOther
  dsimp only at agree agreeOther truth truthOther
  split at truth
  · rename_i simple
    simp only [if_pos simple] at agree agreeOther
    funext t
    rw [agree t (by omega), agreeOther t (by omega)]
  · rename_i compound
    simp only [if_neg compound] at agree agreeOther truthOther
    have encodes := encodesOne_encode (isNnf_flatten (isNnf_reduce (isNnf_nnf f))) next
    rw [holds_ofClauses_asserted, Bool.and_eq_true] at truth truthOther
    exact encodes.unique (by simpa using newPrepared) agree agreeOther truth.1 truthOther.1

/-- With new numbers, the Tseytin form is satisfiable in the same cases as the formula. -/
theorem satisfiable_tseytin_iff (new : f.MentionsOnly (Term.NumberedBelow next)) :
    (f.tseytin next).1.Satisfiable ↔ f.Satisfiable := by
  constructor
  · rintro ⟨v, truth⟩
    exact ⟨v, holds_of_tseytin truth⟩
  · rintro ⟨v, truth⟩
    obtain ⟨w, _, extended⟩ := tseytin_extends new truth
    exact ⟨w, extended⟩

theorem le_tseytin (f : Formula) (next : Nat) : next ≤ (f.tseytin next).2 := by
  unfold tseytin
  dsimp only
  split
  · exact Nat.le_refl next
  · exact (encodesOne_encode (isNnf_flatten (isNnf_reduce (isNnf_nnf f))) next).grows

/-- The Tseytin form uses only numbers that were given out. -/
theorem mentionsOnly_tseytin (new : f.MentionsOnly (Term.NumberedBelow next)) :
    (f.tseytin next).1.MentionsOnly (Term.NumberedBelow (f.tseytin next).2) := by
  have newPrepared := mentionsOnly_flatten (mentionsOnly_reduce (mentionsOnly_nnf new))
  unfold tseytin
  dsimp only
  split
  · exact newPrepared
  · have encodes := encodesOne_encode (isNnf_flatten (isNnf_reduce (isNnf_nnf f))) next
    intro t occurs
    obtain ⟨clause, member, l, inside, rfl⟩ := (mem_occurrences_ofGroups .conjunctive).mp occurs
    refine encodes.numberedBelow (by simpa using newPrepared) ?_
    rcases List.mem_append.mp member with defining | asserting
    · exact .inr ⟨clause, defining, inside⟩
    · rw [List.mem_singleton.mp asserting] at inside
      exact .inl inside

/-- With new numbers, the Tseytin form is a flat conjunctive form that defines the formula: where it
holds, so does the formula, and every valuation of the formula extends to the Tseytin form, by
changing new variables only and in just one way. -/
theorem tseytin_defines (new : f.MentionsOnly (Term.NumberedBelow next)) :
    (f.tseytin next).1.isCnf = true ∧
      (∀ v, (f.tseytin next).1.holds v = true → f.holds v = true) ∧
      ∀ v, f.holds v = true →
        ∃! w, AgreeOutside next (f.tseytin next).2 v w ∧ (f.tseytin next).1.holds w = true := by
  refine ⟨isCnf_tseytin f next, fun v => holds_of_tseytin, fun v truth => ?_⟩
  obtain ⟨w, agree, extended⟩ := tseytin_extends new truth
  refine ⟨w, ⟨agree, extended⟩, ?_⟩
  rintro other ⟨agreeOther, extendedOther⟩
  exact tseytin_unique new agree agreeOther extended extendedOther

/-- A formula that has a synthetic variable already, whose number the counter has just passed. -/
theorem tseytin_defines_numbered :
    let f : Formula := .exactlyOne [.atom (.free 6), .atom (.xlen .rv32), .neg (.atom (.free 2))]
    let v : Term → Bool := fun term => term == .free 2 || term == .free 6
    f.MentionsOnly (Term.NumberedBelow 7) ∧ f.holds v = true ∧ (f.tseytin 7).1.isCnf = true ∧
      ∃! w, AgreeOutside 7 (f.tseytin 7).2 v w ∧ (f.tseytin 7).1.holds w = true := by
  intro f v
  have new : f.MentionsOnly (Term.NumberedBelow 7) := by simp [f, Term.NumberedBelow]
  have truth : f.holds v = true := by decide
  obtain ⟨flat, -, extended⟩ := tseytin_defines new
  exact ⟨new, truth, flat, extended v truth⟩

end Tseytin

end Formula

end IsaLogic
