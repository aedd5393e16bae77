import IsaLogic.Proofs.Condition.Expansion
import IsaLogic.Proofs.Cover.Merging
import IsaLogic.Proofs.Engine.Minimization
import IsaLogic.Proofs.Formula.ReadOnce

/-!
# Implied extensions

What a condition requires or rules out is read off the clauses of a small form of its
formula. The clauses mean the formula, and each literal that follows from a satisfiable
formula is a clause by itself (`ClauseForm`); every way to a small form gives such
clauses (`Finds.clauseForm`), for its cubes are prime or it reads each term once.

Hence an extension that is listed holds, or fails, wherever its condition and the
formula do, and the extensions listed without a condition are exactly those that hold,
or fail, wherever the formula does (`implied_extensions_exact`).
-/

namespace IsaLogic

namespace Formula

/-- The clauses that a form is read as: its own if it is flat, else those of its equivalent. -/
def readClauses (f : Formula) : Except QueryError (List (List Literal)) :=
  match f.clauses? with
  | some clauses => .ok clauses
  | none => f.equivalentGroups .conjunctive none

section ReadClauses

variable {f g : Formula} {clauses : List (List Literal)}

theorem exists_readClauses (f : Formula) : ∃ clauses, f.readClauses = .ok clauses := by
  unfold readClauses
  split
  · exact ⟨_, rfl⟩
  · cases answer : f.equivalentGroups .conjunctive none with
    | ok clauses => exact ⟨clauses, rfl⟩
    | error failure =>
      obtain ⟨_, _, limited, _⟩ := equivalentGroups_error answer
      cases limited

theorem Spells.of_clauses? (flat : f.clauses? = some clauses) : Spells .conjunctive f clauses := by
  unfold clauses? at flat
  split at flat
  · rename_i isCnf
    cases flat
    exact ⟨fun valuation => groupsHold_groups .conjunctive valuation isCnf,
      fun group member literal inside => term_mem_of_groups .conjunctive isCnf member inside⟩
  · cases flat

/-- The clauses that a form is read as mean it. -/
theorem spells_readClauses (answer : f.readClauses = .ok clauses) :
    Spells .conjunctive f clauses := by
  unfold readClauses at answer
  split at answer
  · rename_i flat
    cases answer
    exact .of_clauses? flat
  · exact (equivalentGroups_ok answer).1

/-- Groups that spell a formula spell an equivalent one that has its terms. -/
theorem Spells.of_equivalent {form : TwoLevel} (spells : Spells form g clauses)
    (equivalent : g.Equivalent f) (mentions : g.MentionsOnly (· ∈ f.occurrences)) :
    Spells form f clauses where
  truth valuation := (spells.truth valuation).trans (equivalent valuation)
  terms group member literal inside := mentions _ (spells.terms group member literal inside)

/-- Clauses that are not empty are read back from their conjunctive form. -/
theorem readClauses_ofClauses (nonempty : [] ∉ clauses) :
    (ofClauses clauses).readClauses = .ok clauses := by
  rw [readClauses, clauses?_ofClauses fun empty => absurd empty nonempty]

end ReadClauses

/-- Clauses that mean a formula and, where it is satisfiable, have the clause of every literal
that follows from it. -/
structure ClauseForm (f : Formula) (clauses : List (List Literal)) : Prop where
  spells : Spells .conjunctive f clauses
  units : f.Satisfiable → ∀ literal : Literal, f.Entails literal.toFormula → [literal] ∈ clauses

namespace ClauseForm

variable {f : Formula} {clauses : List (List Literal)}

theorem not_mem_nil {groups : List (List Literal)}
    (satisfiable : ∃ valuation, groupsHold .conjunctive valuation groups = true) :
    [] ∉ groups := by
  intro member
  obtain ⟨valuation, truth⟩ := satisfiable
  cases List.all_eq_true.mp truth [] member

/-- A cover by prime cubes has the clauses of such a form. -/
theorem ofCover {cubes : List Cube} (describes : Describes .conjunctive f cubes)
    (primes : ∀ cube ∈ cubes, Cube.Prime f.terms.length (Cube.Union cubes) cube)
    (answer : (coverFormula f.terms .conjunctive cubes).readClauses = .ok clauses) :
    ClauseForm f clauses where
  spells := by
    refine (spells_readClauses answer).of_equivalent describes.equivalent fun term occurs => ?_
    obtain ⟨clause, isClause, literal, inside, rfl⟩ :=
      (mem_occurrences_ofGroups .conjunctive).mp occurs
    obtain ⟨cube, _, rfl⟩ := List.mem_map.mp isClause
    obtain ⟨⟨entry, term⟩, isEntry, found⟩ := List.mem_filterMap.mp inside
    obtain ⟨value, _, rfl⟩ := Option.map_eq_some_iff.mp found
    exact mem_terms.mp (List.of_mem_zip isEntry).2
  units satisfiable literal entailed := by
    have nonempty : [] ∉ cubes.map (Cube.toLiterals f.terms true) := by
      obtain ⟨valuation, truth⟩ := satisfiable
      refine not_mem_nil ⟨valuation, ?_⟩
      rw [← holds_ofGroups .conjunctive]
      exact (describes.equivalent valuation).trans truth
    cases (readClauses_ofClauses nonempty).symm.trans answer
    exact describes.mem_of_entailed primes satisfiable entailed

/-- Flattening a two-level formula that reads each term once gives such a form. -/
theorem ofFlatten (nested : f.isNested .conjunctive = true)
    (once : f.terms.length = f.occurrences.length)
    (answer : f.flatten.readClauses = .ok clauses) : ClauseForm f clauses := by
  have spells : Spells .conjunctive f clauses := by
    refine (spells_readClauses answer).of_equivalent (fun valuation => holds_flatten valuation f) ?_
    intro term occurs
    rwa [occurrences_flatten] at occurs
  refine ⟨spells, fun satisfiable literal entailed => ?_⟩
  have distinct : (f.flatten.leaves.map Literal.term).Nodup := by
    rw [map_term_leaves, occurrences_flatten]
    exact nodup_of_length_ascending once
  have groups : GroupsOver (· ∈ f.flatten.leaves) clauses ∧ ∀ clause ∈ clauses, clause.Nodup := by
    unfold readClauses at answer
    split at answer
    · rename_i flat
      cases answer
      refine ⟨fun clause member literal inside => ?_, fun clause member => ?_⟩
      · exact (sublist_leaves_of_clauses? flat member).mem inside
      · have terms := (sublist_leaves_of_clauses? flat member).map Literal.term
        exact List.Pairwise.of_map Literal.term (fun _ _ => ne_of_apply_ne Literal.term)
          (distinct.sublist terms)
    · exact leaves_of_equivalentGroups (isNnf_flatten (isNnf_of_isNested nested)) answer
  obtain ⟨valuation, truth⟩ := satisfiable
  refine mem_of_entailed_once distinct groups.1 groups.2 ⟨valuation, ?_⟩ fun other truth => ?_
  · rw [spells.truth, truth]
  · rw [spells.truth] at truth
    rw [← holds_toFormula]
    exact entailed other truth

end ClauseForm

end Formula

namespace Engine

variable {engine : Engine} {f m : Formula} {asked : List Formula} {memory : Memory}

/-- Whichever way a small form is found, its clauses show what follows from the formula. -/
theorem Finds.clauseForm (inProcess : engine.MinimizesInProcess)
    (finds : engine.Finds .conjunctive f m) {clauses : List (List Literal)}
    (answer : m.readClauses = .ok clauses) : f.ClauseForm clauses := by
  cases finds with
  | exactly =>
    refine .ofCover (describes_primeCover .conjunctive f) (fun _ => ?_) answer
    exact prime_of_mem_primeCover fun _ => TruthTable.lt_of_mem_points
  | flattened nested once => exact .ofFlatten nested once answer
  | byCover found =>
    rcases engine.limits.inputCover_cases .conjunctive f with ⟨cubes, built, given⟩ | ⟨_, failed, _⟩
    · cases (minimizeByCover_eq inProcess built given).symm.trans found
      obtain ⟨_, same⟩ := Cube.minimizeCover_spec given.describes.width
      refine .ofCover given.describes_minimizeCover (fun cube member => ?_) answer
      exact (Cube.prime_of_mem_minimizeCover given.describes.width member).congr same
    · unfold minimizeByCover at found
      rw [failed] at found
      cases found

/-- What the cache has for a formula, if anything, is the small form that the engine finds. -/
def Recalls (engine : Engine) (form : TwoLevel) (f : Formula) (memory : Memory) : Prop :=
  ∀ m, lookup? (engine.fingerprint f, form) memory.cache.minimized = some m →
    engine.minimizeByCover form f = .ok m

/-- The small forms in the cache are those that the engine finds for formulas asked about. -/
def Stores (engine : Engine) (asked : List Formula) (memory : Memory) : Prop :=
  ∀ key form m, lookup? (key, form) memory.cache.minimized = some m →
    ∃ f ∈ asked, engine.fingerprint f = key ∧ engine.minimizeByCover form f = .ok m

theorem stores_initial (engine : Engine) (asked : List Formula) : engine.Stores asked {} :=
  fun _ _ _ stored => nomatch stored

theorem Stores.recalls (stores : engine.Stores asked memory)
    (distinct : CollisionFree engine.fingerprint (f :: asked)) (form : TwoLevel) :
    engine.Recalls form f memory := by
  intro m stored
  obtain ⟨g, isAsked, sameFingerprint, found⟩ := stores _ _ _ stored
  cases distinct g (List.mem_cons_of_mem _ isAsked) f (List.mem_cons_self ..) sameFingerprint
  exact found

theorem Stores.asking (stores : engine.Stores asked memory) (f : Formula) :
    engine.Stores (f :: asked) memory := by
  intro key form m stored
  obtain ⟨g, isAsked, found⟩ := stores key form m stored
  exact ⟨g, List.mem_cons_of_mem _ isAsked, found⟩

/-- Minimizing finds a small form in one of the ways, and stores no other. -/
theorem ends_minimize_recalls (inProcess : engine.MinimizesInProcess) {form : TwoLevel}
    (recalls : engine.Recalls form f memory) :
    (engine.minimize form f).Ends memory
      (fun m next => engine.Finds form f m ∧
        ∀ asked, engine.Stores asked memory → engine.Stores (f :: asked) next)
      fun failure _ => engine.limits.TooLarge f failure := by
  refine ends_minimize_finds (fun m finds => ⟨finds, fun _ stores => stores.asking f⟩)
    (fun m stored => ⟨.byCover (recalls m stored), fun _ stores => stores.asking f⟩)
    (fun _ m found => ⟨.byCover found, fun asked stores key keyForm other stored => ?_⟩)
    fun failure failed => tooLarge_of_minimizeByCover inProcess failed
  rw [lookup?_cons] at stored
  split at stored
  · rename_i same
    cases stored
    cases same
    exact ⟨f, List.mem_cons_self .., rfl, found⟩
  · exact stores.asking f key keyForm other stored

end Engine

namespace Condition

section Forced

variable {positive : Bool} {clause : List Literal} {entries : List ConditionalExtension}
  {entry : ConditionalExtension}

/-- When the literal at a place of a clause is forced: none of the others holds. -/
def residual (clause : List Literal) (place : Nat) : Formula :=
  Formula.allOf ((clause.eraseIdx place).map fun other => other.negated.toFormula)

/-- A clause forces each of its extension literals under the negation of the others. -/
theorem mem_forcedBy (forced : forcedBy positive clause = .ok entries) :
    entry ∈ entries ↔ ∃ place,
      clause[place]? = some { term := .extension entry.extension, positive } ∧
        ofFormula (residual clause place) = .ok entry.condition := by
  unfold forcedBy at forced
  rw [mem_of_filterMapM forced]
  constructor
  · rintro ⟨⟨⟨term, sign⟩, place⟩, isPlace, found⟩
    rw [List.mem_zipIdx_iff_getElem?] at isPlace
    cases term with
    | extension extension =>
      dsimp only at found
      split at found
      · rename_i isSign
        obtain ⟨condition, isResidual, isEntry⟩ := exists_ok_of_bind found
        cases isEntry
        exact ⟨place, isSign ▸ isPlace, isResidual⟩
      · cases found
    | _ => cases found
  · rintro ⟨place, isPlace, isResidual⟩
    refine ⟨⟨_, place⟩, List.mem_zipIdx_iff_getElem?.mpr isPlace, ?_⟩
    dsimp only
    rw [if_pos rfl]
    change (ofFormula (residual clause place) >>= _) = _
    rw [isResidual]
    rfl

/-- Where a clause holds and the other literals fail, the literal holds. -/
theorem holds_of_residual {valuation : Term → Bool} {place : Nat} {literal : Literal}
    (isPlace : clause[place]? = some literal)
    (truth : clause.any (Literal.holds valuation) = true)
    (others : (residual clause place).holds valuation = true) : literal.holds valuation = true := by
  obtain ⟨holding, member, holds⟩ := List.any_eq_true.mp truth
  obtain ⟨other, isOther⟩ := List.mem_iff_getElem?.mp member
  by_cases same : other = place
  · subst same
    cases isOther.symm.trans isPlace
    exact holds
  · have isLeft : holding ∈ clause.eraseIdx place :=
      List.mem_eraseIdx_iff_getElem?.mpr ⟨other, same, isOther⟩
    rw [residual, Formula.holds_allOf, List.all_map, List.all_eq_true] at others
    have fails := others holding isLeft
    rw [Function.comp_apply, Formula.holds_toFormula, Literal.holds_negated, holds] at fails
    cases fails

/-- Only a constant is written as one. -/
theorem eq_constant_of_toClause {f : Formula} {value : Bool}
    (written : f.toClause = .ok (.bool value)) : f = .constant value := by
  cases f with
  | constant other => cases written; rfl
  | atom term =>
    cases term with
    | extension extension =>
      simp only [Formula.toClause, Term.toClause] at written
      split at written <;> cases written
    | _ => cases written
  | neg f | conj fs | disj fs | exactlyOne fs | noneOf fs =>
    obtain ⟨_, _, whole⟩ := exists_ok_of_bind written
    cases whole
  | implies a b =>
    obtain ⟨_, _, rest⟩ := exists_ok_of_bind written
    obtain ⟨_, _, whole⟩ := exists_ok_of_bind rest
    cases whole

theorem exists_forcedBy (positive : Bool)
    (ground : ∀ literal ∈ clause, literal.term.isFree = false) :
    ∃ entries, forcedBy positive clause = .ok entries := by
  refine exists_filterMapM fun ⟨⟨term, sign⟩, place⟩ isPlace => ?_
  have residualGround : (residual clause place).IsGround := by
    refine (Formula.mentionsOnly_allOf _).mpr (List.forall_mem_map.mpr fun other member => ?_)
    intro term occurs
    rw [Formula.occurrences_toFormula, List.mem_singleton] at occurs
    exact occurs ▸ ground other (List.mem_of_mem_eraseIdx member)
  obtain ⟨written, isWritten⟩ := Formula.exists_toClause residualGround
  have built : ofFormula (residual clause place) =
      .ok { clause := written, formula := residual clause place } := by
    rw [ofFormula, isWritten]
    rfl
  cases term with
  | extension extension =>
    dsimp only
    split
    · change ∃ result, (ofFormula (residual clause place) >>= _) = .ok result
      rw [built]
      exact ⟨_, rfl⟩
    · exact ⟨_, rfl⟩
  | _ => exact ⟨_, rfl⟩

end Forced

variable {engine : Engine} {condition : Condition} {memory : Memory}

theorem smallClauses_eq (engine : Engine) (condition : Condition) :
    condition.smallClauses engine =
      engine.minimize .conjunctive condition.formula >>= fun m => liftM m.readClauses := by
  unfold smallClauses
  refine congrArg _ (funext fun m => ?_)
  unfold Formula.readClauses
  cases m.clauses? <;> rfl

/-- The small clauses of a condition show what follows from it. -/
theorem ends_smallClauses (inProcess : engine.MinimizesInProcess)
    (recalls : engine.Recalls .conjunctive condition.formula memory) :
    (condition.smallClauses engine).Ends memory
      (fun clauses next => condition.formula.ClauseForm clauses ∧
        ∀ asked, engine.Stores asked memory → engine.Stores (condition.formula :: asked) next)
      fun failure _ => engine.limits.TooLarge condition.formula failure := by
  rw [smallClauses_eq]
  refine (Engine.ends_minimize_recalls inProcess recalls).bind fun m next ⟨finds, stores⟩ => ?_
  obtain ⟨clauses, answer⟩ := m.exists_readClauses
  rw [answer]
  exact ⟨finds.clauseForm inProcess answer, stores⟩

section Entries

variable {positive : Bool} {clauses : List (List Literal)}
  {found : List (List ConditionalExtension)} {entry : ConditionalExtension}

/-- An entry comes from a clause that forces it. -/
theorem exists_clause_of_mem (forced : clauses.mapM (forcedBy positive) = .ok found)
    (member : entry ∈ found.flatten) :
    ∃ clause ∈ clauses, ∃ place,
      clause[place]? = some { term := .extension entry.extension, positive } ∧
        ofFormula (residual clause place) = .ok entry.condition := by
  obtain ⟨entries, isFound, isEntry⟩ := List.mem_flatten.mp member
  obtain ⟨clause, isClause, isForced⟩ := (mem_of_mapM forced).mp isFound
  exact ⟨clause, isClause, (mem_forcedBy isForced).mp isEntry⟩

/-- A clause of one extension forces it without a condition. -/
theorem exists_entry_of_unit (forced : clauses.mapM (forcedBy positive) = .ok found)
    {extension : ExtensionTerm} (unit : [{ term := .extension extension, positive }] ∈ clauses) :
    ∃ entry ∈ found.flatten, entry.extension = extension ∧ entry.condition.clause = .bool true := by
  have isForced : forcedBy positive [{ term := .extension extension, positive }] =
      .ok [{ extension, condition := constant true }] := by
    unfold forcedBy
    rw [List.zipIdx_singleton, List.filterMapM_cons, List.filterMapM_nil]
    dsimp only
    rw [if_pos rfl]
    rfl
  have isFound := (mem_of_mapM forced).mpr ⟨_, unit, isForced⟩
  exact ⟨_, List.mem_flatten.mpr ⟨_, isFound, List.mem_singleton.mpr rfl⟩, rfl, rfl⟩

/-- Where the formula and the condition of an entry hold, so does what the entry says. -/
theorem value_of_entry (spells : Formula.Spells .conjunctive condition.formula clauses)
    (forced : clauses.mapM (forcedBy positive) = .ok found) (member : entry ∈ found.flatten)
    {valuation : Term → Bool} (truth : condition.formula.holds valuation = true)
    (applies : entry.condition.formula.holds valuation = true) :
    valuation (.extension entry.extension) = positive := by
  obtain ⟨clause, isClause, place, isPlace, isResidual⟩ := exists_clause_of_mem forced member
  rw [← spells.truth] at truth
  rw [(ofFormula_ok isResidual).1] at applies
  have holds := holds_of_residual isPlace (List.all_eq_true.mp truth clause isClause) applies
  simpa [Literal.holds] using holds

end Entries

/-- In process, what a condition is said to require or rule out is exact. Where its formula and
the condition of an entry hold, the extension of the entry holds, or fails; and if the formula
is satisfiable, the extensions without a condition are those that hold, or fail, wherever the
formula does. The question fails only if the formula is too large or has a synthetic variable. -/
theorem implied_extensions_exact (inProcess : engine.MinimizesInProcess) (positive : Bool)
    (condition : Condition) (recalls : engine.Recalls .conjunctive condition.formula memory) :
    (condition.impliedExtensions engine positive).Ends memory
      (fun entries next =>
        (∀ entry ∈ entries, ∀ valuation : Term → Bool,
          condition.formula.holds valuation = true →
          entry.condition.formula.holds valuation = true →
            valuation (.extension entry.extension) = positive) ∧
        (condition.formula.Satisfiable → ∀ extension : ExtensionTerm,
          (∃ entry ∈ entries, entry.extension = extension ∧ entry.condition.clause = .bool true) ↔
            ∀ valuation : Term → Bool, condition.formula.holds valuation = true →
              valuation (.extension extension) = positive) ∧
        ∀ asked, engine.Stores asked memory → engine.Stores (condition.formula :: asked) next)
      fun failure _ => ¬ condition.formula.IsGround ∨
        ∃ cause, failure = .query cause ∧ engine.limits.TooLarge condition.formula cause := by
  refine Inquiry.ends_ofQuery_bind (ends_smallClauses inProcess recalls)
    (fun clauses next ⟨form, stores⟩ => ?_) fun cause _ large => .inr ⟨cause, rfl, large⟩
  refine Inquiry.ends_lift_bind (fun found forced => ?_) fun failure failed => .inl fun ground => ?_
  · have sound : ∀ entry ∈ found.flatten, ∀ valuation : Term → Bool,
        condition.formula.holds valuation = true →
        entry.condition.formula.holds valuation = true →
          valuation (.extension entry.extension) = positive :=
      fun entry member valuation => value_of_entry form.spells forced member
    refine ⟨sound, fun satisfiable extension => ⟨?_, fun entailed => ?_⟩, stores⟩
    · rintro ⟨entry, member, rfl, always⟩ valuation truth
      obtain ⟨clause, _, place, _, isResidual⟩ := exists_clause_of_mem forced member
      obtain ⟨isFormula, isWritten⟩ := ofFormula_ok isResidual
      rw [always] at isWritten
      refine sound entry member valuation truth ?_
      rw [isFormula, eq_constant_of_toClause isWritten, Formula.holds_constant]
    · refine exists_entry_of_unit forced (form.units satisfiable _ fun valuation truth => ?_)
      rw [Formula.holds_toFormula, Literal.holds, entailed valuation truth, beq_self_eq_true]
  · obtain ⟨found, forced⟩ : ∃ found, clauses.mapM (forcedBy positive) = .ok found := by
      refine exists_mapM fun clause member => exists_forcedBy positive fun literal inside => ?_
      exact ground _ (form.spells.terms clause member literal inside)
    cases forced.symm.trans failed

/-- An extension that is required only because another one is and a third is ruled out, found with
the minimizer; the form that is stored serves the next question. -/
theorem implied_extensions_exact_chain :
    let engine := Engine.inProcess { exactMinimizeMaxTerms := 0 }
    let clause := Clause.allOf [.extension "A" none,
      .ifThen (.extension "A" none) (.anyOf [.extension "B" none, .extension "C" none]),
      .negation (.extension "C" none)]
    let named := fun name : String => Formula.atom (.extension (.any name))
    let condition : Condition := {
      clause
      formula := .conj [named "A", .implies (named "A") (.disj [named "B", named "C"]),
        .neg (named "C")] }
    ofClause clause = .ok condition ∧ engine.MinimizesInProcess ∧
      engine.Recalls .conjunctive condition.formula {} ∧ condition.formula.Satisfiable ∧
      (condition.impliedExtensions engine true).Ends {}
        (fun entries next =>
          (∃ entry ∈ entries, entry.extension = .any "B" ∧ entry.condition.clause = .bool true) ∧
            engine.Recalls .conjunctive condition.formula next)
        fun _ _ => False := by
  intro engine clause named condition
  have inProcess : engine.MinimizesInProcess := fun _ => rfl
  have recalls : engine.Recalls .conjunctive condition.formula {} := fun _ stored => nomatch stored
  have satisfiable : condition.formula.Satisfiable :=
    ⟨fun term => term != .extension (.any "C"), by decide +kernel⟩
  have entailed : ∀ valuation : Term → Bool, condition.formula.holds valuation = true →
      valuation (.extension (.any "B")) = true := by
    intro valuation truth
    simp only [condition, named, Formula.holds_conj, Formula.holds_implies, Formula.holds_disj,
      Formula.holds_neg, Formula.holds_atom, List.all_cons, List.all_nil, List.any_cons,
      List.any_nil, Bool.and_true, Bool.or_false, Bool.and_eq_true, Bool.or_eq_true,
      Bool.not_eq_true'] at truth
    obtain ⟨holdsA, failsA | holdsB | holdsC, failsC⟩ := truth
    · cases holdsA.symm.trans failsA
    · exact holdsB
    · cases holdsC.symm.trans failsC
  have ground : condition.formula.IsGround := Clause.isGround_compile clause _ rfl
  have small : ¬ min 16 24 < condition.formula.terms.length := by
    have three : condition.formula.terms.length = 3 := by cbv
    omega
  have same : CollisionFree engine.fingerprint [condition.formula, condition.formula] := by
    intro f isF g isG _
    simp only [List.mem_cons, List.not_mem_nil, or_false, or_self] at isF isG
    rw [isF, isG]
  refine ⟨rfl, inProcess, recalls, satisfiable,
    (implied_extensions_exact inProcess true condition recalls).mono ?_ ?_⟩
  · rintro entries next ⟨_, exact, stores⟩
    exact ⟨(exact satisfiable _).mpr entailed,
      (stores [] (Engine.stores_initial engine [])).recalls same .conjunctive⟩
  · rintro failure next (free | ⟨cause, _, large⟩)
    · exact free ground
    · exact small large.1

end Condition

end IsaLogic
