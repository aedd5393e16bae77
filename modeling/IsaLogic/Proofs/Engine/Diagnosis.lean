import Mathlib
import IsaLogic.Proofs.Cnf.Core
import IsaLogic.Proofs.Engine.Satisfiability
import IsaLogic.Proofs.Engine.Units

/-!
# Diagnoses are minimal

Both ways to a diagnosis look for places of units that are unsatisfiable together, and
both find minimal ones: the extractor among the clauses by their numbers, deletion by
asking the engine itself.

So whatever an engine answers explains the formula (`Formula.Explains`): each core is a
conjunction of units that cannot hold together, any one of which is needed, and there is
none just if the formula is satisfiable. The engine fails only where the clauses cannot be
numbered, because an empty one stands beside others.
-/

namespace IsaLogic

namespace Formula

/-- A conjunction of units of a formula that cannot all hold, although all but any one can. -/
def IsCore (limit : Nat) (f core : Formula) : Prop :=
  ∃ units : List Formula, core = allOf units ∧
    (∀ unit ∈ units, f.Entails unit ∧ ∃ conjunct ∈ f.conjuncts, UnitOf limit conjunct unit) ∧
    ¬ (allOf units).Satisfiable ∧
    ∀ i, i < units.length → (allOf (units.eraseIdx i)).Satisfiable

theorem IsCore.mentionsOnly {limit : Nat} {f core : Formula} (isCore : f.IsCore limit core)
    {allowed : Term → Prop} (mentions : f.MentionsOnly allowed) : core.MentionsOnly allowed := by
  obtain ⟨units, rfl, each, _⟩ := isCore
  refine (mentionsOnly_allOf _).mpr fun unit member => ?_
  obtain ⟨_, conjunct, isConjunct, isUnit⟩ := each unit member
  exact isUnit.mentionsOnly ((hereditary_mentionsOnly _).conjuncts mentions conjunct isConjunct)

/-- Cores of a formula, and none just if it is satisfiable. -/
structure Explains (limit : Nat) (f : Formula) (cores : List Formula) : Prop where
  eq_nil_iff : cores = [] ↔ f.Satisfiable
  isCore : ∀ core ∈ cores, f.IsCore limit core

end Formula

/-- What deletion asks about, where conjuncts are kept whole: conjunctions of some of the units. -/
def Units.Asks (units : Units) (question : Formula) : Prop :=
  units.whole ≠ [] ∧ ∃ chosen, chosen.Sublist units.formulas ∧ question = Formula.allOf chosen

namespace Engine

section Places

variable {formulas : List Formula} {places : List Nat}

/-- The formulas at some places. -/
def chosen (formulas : List Formula) (places : List Nat) : List Formula :=
  places.filterMap fun place => formulas[place]?

theorem conjoin_eq (formulas : List Formula) (places : List Nat) :
    conjoin formulas places = Formula.allOf (chosen formulas places) := rfl

theorem mem_of_mem_chosen {f : Formula} (member : f ∈ chosen formulas places) : f ∈ formulas := by
  obtain ⟨place, _, isFormula⟩ := List.mem_filterMap.mp member
  exact List.mem_of_getElem? isFormula

/-- Places of a list have a formula each. -/
theorem chosen_eq_map (within : places.Sublist (List.range formulas.length)) :
    chosen formulas places = places.map fun place => formulas[place]?.getD default := by
  rw [chosen, ← List.filterMap_eq_map]
  refine List.filterMap_congr fun place member => ?_
  have inside := List.mem_range.mp (within.mem member)
  rw [Function.comp_apply, List.getElem?_eq_getElem inside, Option.getD_some]

theorem chosen_range (formulas : List Formula) :
    chosen formulas (List.range formulas.length) = formulas := by
  rw [chosen_eq_map (List.Sublist.refl _)]
  exact List.ext_getElem (by simp) fun i _ inside => by simp [inside]

theorem sublist_chosen (within : places.Sublist (List.range formulas.length)) :
    (chosen formulas places).Sublist formulas := by
  have sub := within.filterMap fun place => formulas[place]?
  rwa [← chosen, ← chosen, chosen_range] at sub

/-- Leaving out a place leaves out its formula. -/
theorem eraseIdx_chosen (within : places.Sublist (List.range formulas.length)) (i : Nat) :
    (chosen formulas places).eraseIdx i = chosen formulas (places.eraseIdx i) := by
  rw [chosen_eq_map within, List.eraseIdx_map,
    chosen_eq_map ((List.eraseIdx_sublist places i).trans within)]

/-- Answers about places are exact: unsatisfiable are those whose formulas cannot hold together. -/
def Decides (formulas : List Formula) (unsat : List Nat → Bool) : Prop :=
  ∀ places, places.Sublist (List.range formulas.length) →
    (unsat places = true ↔ ¬ (conjoin formulas places).Satisfiable)

/-- Conjunctions of formulas at minimal sets of places that cannot hold together, and none just if
all formulas can. -/
def Diagnoses (formulas cores : List Formula) : Prop :=
  ∃ unsat found, Decides formulas unsat ∧ Core.Found unsat formulas.length found ∧
    cores = found.map (conjoin formulas)

end Places

section Explaining

variable {limit : Nat} {f : Formula} {unsat : List Nat → Bool}

/-- A minimal set of places has a core. -/
theorem isCore_conjoin (decides : Decides (Units.ofFormula limit f).formulas unsat)
    {places : List Nat} (minimal : Core.Minimal unsat places)
    (within : places.Sublist (List.range (Units.ofFormula limit f).formulas.length)) :
    f.IsCore limit (conjoin (Units.ofFormula limit f).formulas places) := by
  refine ⟨chosen _ places, rfl, fun unit member => ?_, (decides places within).mp minimal.isUnsat,
    fun i inside => ?_⟩
  · have isUnit := mem_of_mem_chosen member
    exact ⟨Units.entails_of_mem isUnit, Units.mem_formulas_ofFormula.mp isUnit⟩
  · have placed : i < places.length := by
      rwa [chosen_eq_map within, List.length_map] at inside
    have satisfiable := minimal.needed i placed
    rw [Bool.eq_false_iff, Ne, decides _ ((List.eraseIdx_sublist places i).trans within),
      Classical.not_not, conjoin_eq, ← eraseIdx_chosen within] at satisfiable
    exact satisfiable

/-- What diagnoses the units explains the formula. -/
theorem Diagnoses.explains {cores : List Formula}
    (diagnoses : Diagnoses (Units.ofFormula limit f).formulas cores) : f.Explains limit cores := by
  obtain ⟨unsat, found, decides, isFound, rfl⟩ := diagnoses
  refine ⟨?_, List.forall_mem_map.mpr fun places member =>
    isCore_conjoin decides (isFound.minimal places member) (isFound.within places member)⟩
  rw [List.map_eq_nil_iff, isFound.eq_nil_iff, Bool.eq_false_iff, Ne,
    decides _ (List.Sublist.refl _), Classical.not_not, conjoin_eq, chosen_range]
  exact Formula.Equivalent.satisfiable_iff (Units.holds_formulas limit f)

end Explaining

section Extraction

variable {engine : Engine} {clauses : List (List Literal)}

/-- The engine's extractor is the one of this library, exhaustive up to some number of clauses. -/
def ExtractsInProcess (engine : Engine) : Prop :=
  ∃ maxExhaustive, ∀ cnf, engine.extract cnf = .ok (Core.extract maxExhaustive cnf)

/-- The formulas of some clauses. -/
def clauseFormulas (clauses : List (List Literal)) : List Formula :=
  clauses.map fun clause => Formula.anyOf (clause.map Literal.toFormula)

/-- The conjunction of some clauses. -/
theorem conjoin_clauseFormulas (clauses : List (List Literal)) (places : List Nat) :
    conjoin (clauseFormulas clauses) places =
      Formula.ofGroups .conjunctive (places.filterMap fun place => clauses[place]?) := by
  have same : chosen (clauseFormulas clauses) places =
      clauseFormulas (places.filterMap fun place => clauses[place]?) := by
    simp only [chosen, clauseFormulas, List.getElem?_map, List.map_filterMap]
  rw [conjoin_eq, same]
  rfl

section Numbering

variable {terms : List Term}
  (listed : ∀ clause ∈ clauses, ∀ literal ∈ clause, literal.term ∈ terms)

include listed

/-- Clauses by numbers decide the clauses. -/
theorem decides_isUnsat :
    Decides (clauseFormulas clauses) (Core.isUnsat (Encoding.numbered terms clauses)) := by
  intro places within
  have numbered : Core.clausesAt (Encoding.numbered terms clauses).clauses places =
      (Encoding.numbered terms (places.filterMap fun place => clauses[place]?)).clauses := by
    simp only [Core.clausesAt, List.getElem?_map, List.map_filterMap]
  have listedToo : ∀ clause ∈ places.filterMap fun place => clauses[place]?,
      ∀ literal ∈ clause, literal.term ∈ terms := by
    intro clause member
    obtain ⟨place, _, isClause⟩ := List.mem_filterMap.mp member
    exact listed clause (List.mem_of_getElem? isClause)
  rw [Core.isUnsat_iff (Encoding.inRange_numbered listed), numbered,
    Encoding.exists_clausesHold_numbered listedToo, conjoin_clauseFormulas]
  refine not_congr (exists_congr fun valuation => ?_)
  rw [Formula.holds_ofGroups]

/-- The clauses at some places are decoded to their formulas. -/
theorem mapM_clauseFormula {places : List Nat}
    (within : places.Sublist (List.range (clauseFormulas clauses).length)) :
    places.mapM (Encoding.clauseFormula { cnf := Encoding.numbered terms clauses, terms }) =
      .ok (chosen (clauseFormulas clauses) places) := by
  rw [chosen_eq_map within]
  refine mapM_eq_map fun place member => ?_
  have inside : place < clauses.length := by
    simpa [clauseFormulas] using List.mem_range.mp (within.mem member)
  have here := List.getElem?_eq_getElem inside
  rw [Encoding.clauseFormula_numbered (listed _ (List.mem_of_getElem? here)) here, clauseFormulas,
    List.getElem?_map, here]
  rfl

end Numbering

/-- Clauses that can be numbered are diagnosed by extraction. -/
theorem exists_coresByExtraction (extracts : engine.ExtractsInProcess)
    (alone : [] ∈ clauses → clauses = [[]]) :
    ∃ cores, engine.coresByExtraction clauses = .ok cores ∧
      Diagnoses (clauseFormulas clauses) cores := by
  obtain ⟨maxExhaustive, inProcess⟩ := extracts
  have listed : ∀ clause ∈ clauses, ∀ literal ∈ clause,
      literal.term ∈ (Formula.ofClauses clauses).terms := by
    intro clause isClause literal inside
    exact Formula.mem_terms.mpr ((Formula.mem_occurrences_ofGroups .conjunctive).mpr
      ⟨clause, isClause, literal, inside, rfl⟩)
  have found := Core.found_extract (Encoding.inRange_numbered listed) maxExhaustive
  have places : (Encoding.numbered (Formula.ofClauses clauses).terms clauses).clauses.length =
      (clauseFormulas clauses).length := by simp [clauseFormulas]
  rw [places] at found
  refine ⟨_, ?_, _, _, decides_isUnsat listed, found, rfl⟩
  unfold coresByExtraction
  rw [Encoding.ofFormula_of_clauses? (Formula.clauses?_ofClauses alone)]
  change (engine.extract _ >>= _) = _
  rw [inProcess]
  refine mapM_eq_map fun places isFound => ?_
  rw [mapM_clauseFormula listed (found.within places isFound)]
  rfl

/-- Clauses that cannot be numbered have no cores. -/
theorem coresByExtraction_eq_error (engine : Engine) (empty : [] ∈ clauses)
    (others : clauses ≠ [[]]) :
    engine.coresByExtraction clauses = .error (.notCnf (Formula.ofClauses clauses).text) := by
  have notFlat := Formula.clauses?_ofClauses_eq_none empty others
  unfold coresByExtraction Encoding.ofFormula
  rw [notFlat]
  rfl

end Extraction

section Deletion

variable {engine : Engine} {formulas : List Formula} {memory : Memory}

/-- Whether the formulas at some places cannot hold together, by enumeration. -/
def unsatTogether (formulas : List Formula) (places : List Nat) : Bool :=
  !(conjoin formulas places).satisfiableByEnumeration

theorem unsatTogether_iff {places : List Nat} :
    unsatTogether formulas places = true ↔ ¬ (conjoin formulas places).Satisfiable := by
  rw [unsatTogether, Bool.not_eq_true', Bool.eq_false_iff, Ne, Formula.satisfiableByEnumeration_iff]

theorem monotone_unsatTogether (formulas : List Formula) :
    Core.Monotone (unsatTogether formulas) where
  more few many included isUnsat := by
    rw [unsatTogether_iff] at isUnsat ⊢
    rintro ⟨valuation, truth⟩
    refine isUnsat ⟨valuation, ?_⟩
    rw [conjoin_eq, Formula.holds_allOf, List.all_eq_true] at truth ⊢
    intro f member
    obtain ⟨place, isPlace, isFormula⟩ := List.mem_filterMap.mp member
    exact truth f (List.mem_filterMap.mpr ⟨place, included isPlace, isFormula⟩)
  nothing := by
    rw [Bool.eq_false_iff, Ne, unsatTogether_iff, Classical.not_not]
    exact ⟨fun _ => true, rfl⟩

/-- Deletion by questions that are answered exactly goes the way it goes with the answers given. -/
theorem answers_shrinkFrom {unsat : List Nat → Query Bool} {answer : List Nat → Bool}
    {invariant : Memory → Prop} {all : List Nat}
    (exact : ∀ places, places.Sublist all → ∀ memory, invariant memory →
      (unsat places).Answers memory fun verdict next => verdict = answer places ∧ invariant next)
    {kept left : List Nat} (within : (kept ++ left).Sublist all) (starts : invariant memory) :
    (Core.shrinkFrom unsat kept left).Answers memory fun places next =>
      places = Id.run (Core.shrinkFrom (Core.answering answer) kept left) ∧ invariant next := by
  induction left generalizing kept memory with
  | nil => exact Query.ends_pure ⟨rfl, starts⟩
  | cons place left ih =>
    have fewer : (kept ++ left).Sublist all :=
      ((List.sublist_cons_self place left).append_left kept).trans within
    rw [Core.shrinkFrom_cons]
    refine (exact _ fewer memory starts).bind ?_
    rintro verdict next ⟨rfl, continues⟩
    split
    · exact ih fewer continues
    · exact ih (by simpa using within) continues

theorem keeps_equisatCnf (engine : Engine) (tree : Tree) :
    (engine.equisatCnf tree).Keeps Memory.cache := by
  refine (Query.keeps_notes tree).bind fun noted => ?_
  split
  · exact Query.keeps_pure _
  · have noting : ∀ cnf, (do
        Query.note tree fun notes => { notes with cnf := some cnf }
        return cnf : Query Tree).Keeps Memory.cache := fun cnf =>
      (Query.keeps_note tree _).bind fun _ => Query.keeps_pure cnf
    split
    · exact noting tree
    · exact (Query.keeps_numbering _).bind fun formula => (Query.keeps_hold formula).bind noting

theorem keeps_askSolver (engine : Engine) (tree : Tree) :
    (engine.askSolver tree).Keeps Memory.cache :=
  (keeps_equisatCnf engine tree).bind fun _ =>
    (Query.keeps_lift _).bind fun _ => (Query.keeps_lift _).bind fun _ => Query.keeps_pure _

/-- Deciding satisfiability leaves the cache as it is, except for verdicts and counts. -/
theorem keeps_satisfiable {γ : Type} (engine : Engine) (tree : Tree) (view : Cache → γ)
    (same : ∀ cache verdicts hits misses, view { cache with verdicts, hits, misses } = view cache) :
    (engine.satisfiable tree).Keeps fun memory => view memory.cache := by
  have asking := (keeps_askSolver engine tree).of_part view
  refine (Query.keeps_notes tree).bind fun noted => ?_
  split
  · exact Query.keeps_pure _
  · exact Query.keeps_pure _
  · split
    · exact ((Query.keeps_note tree _).of_part view).bind fun _ => Query.keeps_pure _
    · exact Query.keeps_remembering asking (fun memory => same memory.cache memory.cache.verdicts)
        fun memory entry => same memory.cache (entry :: memory.cache.verdicts) _ _

theorem keeps_unsatisfiable {γ : Type} (engine : Engine) (tree : Tree) (view : Cache → γ)
    (same : ∀ cache verdicts hits misses, view { cache with verdicts, hits, misses } = view cache) :
    (engine.unsatisfiable tree).Keeps fun memory => view memory.cache :=
  (keeps_satisfiable engine tree view same).bind fun _ => Query.keeps_pure _

variable {asked held : List Formula}

/-- A memory that follows another one and has the same diagnoses. -/
structure Continues (engine : Engine) (asked held : List Formula) (memory next : Memory) :
    Prop where
  follows : memory.Follows engine.fingerprint asked held next
  cores : next.cache.cores = memory.cache.cores

/-- Deletion's question about some places is answered exactly. -/
theorem answers_together (held : List Formula) (search : engine.SearchesInProcess)
    (distinct : CollisionFree engine.fingerprint asked)
    (asks : ∀ chosen : List Formula, chosen.Sublist formulas → Formula.allOf chosen ∈ asked)
    (numbered : ∀ f ∈ formulas, f.MentionsOnly (Term.NumberedBelow memory.nextFree))
    (places : List Nat) (within : places.Sublist (List.range formulas.length)) (middle : Memory)
    (continues : engine.Continues asked held memory middle) :
    (engine.unsatisfiable (Tree.passing (conjoin formulas places))).Answers middle
      fun verdict next => verdict = unsatTogether formulas places ∧
        engine.Continues asked held memory next := by
  obtain ⟨⟨counts, later, grown, truthful⟩, same⟩ := continues
  have numberedLater : (conjoin formulas places).MentionsOnly
      (Term.NumberedBelow middle.nextFree) := by
    refine (Formula.mentionsOnly_allOf _).mpr fun f member term occurs => ?_
    exact (numbered f (mem_of_mem_chosen member) term occurs).mono counts
  have answers := answers_unsatisfiable search truthful
    (Tree.known_passing later (conjoin formulas places)) numberedLater
    (asks _ (sublist_chosen within)) distinct
  have keeps := keeps_unsatisfiable engine (Tree.passing (conjoin formulas places)) Cache.cores
    fun _ _ _ _ => rfl
  refine (answers.and (keeps middle)).mono ?_ fun _ _ => And.left
  rintro verdict next ⟨⟨exact, follows⟩, sameNext⟩
  refine ⟨?_, follows.of_later counts grown, sameNext.trans same⟩
  rw [Bool.eq_iff_iff, exact, unsatTogether_iff]
  rfl

/-- Deletion finds the core of a minimal set of places, and none just if all can hold. -/
theorem answers_coreByDeletion (search : engine.SearchesInProcess)
    (truthful : memory.Truthful engine.fingerprint asked held)
    (distinct : CollisionFree engine.fingerprint asked)
    (asks : ∀ chosen : List Formula, chosen.Sublist formulas → Formula.allOf chosen ∈ asked)
    (numbered : ∀ f ∈ formulas, f.MentionsOnly (Term.NumberedBelow memory.nextFree)) :
    (engine.coreByDeletion formulas).Answers memory fun cores next =>
      Diagnoses formulas cores ∧ engine.Continues asked held memory next := by
  have decides : Decides formulas (unsatTogether formulas) := fun _ _ => unsatTogether_iff
  have exact := answers_together held search distinct asks numbered
  have start : engine.Continues asked held memory memory := ⟨truthful.follows, rfl⟩
  refine (exact _ (List.Sublist.refl _) memory start).bind ?_
  rintro verdict next ⟨rfl, continues⟩
  split
  · rename_i isUnsat
    refine (answers_shrinkFrom exact (List.Sublist.refl _) continues).bind ?_
    rintro _ last ⟨rfl, continuesLast⟩
    have found := Core.found_shrink (monotone_unsatTogether formulas) isUnsat
    exact Query.ends_pure ⟨⟨_, _, decides, found, rfl⟩, continuesLast⟩
  · rename_i satisfiable
    have found := Core.found_nil (Bool.eq_false_iff.mpr satisfiable)
    exact Query.ends_pure ⟨⟨_, _, decides, found, rfl⟩, continues⟩

end Deletion

section Remembered

variable {engine : Engine} {asked held : List Formula} {memory next : Memory} {f : Formula}

/-- The diagnoses in the cache explain formulas asked about. -/
def Diagnosed (engine : Engine) (asked : List Formula) (memory : Memory) : Prop :=
  ∀ key cores, lookup? key memory.cache.cores = some cores →
    ∃ f ∈ asked, engine.fingerprint f = key ∧ f.Explains engine.limits.cnfExplosionLimit cores

theorem Diagnosed.of_cores (diagnosed : engine.Diagnosed asked memory)
    (same : next.cache.cores = memory.cache.cores) : engine.Diagnosed asked next := by
  intro key cores stored
  rw [same] at stored
  exact diagnosed key cores stored

theorem Diagnosed.store (diagnosed : engine.Diagnosed asked memory) (isAsked : f ∈ asked)
    {cores : List Formula} (explains : f.Explains engine.limits.cnfExplosionLimit cores) :
    engine.Diagnosed asked
      { memory with
        cache := { memory.cache with
          cores := (engine.fingerprint f, cores) :: memory.cache.cores } } := by
  intro key stored found
  rw [lookup?_cons] at found
  split at found
  · rename_i same
    cases found
    exact ⟨f, isAsked, same, explains⟩
  · exact diagnosed key stored found

/-- What an engine needs to diagnose a formula: everything it remembers is true, and no two
formulas that it was or will be asked about share a fingerprint. -/
structure Prepared (engine : Engine) (asked held : List Formula) (memory : Memory) (f : Formula) :
    Prop where
  truthful : memory.Truthful engine.fingerprint asked held
  diagnosed : engine.Diagnosed asked memory
  distinct : CollisionFree engine.fingerprint asked
  isAsked : f ∈ asked
  asks : ∀ question, (Units.ofFormula engine.limits.cnfExplosionLimit f).Asks question →
    question ∈ asked
  numbered : f.MentionsOnly (Term.NumberedBelow memory.nextFree)

/-- The failure of a diagnosis whose clauses cannot be numbered. -/
def Refuses (engine : Engine) (f : Formula) (failure : QueryError) : Prop :=
  let units := Units.ofFormula engine.limits.cnfExplosionLimit f
  units.Unencodable ∧ failure = .notCnf (Formula.ofClauses units.clauses).text

/-- The diagnosis of a formula that the cache does not have. -/
def diagnose (engine : Engine) (f : Formula) : Query (List Formula) := do
  let units := Units.ofFormula engine.limits.cnfExplosionLimit f
  if units.whole.isEmpty then liftM (engine.coresByExtraction units.clauses)
  else engine.coreByDeletion units.formulas

theorem cores_eq (engine : Engine) (f : Formula) :
    engine.cores f = Query.remembering Cache.cores
      (fun cache entry => { cache with cores := entry :: cache.cores })
      (engine.fingerprint f) (engine.diagnose f) := rfl

/-- A diagnosis explains the formula, unless its clauses cannot be numbered. -/
theorem ends_diagnose (search : engine.SearchesInProcess) (extracts : engine.ExtractsInProcess)
    (prepared : engine.Prepared asked held memory f) :
    (engine.diagnose f).Ends memory
      (fun cores next => (f.Explains engine.limits.cnfExplosionLimit cores ∧
        ¬ (Units.ofFormula engine.limits.cnfExplosionLimit f).Unencodable) ∧
          engine.Continues asked held memory next)
      fun failure next => engine.Refuses f failure ∧ engine.Continues asked held memory next := by
  have start : engine.Continues asked held memory memory := ⟨prepared.truthful.follows, rfl⟩
  unfold diagnose
  dsimp only
  split
  · rename_i isEmpty
    have noneWhole := List.isEmpty_iff.mp isEmpty
    have formulas : (Units.ofFormula engine.limits.cnfExplosionLimit f).formulas =
        clauseFormulas (Units.ofFormula engine.limits.cnfExplosionLimit f).clauses := by
      rw [Units.formulas, noneWhole, List.append_nil]
      rfl
    by_cases unencodable : (Units.ofFormula engine.limits.cnfExplosionLimit f).Unencodable
    · rw [coresByExtraction_eq_error engine unencodable.2.1 unencodable.2.2]
      exact ⟨⟨unencodable, rfl⟩, start⟩
    · have alone := fun empty => Decidable.not_not.mp fun others =>
        unencodable ⟨noneWhole, empty, others⟩
      obtain ⟨cores, found, diagnoses⟩ := exists_coresByExtraction extracts alone
      rw [found]
      rw [← formulas] at diagnoses
      exact ⟨⟨diagnoses.explains, unencodable⟩, start⟩
  · rename_i notEmpty
    have someWhole := fun noneWhole => notEmpty (List.isEmpty_iff.mpr noneWhole)
    refine (answers_coreByDeletion search prepared.truthful prepared.distinct
      (fun chosen sub => prepared.asks _ ⟨someWhole, chosen, sub, rfl⟩)
      fun unit member => Units.mentionsOnly_formulas prepared.numbered member).mono ?_
        fun _ _ => False.elim
    rintro cores next ⟨diagnoses, continues⟩
    exact ⟨⟨diagnoses.explains, fun unencodable => someWhole unencodable.1⟩, continues⟩

/-- The memory after a diagnosis is true, and the engine can go on. -/
structure Resumes (engine : Engine) (asked held : List Formula) (memory next : Memory) : Prop where
  follows : memory.Follows engine.fingerprint asked held next
  diagnosed : engine.Diagnosed asked next

theorem Prepared.counting (prepared : engine.Prepared asked held memory f) (hits misses : Nat) :
    engine.Prepared asked held { memory with cache := { memory.cache with hits, misses } } f where
  truthful := prepared.truthful.counting hits misses
  diagnosed := prepared.diagnosed.of_cores rfl
  distinct := prepared.distinct
  isAsked := prepared.isAsked
  asks := prepared.asks
  numbered := prepared.numbered

/-- Asking for the cores of a formula gives a diagnosis, stored or found, and stores no other. -/
theorem ends_cores (search : engine.SearchesInProcess) (extracts : engine.ExtractsInProcess)
    (prepared : engine.Prepared asked held memory f) :
    (engine.cores f).Ends memory
      (fun cores next => (f.Explains engine.limits.cnfExplosionLimit cores ∧
        (lookup? (engine.fingerprint f) memory.cache.cores = none →
          ¬ (Units.ofFormula engine.limits.cnfExplosionLimit f).Unencodable)) ∧
        engine.Resumes asked held memory next)
      fun failure next => engine.Refuses f failure ∧ engine.Resumes asked held memory next := by
  rw [cores_eq]
  refine Query.ends_remembering (fun cores stored => ?_) fun unknown => ?_
  · obtain ⟨g, isAsked, sameFingerprint, explains⟩ := prepared.diagnosed _ cores stored
    cases prepared.distinct g isAsked f prepared.isAsked sameFingerprint
    refine ⟨⟨explains, fun unknown => nomatch stored.symm.trans unknown⟩, ?_, ?_⟩
    · exact ⟨Nat.le_refl _, held, List.prefix_refl held, prepared.truthful.counting _ _⟩
    · exact prepared.diagnosed.of_cores rfl
  · have missed := prepared.counting memory.cache.hits (memory.cache.misses + 1)
    refine (ends_diagnose search extracts missed).mono ?_ ?_
    · rintro cores next ⟨⟨explains, encodable⟩, ⟨counts, later, grown, truthful⟩, same⟩
      refine ⟨⟨explains, fun _ => encodable⟩, ⟨counts, later, grown, ?_⟩, ?_⟩
      · exact ⟨truthful.counted, truthful.notes, truthful.verdicts, truthful.minimized⟩
      · exact (missed.diagnosed.of_cores same).store prepared.isAsked explains
    · rintro failure next ⟨refuses, ⟨counts, later, grown, truthful⟩, same⟩
      exact ⟨refuses, ⟨counts, later, grown, truthful⟩, missed.diagnosed.of_cores same⟩

/-- An engine that remembers nothing is prepared, if the formulas to be asked about have different
fingerprints. -/
theorem prepared_initial (distinct : CollisionFree engine.fingerprint asked) (isAsked : f ∈ asked)
    (asks : ∀ question, (Units.ofFormula engine.limits.cnfExplosionLimit f).Asks question →
      question ∈ asked)
    (numbered : f.MentionsOnly (Term.NumberedBelow 0)) : engine.Prepared asked [] {} f where
  truthful := .initial _ _
  diagnosed _ _ stored := nomatch stored
  distinct := distinct
  isAsked := isAsked
  asks := asks
  numbered := numbered

end Remembered

/-- In process, what an engine answers is exact, whichever way it takes: there are no cores just
if the formula is satisfiable, and each core is the conjunction of units, that is, of clauses of
conjuncts or of conjuncts too large for clauses. Each of these follows from the formula; together
they are unsatisfiable, and without any one of them they are satisfiable. The engine fails only
where an empty clause stands beside others, and can go on in either case. -/
theorem cores_explain {engine : Engine} (search : engine.SearchesInProcess)
    (extracts : engine.ExtractsInProcess) {asked held : List Formula} {memory : Memory}
    {f : Formula} (prepared : engine.Prepared asked held memory f) :
    (engine.cores f).Ends memory
      (fun cores next =>
        (cores = [] ↔ f.Satisfiable) ∧
        (∀ core ∈ cores, ∃ units : List Formula, core = Formula.allOf units ∧
          (∀ unit ∈ units, f.Entails unit ∧ ∃ conjunct ∈ f.conjuncts,
            Formula.UnitOf engine.limits.cnfExplosionLimit conjunct unit) ∧
          ¬ (Formula.allOf units).Satisfiable ∧
          ∀ i, i < units.length → (Formula.allOf (units.eraseIdx i)).Satisfiable) ∧
        engine.Resumes asked held memory next)
      fun failure next => engine.Refuses f failure ∧ engine.Resumes asked held memory next := by
  refine (ends_cores search extracts prepared).mono ?_ fun _ _ => id
  rintro cores next ⟨⟨explains, _⟩, resumes⟩
  exact ⟨explains.eq_nil_iff, explains.isCore, resumes⟩

/-- A formula that is diagnosed by its clauses, and one that is too large for any clause, so that
the engine has to ask itself. -/
theorem cores_explain_absorbed :
    let a := Formula.atom (.xlen .rv32)
    let b := Formula.atom (.xlen .rv64)
    let chain := Formula.conj [a, .implies a b, .neg b]
    let absorbed := Formula.exactlyOne [a, .conj [a, .disj [a, b]]]
    let engine := inProcess {}
    let cautious : Engine :=
      { inProcess { cnfExplosionLimit := 0 } with fingerprint := Formula.fingerprintWith id }
    (engine.SearchesInProcess ∧ engine.ExtractsInProcess ∧ engine.Prepared [chain] [] {} chain ∧
      (engine.cores chain).Answers {} fun cores _ =>
        cores ≠ [] ∧ ∀ core ∈ cores, ¬ core.Satisfiable) ∧
    cautious.SearchesInProcess ∧ cautious.ExtractsInProcess ∧
      cautious.Prepared [Formula.verum, absorbed] [] {} absorbed ∧
      (cautious.cores absorbed).Answers {} fun cores _ =>
        cores ≠ [] ∧ ∀ core ∈ cores, ¬ core.Satisfiable := by
  intro a b chain absorbed engine cautious
  have answers : ∀ {engine : Engine} {asked : List Formula} {f : Formula},
      engine.SearchesInProcess → engine.ExtractsInProcess → engine.Prepared asked [] {} f →
      ¬ (Units.ofFormula engine.limits.cnfExplosionLimit f).Unencodable → ¬ f.Satisfiable →
      (engine.cores f).Answers {} fun cores _ =>
        cores ≠ [] ∧ ∀ core ∈ cores, ¬ core.Satisfiable := by
    intro engine asked f search extracts prepared encodable unsatisfiable
    refine (cores_explain search extracts prepared).mono ?_ fun _ _ refused =>
      encodable refused.1.1
    rintro cores next ⟨empty, each, _⟩
    refine ⟨fun none => unsatisfiable (empty.mp none), fun core member => ?_⟩
    obtain ⟨units, rfl, _, unsat, _⟩ := each core member
    exact unsat
  have unsatisfiable : ¬ chain.Satisfiable ∧ ¬ absorbed.Satisfiable := by
    constructor <;> rintro ⟨valuation, truth⟩ <;> revert truth <;>
      cases atA : valuation (.xlen .rv32) <;> cases atB : valuation (.xlen .rv64) <;>
      simp [chain, absorbed, a, b, atA, atB]
  have chainClauses : (Units.ofFormula 10 chain).whole = [] ∧
      (Units.ofFormula 10 chain).clauses.contains [] = false := by
    constructor <;> cbv
  have absorbedUnits : (Units.ofFormula 0 absorbed).formulas = [absorbed] ∧
      (Units.ofFormula 0 absorbed).whole = [absorbed] := by
    constructor <;> cbv
  have searches : engine.SearchesInProcess ∧ cautious.SearchesInProcess :=
    ⟨fun _ => rfl, fun _ => rfl⟩
  have extracts : engine.ExtractsInProcess ∧ cautious.ExtractsInProcess :=
    ⟨⟨12, fun _ => rfl⟩, 12, fun _ => rfl⟩
  have prepared : engine.Prepared [chain] [] {} chain := by
    refine prepared_initial (.singleton _ _) (List.mem_singleton.mpr rfl) ?_ ?_
    · rintro question ⟨someWhole, _⟩
      exact absurd chainClauses.1 someWhole
    · simp [chain, a, b, Term.NumberedBelow]
  have cautiouslyPrepared : cautious.Prepared [Formula.verum, absorbed] [] {} absorbed := by
    refine prepared_initial ?_ (by simp) ?_ ?_
    · have differ : cautious.fingerprint Formula.verum ≠ cautious.fingerprint absorbed := by
        decide +kernel
      simp [CollisionFree, differ, differ.symm]
    · rintro question ⟨_, chosen, sub, rfl⟩
      change chosen.Sublist (Units.ofFormula 0 absorbed).formulas at sub
      rw [absorbedUnits.1] at sub
      rcases List.sublist_singleton.mp sub with rfl | rfl <;> simp [Formula.allOf]
    · simp [absorbed, a, b, Term.NumberedBelow]
  have encodable : ¬ (Units.ofFormula engine.limits.cnfExplosionLimit chain).Unencodable := by
    rintro ⟨_, member, _⟩
    cases chainClauses.2.symm.trans (List.contains_iff_mem.mpr member)
  have someWhole : ¬ (Units.ofFormula cautious.limits.cnfExplosionLimit absorbed).Unencodable := by
    rintro ⟨noneWhole, _⟩
    cases absorbedUnits.2.symm.trans noneWhole
  -- from here on nothing has to be computed
  clear_value chain absorbed engine cautious
  exact ⟨⟨searches.1, extracts.1, prepared,
      answers searches.1 extracts.1 prepared encodable unsatisfiable.1⟩,
    searches.2, extracts.2, cautiouslyPrepared,
      answers searches.2 extracts.2 cautiouslyPrepared someWhole unsatisfiable.2⟩

end Engine

end IsaLogic
