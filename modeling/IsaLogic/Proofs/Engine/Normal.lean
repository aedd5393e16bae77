import IsaLogic.Proofs.Clause.RoundTrip
import IsaLogic.Proofs.Engine.Terms

/-!
# Engines answer with normal formulas

What an engine finds for a normal formula is normal: small forms and cores are built by the
collapsing constructors from terms of the formula. An answer from the cache may have been
found for another formula, if fingerprints collide, so it is normal only because every
answer in the cache is (`Memory.IsNormal`). Questions keep it so, whatever the solver, the
minimizer and the extractor of the engine do.
-/

namespace IsaLogic

namespace Formula

/-- A formula read off cubes is normal if the terms of the cubes are. -/
theorem isNormal_coverFormula {terms : List Term} (normal : ∀ term ∈ terms, term.IsNormal)
    (form : TwoLevel) (cubes : List Cube) : (coverFormula terms form cubes).IsNormal := by
  have mentions := mentionsOnly_coverFormula terms form cubes
  rw [Cube.coverFormula_eq] at mentions ⊢
  refine isNormal_ofGroups fun group member literal inside => normal _ (mentions _ ?_)
  exact (mem_occurrences_ofGroups form).mpr ⟨group, member, literal, inside, rfl⟩

theorem IsNormal.terms {f : Formula} (normal : f.IsNormal) : ∀ term ∈ f.terms, term.IsNormal :=
  fun term member => normal.mentionsOnly term (mem_terms.mp member)

theorem IsNormal.unitClauses {f : Formula} (normal : f.IsNormal) (limit : Nat) :
    ∀ clause ∈ (Units.ofFormula limit f).clauses, ∀ literal ∈ clause, literal.term.IsNormal := by
  intro clause member literal isLiteral
  obtain ⟨conjunct, isConjunct, clauses, within, inside⟩ := Units.mem_clauses_ofFormula.mp member
  have normalConjunct := hereditary_isNormal.conjuncts normal conjunct isConjunct
  have spells := (equivalentGroups_ok within).1
  exact normalConjunct.mentionsOnly _ (spells.terms clause inside literal isLiteral)

/-- The units of a normal formula are normal. -/
theorem IsNormal.units {f : Formula} (normal : f.IsNormal) (limit : Nat) :
    ∀ unit ∈ (Units.ofFormula limit f).formulas, unit.IsNormal := by
  refine List.forall_mem_append.mpr ⟨List.forall_mem_map.mpr fun clause member => ?_, ?_⟩
  · refine hereditary_isNormal.anyOf (List.forall_mem_map.mpr fun literal isLiteral => ?_)
    exact isNormal_toFormula (normal.unitClauses limit clause member literal isLiteral)
  · intro conjunct isWhole
    exact hereditary_isNormal.conjuncts normal conjunct (Units.mem_whole_ofFormula.mp isWhole).1

end Formula

/-- The formula of a numbered clause has terms of the numbering only. -/
theorem Encoding.isNormal_clauseFormula {encoding : Encoding}
    (normal : ∀ term ∈ encoding.terms, term.IsNormal) {place : Nat} {f : Formula}
    (decoded : encoding.clauseFormula place = .ok f) : f.IsNormal := by
  unfold clauseFormula at decoded
  split at decoded
  · cases decoded
  · obtain ⟨literals, decodedClause, rfl⟩ := exists_ok_of_map decoded
    refine Formula.hereditary_isNormal.anyOf (List.forall_mem_map.mpr fun literal member => ?_)
    obtain ⟨number, _, decodedLiteral⟩ := (mem_of_mapM decodedClause).mp member
    refine Formula.isNormal_toFormula ?_
    unfold decodeLiteral at decodedLiteral
    dsimp only at decodedLiteral
    split at decodedLiteral
    · cases decodedLiteral
    · split at decodedLiteral
      · cases decodedLiteral
      · rename_i term isTerm
        cases decodedLiteral
        exact normal term (List.mem_of_getElem? isTerm)

/-- The small forms and the cores in the cache are normal. -/
structure Memory.IsNormal (memory : Memory) : Prop where
  minimized : ∀ entry ∈ memory.cache.minimized, entry.2.IsNormal
  cores : ∀ entry ∈ memory.cache.cores, ∀ core ∈ entry.2, core.IsNormal

namespace Memory.IsNormal

theorem initial : ({} : Memory).IsNormal where
  minimized := nofun
  cores := nofun

variable {memory next : Memory}

theorem of_tables (normal : memory.IsNormal)
    (same : (next.cache.minimized, next.cache.cores) =
      (memory.cache.minimized, memory.cache.cores)) : next.IsNormal := by
  obtain ⟨sameMinimized, sameCores⟩ := Prod.mk.inj same
  exact ⟨sameMinimized ▸ normal.minimized, sameCores ▸ normal.cores⟩

end Memory.IsNormal

namespace Engine

variable {engine : Engine} {f : Formula} {memory : Memory}

theorem Finds.isNormal {form : TwoLevel} {m : Formula} (finds : engine.Finds form f m)
    (normal : f.IsNormal) : m.IsNormal := by
  cases finds with
  | exactly => exact Formula.isNormal_coverFormula normal.terms form _
  | flattened => exact Formula.hereditary_isNormal.flatten normal
  | byCover found =>
    obtain ⟨cubes, _, covering⟩ := exists_ok_of_bind found
    obtain ⟨cover, _, fits⟩ := exists_ok_of_bind covering
    split at fits
    · cases fits
    · cases fits
      exact Formula.isNormal_coverFormula normal.terms form _

/-- Minimizing answers with a normal form and stores no other. -/
theorem ends_minimize_isNormal (known : memory.IsNormal) (normal : f.IsNormal) (form : TwoLevel) :
    (engine.minimize form f).Ends memory (fun m next => m.IsNormal ∧ next.IsNormal)
      fun _ next => next.IsNormal := by
  refine ends_minimize_finds (fun m finds => ⟨finds.isNormal normal, known⟩)
    (fun m stored => ⟨known.minimized _ (mem_of_lookup? stored), known.of_tables rfl⟩)
    (fun _ m found => ?_) fun _ _ => known.of_tables rfl
  have normalForm := Finds.isNormal (.byCover found) normal
  exact ⟨normalForm, List.forall_mem_cons.mpr ⟨normalForm, known.minimized⟩, known.cores⟩

theorem isNormal_coresByExtraction {clauses : List (List Literal)} {cores : List Formula}
    (normal : ∀ clause ∈ clauses, ∀ literal ∈ clause, literal.term.IsNormal)
    (extracted : engine.coresByExtraction clauses = .ok cores) : ∀ core ∈ cores, core.IsNormal := by
  obtain ⟨encoding, encoded, extracting⟩ := exists_ok_of_bind extracted
  obtain ⟨subsets, _, decoding⟩ := exists_ok_of_bind extracting
  have numbered : ∀ term ∈ encoding.terms, term.IsNormal := by
    unfold Encoding.ofFormula at encoded
    split at encoded
    · cases encoded
    · cases encoded
      have whole : (Formula.ofGroups .conjunctive clauses).IsNormal :=
        Formula.isNormal_ofGroups normal
      exact whole.terms
  intro core member
  obtain ⟨places, _, decoded⟩ := (mem_of_mapM decoding).mp member
  obtain ⟨formulas, each, conjunction⟩ := exists_ok_of_bind decoded
  cases conjunction
  refine Formula.hereditary_isNormal.allOf fun f isOne => ?_
  obtain ⟨place, _, decodedClause⟩ := (mem_of_mapM each).mp isOne
  exact Encoding.isNormal_clauseFormula numbered decodedClause

/-- Deletion finds a conjunction of the formulas, and leaves small forms and cores in the cache as
they are. -/
theorem ends_coreByDeletion_isNormal {formulas : List Formula} (known : memory.IsNormal)
    (normal : ∀ f ∈ formulas, f.IsNormal) :
    (engine.coreByDeletion formulas).Ends memory
      (fun cores next => (∀ core ∈ cores, core.IsNormal) ∧ next.IsNormal)
      fun _ next => next.IsNormal := by
  have each : ∀ places memory, memory.IsNormal →
      (engine.unsatisfiable (Tree.passing (conjoin formulas places))).Ends memory
        (fun _ => Memory.IsNormal) fun _ => Memory.IsNormal := by
    intro places memory known
    have keeps := keeps_unsatisfiable engine (Tree.passing (conjoin formulas places))
      (fun cache => (cache.minimized, cache.cores)) fun _ _ _ _ => rfl
    exact (keeps memory).mono (fun _ _ => known.of_tables) fun _ _ => known.of_tables
  refine (each _ memory known).bind fun verdict next knownNext => ?_
  split
  · refine (ends_shrinkFrom each knownNext).bind fun places last knownLast => ?_
    refine Query.ends_pure ⟨List.forall_mem_singleton.mpr ?_, knownLast⟩
    exact Formula.hereditary_isNormal.allOf fun f member => normal f (mem_of_mem_chosen member)
  · exact Query.ends_pure ⟨nofun, knownNext⟩

/-- Diagnosing answers with normal cores and stores no others. -/
theorem ends_cores_isNormal (known : memory.IsNormal) (normal : f.IsNormal) :
    (engine.cores f).Ends memory
      (fun cores next => (∀ core ∈ cores, core.IsNormal) ∧ next.IsNormal)
      fun _ next => next.IsNormal := by
  rw [cores_eq]
  refine Query.ends_remembering
    (fun cores stored => ⟨known.cores _ (mem_of_lookup? stored), known.of_tables rfl⟩) fun _ => ?_
  generalize isMissed : { memory with
    cache := { memory.cache with misses := memory.cache.misses + 1 } } = missed
  have knownMissed : missed.IsNormal := isMissed ▸ known.of_tables rfl
  have diagnosing : (engine.diagnose f).Ends missed
      (fun cores next => (∀ core ∈ cores, core.IsNormal) ∧ next.IsNormal)
      fun _ next => next.IsNormal := by
    unfold diagnose
    dsimp only
    split
    · cases extracted : engine.coresByExtraction
          (Units.ofFormula engine.limits.cnfExplosionLimit f).clauses with
      | ok cores =>
        exact ⟨isNormal_coresByExtraction (normal.unitClauses _) extracted, knownMissed⟩
      | error failure => exact knownMissed
    · exact ends_coreByDeletion_isNormal knownMissed (normal.units _)
  refine diagnosing.mono (fun cores next ⟨normalCores, knownNext⟩ => ?_) fun _ _ => id
  exact ⟨normalCores, knownNext.minimized, List.forall_mem_cons.mpr ⟨normalCores, knownNext.cores⟩⟩

end Engine

end IsaLogic
