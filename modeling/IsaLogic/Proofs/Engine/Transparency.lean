import Mathlib
import IsaLogic.Proofs.Engine.Diagnosis
import IsaLogic.Proofs.Engine.Minimization

/-!
# Answers do not depend on what is remembered

For each kind of question there is an answer that needs no memory: the verdict by
enumeration, what minimization finds (`minimized`) and the diagnosis with its questions
decided by enumeration (`diagnosis`). An engine is faithful if every small form and every
diagnosis in its cache is that answer for some formula with the stored fingerprint
(`Faithful`). A faithful engine gives that answer, or fails as it does, and stays faithful,
whatever else it remembers and however it finds the answer.
-/

namespace IsaLogic

namespace Query

variable {α β : Type} {query : Query α} {memory : Memory} {outcome : Except QueryError α}
  {after : Memory → Prop}

/-- A question has an outcome, an answer or a failure, and something holds of the memory after it. -/
def Gives (query : Query α) (memory : Memory) (outcome : Except QueryError α)
    (after : Memory → Prop) : Prop :=
  query.Ends memory (fun answer next => outcome = .ok answer ∧ after next) fun failure next =>
    outcome = .error failure ∧ after next

theorem Gives.run (gives : query.Gives memory outcome after) :
    (query.run memory).1 = outcome ∧ after (query.run memory).2 := by
  unfold Gives Ends at gives
  split at gives <;> rename_i ends <;> rw [ends] <;> exact ⟨gives.1.symm, gives.2⟩

theorem gives_lift (holds : after memory) : (liftM outcome : Query α).Gives memory outcome after := by
  cases outcome with
  | ok answer => exact ⟨rfl, holds⟩
  | error failure => exact ⟨rfl, holds⟩

theorem Gives.map (gives : query.Gives memory outcome after) (view : α → β) :
    (do return view (← query) : Query β).Gives memory (outcome.map view) after := by
  refine (gives.mono (fun answer next holds => ?_) fun failure next holds => ?_).bind
    fun answer next holds => ends_pure holds
  · exact ⟨by rw [holds.1]; rfl, holds.2⟩
  · exact ⟨by rw [holds.1]; rfl, holds.2⟩

end Query

/-- A true memory that has given out as many numbers follows. -/
theorem Memory.Truthful.after {fingerprint : Formula → Bytes} {asked held : List Formula}
    {memory next : Memory} (truthful : next.Truthful fingerprint asked held)
    (counts : memory.nextFree ≤ next.nextFree) : memory.Follows fingerprint asked held next :=
  ⟨counts, held, List.prefix_refl held, truthful⟩

namespace Engine

/-- What minimization finds, with nothing to remember. -/
def minimized (engine : Engine) (form : TwoLevel) (f : Formula) : Except QueryError Formula :=
  let count := f.terms.length
  if count ≤ engine.limits.exactMinimizeMaxTerms then .ok (f.minimizeExact form)
  else if f.isNested form && count == f.occurrences.length then .ok f.flatten
  else engine.minimizeByCover form f

/-- The core that deletion finds among some formulas, its questions decided by enumeration. -/
def deletionCores (formulas : List Formula) : List Formula :=
  let all := List.range formulas.length
  if unsatTogether formulas all then
    [conjoin formulas (Id.run (Core.shrink (Core.answering (unsatTogether formulas)) all))]
  else []

/-- The diagnosis of a formula, with nothing to remember. -/
def diagnosis (engine : Engine) (f : Formula) : Except QueryError (List Formula) :=
  let units := Units.ofFormula engine.limits.cnfExplosionLimit f
  if units.whole.isEmpty then engine.coresByExtraction units.clauses
  else .ok (deletionCores units.formulas)

/-- The small forms and diagnoses in the cache are the answers for formulas asked about. -/
structure Faithful (engine : Engine) (asked : List Formula) (memory : Memory) : Prop where
  minimized : ∀ key form m, lookup? (key, form) memory.cache.minimized = some m →
    ∃ f ∈ asked, engine.fingerprint f = key ∧ engine.minimizeByCover form f = .ok m
  cores : ∀ key cores, lookup? key memory.cache.cores = some cores →
    ∃ f ∈ asked, engine.fingerprint f = key ∧ engine.diagnosis f = .ok cores

variable {engine : Engine} {asked held : List Formula} {memory next : Memory} {f : Formula}

namespace Faithful

theorem of_empty (empty : memory.cache = {}) : engine.Faithful asked memory := by
  constructor <;> intros <;> simp_all [lookup?]

theorem of_tables (faithful : engine.Faithful asked memory)
    (sameMinimized : next.cache.minimized = memory.cache.minimized)
    (sameCores : next.cache.cores = memory.cache.cores) : engine.Faithful asked next where
  minimized := sameMinimized ▸ faithful.minimized
  cores := sameCores ▸ faithful.cores

theorem storeMinimized (faithful : engine.Faithful asked memory) (isAsked : f ∈ asked)
    {form : TwoLevel} {m : Formula} (found : engine.minimizeByCover form f = .ok m)
    (sameMinimized : next.cache.minimized =
      ((engine.fingerprint f, form), m) :: memory.cache.minimized)
    (sameCores : next.cache.cores = memory.cache.cores) : engine.Faithful asked next where
  minimized key keyForm stored known := by
    rw [sameMinimized, lookup?_cons] at known
    split at known
    · rename_i same
      cases same
      cases known
      exact ⟨f, isAsked, rfl, found⟩
    · exact faithful.minimized key keyForm stored known
  cores := sameCores ▸ faithful.cores

theorem storeCores (faithful : engine.Faithful asked memory) (isAsked : f ∈ asked)
    {cores : List Formula} (found : engine.diagnosis f = .ok cores)
    (sameMinimized : next.cache.minimized = memory.cache.minimized)
    (sameCores : next.cache.cores = (engine.fingerprint f, cores) :: memory.cache.cores) :
    engine.Faithful asked next where
  minimized := sameMinimized ▸ faithful.minimized
  cores key stored known := by
    rw [sameCores, lookup?_cons] at known
    split at known
    · rename_i same
      cases known
      exact ⟨f, isAsked, same, found⟩
    · exact faithful.cores key stored known

end Faithful

/-- A memory that follows another one, true and faithful as well. -/
structure Stays (engine : Engine) (asked held : List Formula) (memory next : Memory) : Prop where
  follows : memory.Follows engine.fingerprint asked held next
  faithful : engine.Faithful asked next

section Questions

variable (truthful : memory.Truthful engine.fingerprint asked held)
  (faithful : engine.Faithful asked memory) (distinct : CollisionFree engine.fingerprint asked)

include truthful faithful distinct

/-- The verdict is the one by enumeration. -/
theorem gives_satisfiable {tree : Tree} (search : engine.SearchesInProcess)
    (known : tree.Known held)
    (numbered : tree.formula.MentionsOnly (Term.NumberedBelow memory.nextFree))
    (isAsked : tree.formula ∈ asked) :
    (engine.satisfiable tree).Gives memory (.ok tree.formula.satisfiableByEnumeration)
      (engine.Stays asked held memory) := by
  have keeps := keeps_satisfiable engine tree (fun cache => (cache.minimized, cache.cores))
    fun _ _ _ _ => rfl
  refine ((answers_satisfiable search truthful known numbered isAsked distinct).and
    (keeps memory)).mono ?_ fun _ _ failed => failed.1.elim
  rintro verdict next ⟨⟨exact, follows⟩, tables⟩
  obtain ⟨sameMinimized, sameCores⟩ := Prod.mk.inj tables
  refine ⟨congrArg _ ?_, follows, faithful.of_tables sameMinimized sameCores⟩
  rw [Bool.eq_iff_iff, exact, Formula.satisfiableByEnumeration_iff]

/-- A small form is the one found with nothing to remember. -/
theorem gives_minimize (inProcess : engine.MinimizesInProcess) (form : TwoLevel)
    (isAsked : f ∈ asked) :
    (engine.minimize form f).Gives memory (engine.minimized form f)
      (engine.Stays asked held memory) := by
  have start : engine.Stays asked held memory memory := ⟨truthful.follows, faithful⟩
  unfold minimize minimized
  dsimp only
  split
  · exact Query.ends_pure ⟨rfl, start⟩
  · split
    · exact Query.ends_pure ⟨rfl, start⟩
    · refine Query.ends_remembering (fun m stored => ?_) fun _ => ?_
      · obtain ⟨g, wasAsked, sameFingerprint, found⟩ := faithful.minimized _ _ m stored
        cases distinct g wasAsked f isAsked sameFingerprint
        exact ⟨found, (truthful.counting _ _).after (Nat.le_refl _), faithful.of_tables rfl rfl⟩
      · have missed := truthful.counting memory.cache.hits (memory.cache.misses + 1)
        cases found : engine.minimizeByCover form f with
        | ok m =>
          have equivalent := Finds.equivalent inProcess (.byCover found)
          exact ⟨rfl, (missed.storeMinimized isAsked form equivalent).after (Nat.le_refl _),
            faithful.storeMinimized isAsked found rfl rfl⟩
        | error failure => exact ⟨rfl, missed.after (Nat.le_refl _), faithful.of_tables rfl rfl⟩

omit faithful in
/-- Deletion goes the way it goes by enumeration, and leaves the tables as they are. -/
theorem answers_deletionCores {formulas : List Formula} (search : engine.SearchesInProcess)
    (asks : ∀ chosen : List Formula, chosen.Sublist formulas → Formula.allOf chosen ∈ asked)
    (numbered : ∀ f ∈ formulas, f.MentionsOnly (Term.NumberedBelow memory.nextFree)) :
    (engine.coreByDeletion formulas).Answers memory fun cores next =>
      cores = deletionCores formulas ∧ engine.Continues asked held memory next ∧
        next.cache.minimized = memory.cache.minimized := by
  have exact : ∀ places, places.Sublist (List.range formulas.length) → ∀ middle,
      engine.Continues asked held memory middle ∧
        middle.cache.minimized = memory.cache.minimized →
      (engine.unsatisfiable (Tree.passing (conjoin formulas places))).Answers middle
        fun verdict next => verdict = unsatTogether formulas places ∧
          engine.Continues asked held memory next ∧
            next.cache.minimized = memory.cache.minimized := by
    rintro places within middle ⟨continues, same⟩
    have keeps := keeps_unsatisfiable engine (Tree.passing (conjoin formulas places))
      Cache.minimized fun _ _ _ _ => rfl
    refine ((answers_together held search distinct asks numbered places within middle
      continues).and (keeps middle)).mono ?_ fun _ _ => And.left
    rintro verdict next ⟨⟨decided, continuesNext⟩, sameNext⟩
    exact ⟨decided, continuesNext, sameNext.trans same⟩
  have start : engine.Continues asked held memory memory := ⟨truthful.follows, rfl⟩
  unfold deletionCores
  refine (exact _ (List.Sublist.refl _) memory ⟨start, rfl⟩).bind ?_
  rintro verdict next ⟨rfl, continues⟩
  dsimp only
  split
  · refine (answers_shrinkFrom exact (List.Sublist.refl _) continues).bind ?_
    rintro _ last ⟨rfl, continuesLast⟩
    exact Query.ends_pure ⟨rfl, continuesLast⟩
  · exact Query.ends_pure ⟨rfl, continues⟩

/-- A diagnosis is the one found with nothing to remember. -/
theorem gives_cores (search : engine.SearchesInProcess) (isAsked : f ∈ asked)
    (asks : ∀ question, (Units.ofFormula engine.limits.cnfExplosionLimit f).Asks question →
      question ∈ asked)
    (numbered : f.MentionsOnly (Term.NumberedBelow memory.nextFree)) :
    (engine.cores f).Gives memory (engine.diagnosis f) (engine.Stays asked held memory) := by
  rw [cores_eq]
  refine Query.ends_remembering (fun cores stored => ?_) fun _ => ?_
  · obtain ⟨g, wasAsked, sameFingerprint, found⟩ := faithful.cores _ cores stored
    cases distinct g wasAsked f isAsked sameFingerprint
    exact ⟨found, (truthful.counting _ _).after (Nat.le_refl _), faithful.of_tables rfl rfl⟩
  · have missed := truthful.counting memory.cache.hits (memory.cache.misses + 1)
    have gives : (engine.diagnose f).Gives
        { memory with cache := { memory.cache with misses := memory.cache.misses + 1 } }
        (engine.diagnosis f) fun next =>
          memory.Follows engine.fingerprint asked held next ∧
            next.cache.minimized = memory.cache.minimized ∧
            next.cache.cores = memory.cache.cores := by
      unfold diagnose diagnosis
      dsimp only
      split
      · exact Query.gives_lift ⟨missed.after (Nat.le_refl _), rfl, rfl⟩
      · rename_i notEmpty
        have someWhole := fun noneWhole => notEmpty (List.isEmpty_iff.mpr noneWhole)
        refine (answers_deletionCores missed distinct search
          (fun chosen sub => asks _ ⟨someWhole, chosen, sub, rfl⟩)
          fun unit member => Units.mentionsOnly_formulas numbered member).mono ?_
            fun _ _ => False.elim
        rintro cores next ⟨rfl, ⟨follows, sameCores⟩, sameMinimized⟩
        exact ⟨rfl, follows.of_later (Nat.le_refl _) (List.prefix_refl held), sameMinimized,
          sameCores⟩
    refine gives.mono ?_ ?_
    · rintro cores next ⟨found, ⟨counts, later, grown, truthfulNext⟩, sameMinimized, sameCores⟩
      refine ⟨found, ⟨counts, later, grown, ?_⟩, ?_⟩
      · exact ⟨truthfulNext.counted, truthfulNext.notes, truthfulNext.verdicts,
          truthfulNext.minimized⟩
      · exact faithful.storeCores isAsked found sameMinimized (congrArg _ sameCores)
    · rintro failure next ⟨found, follows, sameMinimized, sameCores⟩
      exact ⟨found, follows, faithful.of_tables sameMinimized sameCores⟩

end Questions

end Engine

end IsaLogic
