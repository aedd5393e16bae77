import Mathlib
import IsaLogic.Proofs.Engine.Transparency
import IsaLogic.Proofs.Formula.Knowledge

/-!
# No operation invents terms

Whatever a rewriting, a minimization or a diagnosis makes of a formula has terms of the
formula only (`MadeFrom.mentionsOnly`). The two forms for a solver may have more terms, but
only synthetic variables with numbers that the formula stays below (`AddsOnlyNew`). Since
such a form is noted and handed out again later, this is a property of memories as well
(`Memory.NotesNew`), which every question keeps.
-/

namespace IsaLogic

namespace Formula

variable {f g : Formula} {next : Nat}

/-- The terms of one formula are terms of another one or synthetic variables, numbered from a number
on that the other formula stays below. -/
def AddsOnlyNew (f g : Formula) : Prop :=
  ∃ low, f.MentionsOnly (Term.NumberedBelow low) ∧
    ∀ t ∈ g.terms, t ∈ f.terms ∨ ∃ number, low ≤ number ∧ t = .free number

theorem AddsOnlyNew.of_mentionsOnly (numbered : f.MentionsOnly (Term.NumberedBelow next))
    (mentions : g.MentionsOnly (· ∈ f.occurrences)) : f.AddsOnlyNew g :=
  ⟨next, numbered, fun t occurs => .inl (mem_terms.mpr (mentions t (mem_terms.mp occurs)))⟩

/-- The encoding adds only variables that it numbers itself. -/
theorem addsOnlyNew_tseytin (numbered : f.MentionsOnly (Term.NumberedBelow next)) :
    f.AddsOnlyNew (f.tseytin next).1 := by
  have prepared : f.nnf.reduce.flatten.MentionsOnly (· ∈ f.occurrences) :=
    mentionsOnly_flatten (mentionsOnly_reduce (mentionsOnly_nnf fun _ => id))
  unfold tseytin
  dsimp only
  split
  · exact .of_mentionsOnly numbered prepared
  · have encodes := encodesOne_encode (isNnf_flatten (isNnf_reduce (isNnf_nnf f))) next
    refine ⟨next, numbered, fun t occurs => ?_⟩
    obtain ⟨clause, member, literal, inside, rfl⟩ :=
      (mem_occurrences_ofGroups .conjunctive).mp (mem_terms.mp occurs)
    have mentioned : literal ∈ [(encode f.nnf.reduce.flatten next).literal] ∨
        ∃ clause ∈ (encode f.nnf.reduce.flatten next).clauses, literal ∈ clause := by
      rcases List.mem_append.mp member with defining | asserting
      · exact .inr ⟨clause, defining, inside⟩
      · rw [List.mem_singleton.mp asserting] at inside
        exact .inl inside
    rcases encodes.terms literal mentioned with ⟨h, isPrepared, occursThere⟩ | ⟨number, isNew, _, is⟩
    · rw [List.mem_singleton.mp isPrepared] at occursThere
      exact .inl (mem_terms.mpr (prepared _ occursThere))
    · exact .inr ⟨number, isNew, is⟩

/-- A formula read off cubes has terms of the cubes only. -/
theorem mentionsOnly_coverFormula (terms : List Term) (form : TwoLevel) (cubes : List Cube) :
    (coverFormula terms form cubes).MentionsOnly (· ∈ terms) := by
  have inTerms : ∀ complement, ∀ cube : Cube, ∀ literal ∈ cube.toLiterals terms complement,
      literal.term ∈ terms := by
    intro complement cube literal member
    obtain ⟨⟨entry, term⟩, isPair, isLiteral⟩ := List.mem_filterMap.mp member
    obtain ⟨value, _, rfl⟩ := Option.map_eq_some_iff.mp isLiteral
    exact (List.of_mem_zip isPair).2
  intro t occurs
  rw [Cube.coverFormula_eq] at occurs
  obtain ⟨group, isGroup, literal, inside, rfl⟩ := (mem_occurrences_ofGroups form).mp occurs
  obtain ⟨cube, _, rfl⟩ := List.mem_map.mp isGroup
  exact inTerms _ cube literal inside

theorem mentionsOnly_minimizeExact (form : TwoLevel) (f : Formula) :
    (f.minimizeExact form).MentionsOnly (· ∈ f.occurrences) := fun t occurs =>
  mem_terms.mp (mentionsOnly_coverFormula f.terms form _ t occurs)

end Formula

/-- What a question has answered is among the answers it may end with. -/
theorem Query.Ends.answered {α : Type} {query : Query α} {memory next : Memory} {answer : α}
    {answers : α → Memory → Prop} {fails : QueryError → Memory → Prop}
    (ends : query.Ends memory answers fails) (run : query.run memory = (.ok answer, next)) :
    answers answer next := by
  unfold Ends at ends
  rwa [run] at ends

namespace Engine

section

variable {engine : Engine} {form : TwoLevel} {f m : Formula}

theorem mentionsOnly_minimizeByCover (found : engine.minimizeByCover form f = .ok m) :
    m.MentionsOnly (· ∈ f.occurrences) := by
  unfold minimizeByCover at found
  cases given : engine.limits.inputCover form f with
  | error failure => rw [given] at found; cases found
  | ok cubes =>
    rw [given] at found
    change (engine.minimizeCover _ >>= _) = _ at found
    cases covered : engine.minimizeCover (Pla.ofLabels (f.terms.map Term.identifier) cubes) with
    | error failure => rw [covered] at found; cases found
    | ok cover =>
      rw [covered] at found
      dsimp only [bind, Except.bind] at found
      split at found
      · cases found
      · cases found
        exact fun t occurs =>
          Formula.mem_terms.mp (Formula.mentionsOnly_coverFormula f.terms form _ t occurs)

theorem Finds.mentionsOnly (finds : engine.Finds form f m) : m.MentionsOnly (· ∈ f.occurrences) := by
  cases finds with
  | exactly => exact Formula.mentionsOnly_minimizeExact form f
  | flattened => exact Formula.mentionsOnly_flatten fun _ => id
  | byCover found => exact mentionsOnly_minimizeByCover found

/-- Minimization gives terms of the formula, also from the cache of an engine that is faithful. -/
theorem ends_minimize_mentionsOnly {asked : List Formula} {memory : Memory}
    (faithful : engine.Faithful asked memory) (distinct : CollisionFree engine.fingerprint asked)
    (isAsked : f ∈ asked) (form : TwoLevel) :
    (engine.minimize form f).Ends memory (fun m _ => m.MentionsOnly (· ∈ f.occurrences))
      fun _ _ => True := by
  refine ends_minimize_finds (fun m finds => finds.mentionsOnly) (fun m stored => ?_)
    (fun _ m found => mentionsOnly_minimizeByCover found) fun _ _ => trivial
  obtain ⟨other, wasAsked, sameFingerprint, found⟩ := faithful.minimized _ _ m stored
  cases distinct other wasAsked f isAsked sameFingerprint
  exact mentionsOnly_minimizeByCover found

end

/-- The formulas that rewritings make of a formula, and those that engines find for it. -/
inductive MadeFrom (f : Formula) : Formula → Prop where
  | flatten : MadeFrom f f.flatten
  | reduce : MadeFrom f f.reduce
  | nnf : MadeFrom f f.nnf
  | binary : MadeFrom f f.binary
  | twoLevel {form : TwoLevel} {limit : Option Nat} {g : Formula}
      (within : f.equivalentForm form limit = .ok g) : MadeFrom f g
  | exactly (form : TwoLevel) : MadeFrom f (f.minimizeExact form)
  | evaluated (known : Term → Verdict) : MadeFrom f (f.partialEvaluate known)
  | minimized {engine : Engine} {form : TwoLevel} {asked : List Formula} {memory next : Memory}
      {m : Formula} (faithful : engine.Faithful asked memory)
      (distinct : CollisionFree engine.fingerprint asked) (isAsked : f ∈ asked)
      (answered : (engine.minimize form f).run memory = (.ok m, next)) : MadeFrom f m
  | core {engine : Engine} {asked held : List Formula} {memory next : Memory}
      {cores : List Formula} {core : Formula} (search : engine.SearchesInProcess)
      (extracts : engine.ExtractsInProcess) (prepared : engine.Prepared asked held memory f)
      (answered : (engine.cores f).run memory = (.ok cores, next)) (member : core ∈ cores) :
      MadeFrom f core

/-- One case for each operation: no term is new. -/
theorem MadeFrom.mentionsOnly {f g : Formula} (made : MadeFrom f g) :
    g.MentionsOnly (· ∈ f.occurrences) := by
  have self : f.MentionsOnly (· ∈ f.occurrences) := fun _ => id
  cases made with
  | flatten => exact Formula.mentionsOnly_flatten self
  | reduce => exact Formula.mentionsOnly_reduce self
  | nnf => exact Formula.mentionsOnly_nnf self
  | binary => exact Formula.mentionsOnly_binary self
  | twoLevel within => exact (Formula.equivalentForm_ok within).2.2
  | exactly form => exact Formula.mentionsOnly_minimizeExact form f
  | evaluated known => exact Formula.mentionsOnly_partialEvaluate known self
  | minimized faithful distinct isAsked answered =>
    exact (ends_minimize_mentionsOnly faithful distinct isAsked _).answered answered
  | core search extracts prepared answered member =>
    obtain ⟨⟨explains, -⟩, -⟩ := (ends_cores search extracts prepared).answered answered
    exact (explains.isCore _ member).mentionsOnly self

end Engine

/-- The forms noted of formulas add only new variables to them. -/
structure Memory.NotesNew (held : List Formula) (memory : Memory) : Prop where
  counted : memory.nextTree = held.length
  forms : ∀ key notes cnf, lookup? key memory.notes = some notes → notes.cnf = some cnf →
    ∃ f, key.formula? held = some f ∧ f.AddsOnlyNew cnf.formula

/-- A memory that comes after another one and whose noted forms add only new variables as well. -/
def Memory.StaysNew (held : List Formula) (memory next : Memory) : Prop :=
  memory.nextFree ≤ next.nextFree ∧ ∃ later, held <+: later ∧ next.NotesNew later

section Notes

variable {held later : List Formula} {memory middle next : Memory} {tree : Tree}

namespace Memory

theorem NotesNew.initial : ({} : Memory).NotesNew [] where
  counted := rfl
  forms _ _ _ noted := nomatch noted

theorem NotesNew.of_notes (new : memory.NotesNew held) (sameNotes : next.notes = memory.notes)
    (sameTree : next.nextTree = memory.nextTree) : next.NotesNew held where
  counted := sameTree.trans new.counted
  forms := sameNotes ▸ new.forms

theorem NotesNew.stays (new : next.NotesNew held) (counts : memory.nextFree ≤ next.nextFree) :
    memory.StaysNew held next :=
  ⟨counts, held, List.prefix_refl held, new⟩

theorem StaysNew.caching (stays : memory.StaysNew held next) (cache : Cache) :
    memory.StaysNew held { next with cache } := by
  obtain ⟨counts, later, grown, new⟩ := stays
  exact ⟨counts, later, grown, new.of_notes rfl rfl⟩

theorem StaysNew.of_later (stays : middle.StaysNew later next)
    (counts : memory.nextFree ≤ middle.nextFree) (grown : held <+: later) :
    memory.StaysNew held next := by
  obtain ⟨moreCounts, latest, moreGrown, new⟩ := stays
  exact ⟨Nat.le_trans counts moreCounts, latest, grown.trans moreGrown, new⟩

end Memory

namespace Query

/-- The form noted of a tree. -/
theorem answers_notes_new (new : memory.NotesNew held) (known : tree.Known held) :
    (notes tree).Answers memory fun noted next =>
      next = memory ∧ ∀ cnf, noted.cnf = some cnf → tree.formula.AddsOnlyNew cnf.formula := by
  refine ends_get_bind (ends_pure ⟨rfl, fun cnf isNoted => ?_⟩)
  cases isKey : tree.key with
  | none => simp [isKey] at isNoted
  | some key =>
    cases found : lookup? key memory.notes with
    | none => simp [isKey, found] at isNoted
    | some noted =>
      rw [isKey, Option.bind_some, found, Option.getD_some] at isNoted
      obtain ⟨f, behind, adds⟩ := new.forms key noted cnf found isNoted
      cases behind.symm.trans (known key isKey)
      exact adds

/-- Changing the notes of a tree, but its form at most to one that adds only new variables. -/
theorem answers_note_new (new : memory.NotesNew held) (known : tree.Known held)
    {change : Notes → Notes}
    (keeps : ∀ noted cnf, (change noted).cnf = some cnf →
      noted.cnf = some cnf ∨ tree.formula.AddsOnlyNew cnf.formula) :
    (note tree change).Answers memory fun _ next =>
      next.nextFree = memory.nextFree ∧ next.NotesNew held := by
  change _ ∧ _
  cases isKey : tree.key with
  | none => exact ⟨rfl, new⟩
  | some key =>
    refine ⟨rfl, new.counted, fun other noted cnf found isNoted => ?_⟩
    rw [lookup?_cons] at found
    split at found
    · rename_i same
      cases found
      subst same
      refine ⟨tree.formula, known _ isKey, ?_⟩
      rcases keeps _ cnf isNoted with before | adds
      · cases old : lookup? key memory.notes with
        | none => simp [old] at before
        | some noted =>
          rw [old, Option.getD_some] at before
          obtain ⟨f, behind, adds⟩ := new.forms key noted cnf old before
          cases behind.symm.trans (known key isKey)
          exact adds
      · exact adds
    · rename_i differs
      rw [lookup?_filter_ne (Ne.symm differs)] at found
      exact new.forms other noted cnf found isNoted

/-- Holding on to a formula, of which nothing is noted yet. -/
theorem answers_hold_new (new : memory.NotesNew held) (formula : Formula) :
    (hold formula).Answers memory fun tree next =>
      tree.formula = formula ∧ next.nextFree = memory.nextFree ∧
        ∃ later, held <+: later ∧ next.NotesNew later := by
  unfold hold
  split
  · exact ⟨rfl, rfl, held, List.prefix_refl held, new⟩
  · refine ⟨rfl, rfl, held ++ [formula], List.prefix_append .., by simp [new.counted], ?_⟩
    intro key noted cnf found isNoted
    obtain ⟨f, behind, adds⟩ := new.forms key noted cnf found isNoted
    exact ⟨f, NoteKey.formula?_mono (List.prefix_append ..) behind, adds⟩

end Query

/-- The form that an engine makes for the solver adds only new variables. -/
theorem Limits.addsOnlyNew_equisatisfiable (limits : Limits) {f : Formula} {next : Nat}
    (numbered : f.MentionsOnly (Term.NumberedBelow next)) :
    f.AddsOnlyNew (limits.equisatisfiable f next).1 := by
  have encoded := Formula.addsOnlyNew_tseytin numbered
  rcases limits.equisatisfiable_cases f next with ⟨_, g, within, made⟩ | ⟨_, _, _, made⟩ | ⟨_, made⟩
  · rw [made]
    exact .of_mentionsOnly numbered (Formula.equivalentForm_ok within).2.2
  · rwa [made]
  · rwa [made]

namespace Engine

variable {engine : Engine} {f : Formula}

/-- The form for the solver, whether noted or made, adds only new variables. -/
theorem answers_equisatCnf_new (new : memory.NotesNew held) (known : tree.Known held)
    (numbered : tree.formula.MentionsOnly (Term.NumberedBelow memory.nextFree)) :
    (engine.equisatCnf tree).Answers memory fun cnf next =>
      tree.formula.AddsOnlyNew cnf.formula ∧ memory.StaysNew held next := by
  have noting : ∀ (cnf : Tree) (middle : Memory), tree.formula.AddsOnlyNew cnf.formula →
      memory.StaysNew held middle → (do
        Query.note tree fun notes => { notes with cnf := some cnf }
        return cnf : Query Tree).Answers middle fun cnf next =>
          tree.formula.AddsOnlyNew cnf.formula ∧ memory.StaysNew held next := by
    rintro cnf middle adds ⟨counts, later, grown, newMiddle⟩
    refine (Query.answers_note_new newMiddle (known.mono grown) fun noted other isForm => ?_).bind ?_
    · cases isForm
      exact .inr adds
    · rintro _ next ⟨sameNext, newNext⟩
      exact ⟨adds, sameNext ▸ counts, later, grown, newNext⟩
  refine (Query.answers_notes_new new known).bind ?_
  rintro noted middle ⟨same, forms⟩
  subst same
  cases isNoted : noted.cnf with
  | some cnf => exact ⟨forms cnf isNoted, new.stays (Nat.le_refl _)⟩
  | none =>
    dsimp only
    split
    · exact noting tree _ (.of_mentionsOnly numbered fun _ => id) (new.stays (Nat.le_refl _))
    · have adds := engine.limits.addsOnlyNew_equisatisfiable numbered
      obtain ⟨-, grows, -⟩ := engine.limits.equisatisfiable_form numbered
      have numbering : (Query.numbering (engine.limits.equisatisfiable tree.formula)).Answers middle
          fun made next => made = (engine.limits.equisatisfiable tree.formula middle.nextFree).1 ∧
            middle.nextFree ≤ next.nextFree ∧ next.NotesNew held :=
        ⟨rfl, grows, new.of_notes rfl rfl⟩
      refine numbering.bind ?_
      rintro _ counted ⟨rfl, counts, newCounted⟩
      refine (Query.answers_hold_new newCounted _).bind ?_
      rintro cnf last ⟨isFormula, sameNext, later, grown, newLast⟩
      exact noting cnf last (isFormula ▸ adds) ⟨sameNext ▸ counts, later, grown, newLast⟩

/-- What the library decides without the memory leaves the memory as it is. -/
theorem ends_lift_new {α : Type} (result : Except QueryError α) (stays : memory.StaysNew held middle) :
    (liftM result : Query α).Ends middle (fun _ => memory.StaysNew held)
      fun _ => memory.StaysNew held := by
  cases result with
  | ok answer => exact stays
  | error failure => exact stays

/-- Asking the solver notes one form at most. -/
theorem ends_askSolver_new (new : memory.NotesNew held) (known : tree.Known held)
    (numbered : tree.formula.MentionsOnly (Term.NumberedBelow memory.nextFree)) :
    (engine.askSolver tree).Ends memory (fun _ => memory.StaysNew held)
      fun _ => memory.StaysNew held := by
  refine ((answers_equisatCnf_new new known numbered).mono (fun _ _ => And.right)
    fun _ _ => False.elim).bind fun cnf next stays => ?_
  refine (ends_lift_new _ stays).bind fun encoding next stays => ?_
  refine (ends_lift_new _ stays).bind fun result next stays => ?_
  exact Query.ends_pure stays

/-- Deciding satisfiability notes no other forms. -/
theorem ends_satisfiable_new (new : memory.NotesNew held) (known : tree.Known held)
    (numbered : tree.formula.MentionsOnly (Term.NumberedBelow memory.nextFree)) :
    (engine.satisfiable tree).Ends memory (fun _ => memory.StaysNew held)
      fun _ => memory.StaysNew held := by
  have start : memory.StaysNew held memory := new.stays (Nat.le_refl _)
  refine ((Query.answers_notes_new new known).mono (fun _ _ => id) fun _ _ => False.elim).bind ?_
  rintro noted middle ⟨same, -⟩
  subst same
  split
  · exact Query.ends_pure start
  · exact Query.ends_pure start
  · split
    · have noting : (Query.note tree fun notes =>
          { notes with verdict := some tree.formula.satisfiableByEnumeration }).Answers middle
          fun _ next => next.nextFree = middle.nextFree ∧ next.NotesNew held :=
        Query.answers_note_new new known fun _ _ => .inl
      refine (noting.mono (fun _ _ => id) fun _ _ => False.elim).bind ?_
      rintro _ next ⟨sameNext, newNext⟩
      exact Query.ends_pure (newNext.stays (Nat.le_of_eq sameNext.symm))
    · refine Query.ends_remembering (fun _ _ => start.caching _) fun _ => ?_
      have missed : Memory.NotesNew held
          { middle with cache := { middle.cache with misses := middle.cache.misses + 1 } } :=
        new.of_notes rfl rfl
      exact (ends_askSolver_new missed known numbered).mono
        (fun _ next stays => (stays.of_later (Nat.le_refl _) (List.prefix_refl held)).caching _)
        fun _ _ stays => stays.of_later (Nat.le_refl _) (List.prefix_refl held)

/-- Deletion keeps what each of its questions keeps. -/
theorem ends_shrinkFrom {unsat : List Nat → Query Bool} {invariant : Memory → Prop}
    (each : ∀ places memory, invariant memory →
      (unsat places).Ends memory (fun _ => invariant) fun _ => invariant)
    {kept left : List Nat} (starts : invariant memory) :
    (Core.shrinkFrom unsat kept left).Ends memory (fun _ => invariant) fun _ => invariant := by
  induction left generalizing kept memory with
  | nil => exact Query.ends_pure starts
  | cons place left ih =>
    refine (each (kept ++ left) memory starts).bind fun verdict next continues => ?_
    split
    · exact ih continues
    · exact ih continues

/-- Diagnosing notes no other forms. -/
theorem ends_cores_new (new : memory.NotesNew held)
    (numbered : f.MentionsOnly (Term.NumberedBelow memory.nextFree)) :
    (engine.cores f).Ends memory (fun _ => memory.StaysNew held) fun _ => memory.StaysNew held := by
  have start : memory.StaysNew held memory := new.stays (Nat.le_refl _)
  rw [cores_eq]
  refine Query.ends_remembering (fun _ _ => start.caching _) fun _ => ?_
  have diagnosing : (engine.diagnose f).Ends
      { memory with cache := { memory.cache with misses := memory.cache.misses + 1 } }
      (fun _ => memory.StaysNew held) fun _ => memory.StaysNew held := by
    unfold diagnose
    dsimp only
    split
    · exact ends_lift_new _ (start.caching _)
    · generalize isUnits : (Units.ofFormula engine.limits.cnfExplosionLimit f).formulas = units
      have each : ∀ places middle, memory.StaysNew held middle →
          (engine.unsatisfiable (Tree.passing (conjoin units places))).Ends middle
            (fun _ => memory.StaysNew held) fun _ => memory.StaysNew held := by
        rintro places middle ⟨counts, later, grown, newMiddle⟩
        have numberedLater : (conjoin units places).MentionsOnly
            (Term.NumberedBelow middle.nextFree) := by
          refine (Formula.mentionsOnly_allOf _).mpr fun unit member term occurs => ?_
          have isUnit := mem_of_mem_chosen member
          rw [← isUnits] at isUnit
          exact (Units.mentionsOnly_formulas numbered isUnit term occurs).mono counts
        refine ((ends_satisfiable_new newMiddle (Tree.known_passing later _) numberedLater).mono
          (fun _ _ stays => stays.of_later counts grown)
          fun _ _ stays => stays.of_later counts grown).bind fun verdict next stays => ?_
        exact Query.ends_pure stays
      refine (each _ _ (start.caching _)).bind fun verdict next stays => ?_
      split
      · refine (ends_shrinkFrom each stays).bind fun places last stays => ?_
        exact Query.ends_pure stays
      · exact Query.ends_pure stays
  exact diagnosing.mono (fun _ next stays => stays.caching _) fun _ _ => id

/-- Minimizing notes nothing. -/
theorem ends_minimize_new (new : memory.NotesNew held) (form : TwoLevel) :
    (engine.minimize form f).Ends memory (fun _ => memory.StaysNew held)
      fun _ => memory.StaysNew held := by
  have start : memory.StaysNew held memory := new.stays (Nat.le_refl _)
  exact ends_minimize_finds (fun _ _ => start) (fun _ _ => start.caching _)
    (fun _ _ _ => start.caching _) fun _ _ => start.caching _

/-- No operation invents terms: what rewritings, minimization and diagnosis make of a formula has
terms of the formula only, so without synthetic variables in it there are none in the result. The
two forms for a solver add only synthetic variables that do not occur in the formula; this holds of
a form that was noted before, since every question keeps it so. -/
theorem terms_not_invented (f : Formula) :
    (∀ g, MadeFrom f g →
      g.terms ⊆ f.terms ∧ (f.hasFreeTerms = false → g.hasFreeTerms = false)) ∧
    (∀ next, f.MentionsOnly (Term.NumberedBelow next) → f.AddsOnlyNew (f.tseytin next).1) ∧
    ({} : Memory).NotesNew [] ∧
    ∀ (engine : Engine) (held : List Formula) (memory : Memory), memory.NotesNew held →
      f.MentionsOnly (Term.NumberedBelow memory.nextFree) →
      (∀ key, Tree.Known held { formula := f, key } →
        ((engine.equisatCnf { formula := f, key }).Answers memory fun cnf next =>
          f.AddsOnlyNew cnf.formula ∧ memory.StaysNew held next) ∧
        (engine.satisfiable { formula := f, key }).Ends memory (fun _ => memory.StaysNew held)
          fun _ => memory.StaysNew held) ∧
      (∀ form, (engine.minimize form f).Ends memory (fun _ => memory.StaysNew held)
        fun _ => memory.StaysNew held) ∧
      (engine.cores f).Ends memory (fun _ => memory.StaysNew held)
        fun _ => memory.StaysNew held := by
  refine ⟨fun g made => ?_, fun next => Formula.addsOnlyNew_tseytin, .initial,
    fun engine held memory new numbered => ⟨fun key known => ?_, ends_minimize_new new,
      ends_cores_new new numbered⟩⟩
  · have inside : g.terms ⊆ f.terms := fun t occurs =>
      Formula.mem_terms.mpr (made.mentionsOnly t (Formula.mem_terms.mp occurs))
    refine ⟨inside, fun none => ?_⟩
    rw [Formula.hasFreeTerms, List.any_eq_false] at none ⊢
    exact fun t occurs => none t (inside occurs)
  · exact ⟨answers_equisatCnf_new new known numbered, ends_satisfiable_new new known numbered⟩

/-- The engine that may not multiply out, on a formula that needs a synthetic variable. -/
theorem terms_not_invented_encoded :
    let engine := inProcess { tseytinTermThreshold := 0 }
    let f := Formula.exactlyOne [.atom (.xlen .rv32), .atom (.xlen .rv64)]
    f.MentionsOnly (Term.NumberedBelow 0) ∧ f.AddsOnlyNew (f.tseytin 0).1 ∧
      ((engine.equisatCnf (Tree.passing f)).Answers {} fun cnf _ => f.AddsOnlyNew cnf.formula) ∧
      f.nnf.hasFreeTerms = false := by
  intro engine f
  have numbered : f.MentionsOnly (Term.NumberedBelow 0) := by simp [f, Term.NumberedBelow]
  have noneFree : f.hasFreeTerms = false := by cbv
  obtain ⟨made, encoded, initial, asked⟩ := terms_not_invented f
  refine ⟨numbered, encoded 0 numbered, ?_, (made f.nnf .nnf).2 noneFree⟩
  obtain ⟨forms, -⟩ := asked engine [] {} initial numbered
  exact (forms none (Tree.known_passing [] f)).1.mono (fun _ _ => And.left) fun _ _ => id

end Engine

end Notes

end IsaLogic
