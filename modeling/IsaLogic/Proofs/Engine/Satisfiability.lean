import IsaLogic.Engine.Satisfiability
import IsaLogic.Proofs.Cnf.Encoding
import IsaLogic.Proofs.Engine.Memory

/-!
# Engines decide satisfiability

An engine that searches in process answers every question about satisfiability,
equivalence and implication, and its answers are exact, whatever its limits are and
whichever algorithm they choose. Each algorithm is exact on its own: enumeration,
and the search on each of the conjunctive forms that a formula is given
(`SearchForm`). A question also leaves a memory that is true again, so questions can
follow each other.
-/

namespace IsaLogic

/-- The conjunctive forms on which the search decides a formula: its own, an equivalent
one, or one with variables numbered from `next`. -/
inductive SearchForm (next : Nat) (f : Formula) : Formula → Prop where
  | own (flat : f.isCnf = true) : SearchForm next f f
  | distributed {limit : Option Nat} {g : Formula}
      (within : f.equivalentForm .conjunctive limit = .ok g) : SearchForm next f g
  | encoded : SearchForm next f (f.tseytin next).1

namespace SearchForm

variable {next : Nat} {f g : Formula}

theorem isCnf (form : SearchForm next f g) : g.isCnf = true := by
  cases form with
  | own flat => exact flat
  | distributed within => exact (Formula.equivalentForm_ok within).1
  | encoded => exact Formula.isCnf_tseytin f next

theorem satisfiable_iff (form : SearchForm next f g)
    (numbered : f.MentionsOnly (Term.NumberedBelow next)) : g.Satisfiable ↔ f.Satisfiable := by
  cases form with
  | own flat => rfl
  | distributed within => exact (Formula.equivalentForm_ok within).2.1.satisfiable_iff
  | encoded => exact Formula.satisfiable_tseytin_iff numbered

/-- The search on any of the forms gives the verdict that enumeration gives. -/
theorem solve_eq_enumeration (form : SearchForm next f g)
    (numbered : f.MentionsOnly (Term.NumberedBelow next)) :
    ∃ encoding, Encoding.ofFormula g = .ok encoding ∧
      encoding.cnf.solve.isSatisfiable = f.satisfiableByEnumeration := by
  obtain ⟨encoding, encoded, exact⟩ := Encoding.solve_ofFormula form.isCnf
  refine ⟨encoding, encoded, ?_⟩
  rw [Bool.eq_iff_iff, exact, form.satisfiable_iff numbered, f.satisfiableByEnumeration_iff]

end SearchForm

/-- A small formula has an equivalent form or one that would be too large; nothing else keeps it
from having one. A formula without one is encoded. -/
theorem Limits.equisatisfiable_cases (limits : Limits) (f : Formula) (next : Nat) :
    (limits.allowsDistribution f = true ∧ ∃ g,
      f.equivalentForm .conjunctive (some limits.cnfExplosionLimit) = .ok g ∧
      limits.equisatisfiable f next = (g, next)) ∨
    (limits.allowsDistribution f = true ∧ ∃ count,
      f.equivalentForm .conjunctive (some limits.cnfExplosionLimit) =
        .error (.sizeExplosion count limits.cnfExplosionLimit) ∧
      limits.equisatisfiable f next = f.tseytin next) ∨
    limits.allowsDistribution f = false ∧ limits.equisatisfiable f next = f.tseytin next := by
  unfold equisatisfiable
  cases limits.allowsDistribution f with
  | false => exact .inr (.inr ⟨rfl, rfl⟩)
  | true =>
    rcases f.equivalentForm_cases .conjunctive limits.cnfExplosionLimit with
      ⟨g, within⟩ | ⟨count, oversized⟩
    · exact .inl ⟨rfl, g, within, by rw [within]; rfl⟩
    · exact .inr (.inl ⟨rfl, count, oversized, by rw [oversized]; rfl⟩)

/-- The form an engine makes is one of the forms to search, with numbers given out. -/
theorem Limits.equisatisfiable_form (limits : Limits) {f : Formula} {next : Nat}
    (numbered : f.MentionsOnly (Term.NumberedBelow next)) :
    SearchForm next f (limits.equisatisfiable f next).1 ∧
      next ≤ (limits.equisatisfiable f next).2 ∧
      (limits.equisatisfiable f next).1.MentionsOnly
        (Term.NumberedBelow (limits.equisatisfiable f next).2) := by
  have encoded : SearchForm next f (f.tseytin next).1 ∧ next ≤ (f.tseytin next).2 ∧
      (f.tseytin next).1.MentionsOnly (Term.NumberedBelow (f.tseytin next).2) :=
    ⟨.encoded, Formula.le_tseytin f next, Formula.mentionsOnly_tseytin numbered⟩
  rcases limits.equisatisfiable_cases f next with
    ⟨_, g, within, made⟩ | ⟨_, _, _, made⟩ | ⟨_, made⟩
  · rw [made]
    exact ⟨.distributed within, Nat.le_refl next,
      fun t occurs => numbered t ((Formula.equivalentForm_ok within).2.2 t occurs)⟩
  · rwa [made]
  · rwa [made]

namespace Engine

/-- The engine's solver is the search. -/
def SearchesInProcess (engine : Engine) : Prop := ∀ cnf, engine.solve cnf = .ok cnf.solve

section

variable {engine : Engine} {asked held : List Formula} {memory : Memory} {tree : Tree}

/-- A memory that follows another one, together with a form of a formula for the solver. -/
def FormFollows (engine : Engine) (asked held : List Formula) (memory : Memory) (f : Formula)
    (cnf : Tree) (next : Memory) : Prop :=
  memory.nextFree ≤ next.nextFree ∧ ∃ later, held <+: later ∧
    SolverForm later next.nextFree f cnf ∧ next.Truthful engine.fingerprint asked later

theorem FormFollows.follows {f : Formula} {cnf : Tree} {next : Memory}
    (follows : engine.FormFollows asked held memory f cnf next) :
    memory.Follows engine.fingerprint asked held next := by
  obtain ⟨counts, later, grown, _, truthful⟩ := follows
  exact ⟨counts, later, grown, truthful⟩

/-- Noting the form of a tree. -/
theorem answers_note_cnf {cnf : Tree} {next : Memory} (known : tree.Known held)
    (follows : engine.FormFollows asked held memory tree.formula cnf next) :
    (do
      Query.note tree fun notes => { notes with cnf := some cnf }
      return cnf : Query Tree).Answers next
        (engine.FormFollows asked held memory tree.formula) := by
  obtain ⟨counts, later, grown, form, truthful⟩ := follows
  refine (Query.answers_note truthful (known.mono grown) ?_).bind ?_
  · intro noted truthfulNoted
    refine ⟨truthfulNoted.verdict, ?_⟩
    rintro _ ⟨⟩
    exact form
  · rintro _ last ⟨sameNext, truthfulLast⟩
    refine ⟨sameNext ▸ counts, later, grown, ?_, truthfulLast⟩
    rw [sameNext]
    exact form

/-- The conjunctive form of a tree, made or noted. -/
theorem answers_equisatCnf (truthful : memory.Truthful engine.fingerprint asked held)
    (known : tree.Known held)
    (numbered : tree.formula.MentionsOnly (Term.NumberedBelow memory.nextFree)) :
    (engine.equisatCnf tree).Answers memory
      (engine.FormFollows asked held memory tree.formula) := by
  refine (Query.answers_notes truthful known).bind ?_
  rintro noted next ⟨same, truthfulNotes⟩
  subst same
  cases isNoted : noted.cnf with
  | some cnf =>
    exact ⟨Nat.le_refl _, held, List.prefix_refl held, truthfulNotes.cnf cnf isNoted, truthful⟩
  | none =>
    dsimp only
    split
    · rename_i flat
      refine answers_note_cnf known ⟨Nat.le_refl _, held, List.prefix_refl held, ?_, truthful⟩
      exact ⟨known, flat, Iff.rfl, numbered⟩
    · obtain ⟨form, grows, newNumbered⟩ := engine.limits.equisatisfiable_form numbered
      refine (Query.answers_numbering truthful grows).bind ?_
      rintro _ counted ⟨rfl, isNext, truthfulCounted⟩
      refine (Query.answers_hold truthfulCounted _).bind ?_
      rintro cnf held' ⟨isFormula, sameNext, later, grown, knownLater, truthfulNext⟩
      refine answers_note_cnf known ⟨?_, later, grown, ⟨knownLater, ?_, ?_, ?_⟩, truthfulNext⟩
      · rw [sameNext, isNext]
        exact grows
      · rw [isFormula]
        exact form.isCnf
      · rw [isFormula]
        exact form.satisfiable_iff numbered
      · rw [isFormula, sameNext, isNext]
        exact newNumbered

/-- The solver's verdict on a tree. -/
theorem answers_askSolver (search : engine.SearchesInProcess)
    (truthful : memory.Truthful engine.fingerprint asked held) (known : tree.Known held)
    (numbered : tree.formula.MentionsOnly (Term.NumberedBelow memory.nextFree)) :
    (engine.askSolver tree).Answers memory fun verdict next =>
      (verdict = true ↔ tree.formula.Satisfiable) ∧
        memory.Follows engine.fingerprint asked held next := by
  refine (answers_equisatCnf truthful known numbered).bind fun cnf next formFollows => ?_
  obtain ⟨_, later, _, form, _⟩ := id formFollows
  obtain ⟨encoding, encoded, exact⟩ := Encoding.solve_ofFormula form.flat
  rw [encoded]
  change (do
    let result ← liftM (engine.solve encoding.cnf)
    return result.isSatisfiable : Query Bool).Answers next _
  rw [search]
  exact ⟨exact.trans form.equisatisfiable, formFollows.follows⟩

/-- Whether a tree is satisfiable: by its notes, by enumeration, from the cache or by search. -/
theorem answers_satisfiable (search : engine.SearchesInProcess)
    (truthful : memory.Truthful engine.fingerprint asked held) (known : tree.Known held)
    (numbered : tree.formula.MentionsOnly (Term.NumberedBelow memory.nextFree))
    (isAsked : tree.formula ∈ asked) (distinct : CollisionFree engine.fingerprint asked) :
    (engine.satisfiable tree).Answers memory fun verdict next =>
      (verdict = true ↔ tree.formula.Satisfiable) ∧
        memory.Follows engine.fingerprint asked held next := by
  refine (Query.answers_notes truthful known).bind ?_
  rintro noted next ⟨same, truthfulNotes⟩
  subst same
  split
  · rename_i verdict isNoted
    exact ⟨truthfulNotes.verdict verdict isNoted, truthful.follows⟩
  · rename_i value _ isConstant
    rw [isConstant]
    refine ⟨?_, truthful.follows⟩
    exact ⟨fun truth => ⟨fun _ => true, truth⟩, fun ⟨_, truth⟩ => truth⟩
  · split
    · have exact := tree.formula.satisfiableByEnumeration_iff
      refine (Query.answers_note truthful known ?_).bind ?_
      · intro noted truthfulNoted
        refine ⟨?_, truthfulNoted.cnf⟩
        rintro _ ⟨⟩
        exact exact
      · rintro _ last ⟨sameNext, truthfulLast⟩
        exact ⟨exact, Nat.le_of_eq sameNext.symm, held, List.prefix_refl held, truthfulLast⟩
    · refine Query.ends_remembering ?_ ?_
      · intro verdict stored
        obtain ⟨f, wasAsked, sameKey, exact⟩ := truthful.verdicts _ verdict stored
        rw [distinct f wasAsked _ isAsked sameKey] at exact
        exact ⟨exact, Nat.le_refl _, held, List.prefix_refl held, truthful.counting ..⟩
      · intro _
        have missed := truthful.counting next.cache.hits (next.cache.misses + 1)
        refine (answers_askSolver search missed known numbered).mono ?_ fun _ _ => id
        rintro verdict last ⟨exact, counts, later, grown, truthfulLast⟩
        exact ⟨exact, counts, later, grown, truthfulLast.storeVerdict isAsked exact⟩

theorem answers_unsatisfiable (search : engine.SearchesInProcess)
    (truthful : memory.Truthful engine.fingerprint asked held) (known : tree.Known held)
    (numbered : tree.formula.MentionsOnly (Term.NumberedBelow memory.nextFree))
    (isAsked : tree.formula ∈ asked) (distinct : CollisionFree engine.fingerprint asked) :
    (engine.unsatisfiable tree).Answers memory fun verdict next =>
      (verdict = true ↔ ¬ tree.formula.Satisfiable) ∧
        memory.Follows engine.fingerprint asked held next := by
  refine (answers_satisfiable search truthful known numbered isAsked distinct).bind ?_
  rintro verdict next ⟨exact, follows⟩
  refine ⟨?_, follows⟩
  rw [← exact, Bool.not_eq_true', Bool.not_eq_true]

theorem answers_equivalent {f g : Formula} (search : engine.SearchesInProcess)
    (truthful : memory.Truthful engine.fingerprint asked held)
    (numbered : (Formula.oneOf [f, g]).MentionsOnly (Term.NumberedBelow memory.nextFree))
    (isAsked : Formula.oneOf [f, g] ∈ asked) (distinct : CollisionFree engine.fingerprint asked) :
    (engine.equivalent f g).Answers memory fun verdict next =>
      (verdict = true ↔ f.Equivalent g) ∧ memory.Follows engine.fingerprint asked held next := by
  unfold equivalent
  split
  · rename_i same
    obtain rfl : f = g := eq_of_beq same
    exact ⟨iff_of_true rfl fun _ => rfl, truthful.follows⟩
  · rw [f.equivalent_iff_not_satisfiable g]
    exact answers_unsatisfiable search truthful (Tree.known_passing held _) numbered isAsked distinct

theorem answers_alwaysImplies {f g : Formula} (search : engine.SearchesInProcess)
    (truthful : memory.Truthful engine.fingerprint asked held)
    (numbered : (Formula.allOf [f, .neg g]).MentionsOnly (Term.NumberedBelow memory.nextFree))
    (isAsked : Formula.allOf [f, .neg g] ∈ asked)
    (distinct : CollisionFree engine.fingerprint asked) :
    (engine.alwaysImplies f g).Answers memory fun verdict next =>
      (verdict = true ↔ f.Entails g) ∧ memory.Follows engine.fingerprint asked held next := by
  rw [f.entails_iff_not_satisfiable g]
  exact answers_unsatisfiable search truthful (Tree.known_passing held _) numbered isAsked distinct

end

/-- The engine searches in process, everything it remembers is true, and no other formula
it was asked about has the fingerprint of this one. -/
def Ready (engine : Engine) (memory : Memory) (f : Formula) : Prop :=
  engine.SearchesInProcess ∧ ∃ asked held, f ∈ asked ∧ CollisionFree engine.fingerprint asked ∧
    memory.Truthful engine.fingerprint asked held

theorem ready_initial {engine : Engine} (search : engine.SearchesInProcess) (f : Formula) :
    engine.Ready {} f :=
  ⟨search, [f], [], List.mem_singleton.mpr rfl, .singleton _ f, .initial _ _⟩

/-- An engine that is ready for a formula decides it. -/
theorem Ready.satisfiable {engine : Engine} {memory : Memory} {f : Formula}
    (ready : engine.Ready memory f)
    (numbered : f.MentionsOnly (Term.NumberedBelow memory.nextFree)) :
    (engine.satisfiable (Tree.passing f)).Answers memory fun verdict _ =>
      verdict = true ↔ f.Satisfiable := by
  obtain ⟨search, asked, held, isAsked, distinct, truthful⟩ := ready
  exact (answers_satisfiable search truthful (Tree.known_passing held f) numbered isAsked
    distinct).mono (fun _ _ => And.left) fun _ _ => id

theorem Ready.unsatisfiable {engine : Engine} {memory : Memory} {f : Formula}
    (ready : engine.Ready memory f)
    (numbered : f.MentionsOnly (Term.NumberedBelow memory.nextFree)) :
    (engine.unsatisfiable (Tree.passing f)).Answers memory fun verdict _ =>
      verdict = true ↔ ¬ f.Satisfiable := by
  obtain ⟨search, asked, held, isAsked, distinct, truthful⟩ := ready
  exact (answers_unsatisfiable search truthful (Tree.known_passing held f) numbered isAsked
    distinct).mono (fun _ _ => And.left) fun _ _ => id

/-- From an empty cache, an engine that searches in process answers every question of
satisfiability, equivalence and implication exactly, and all its algorithms agree. -/
theorem exact_of_empty_cache {engine : Engine} (search : engine.SearchesInProcess)
    {held : List Formula} {memory : Memory} (truthful : memory.Truthful engine.fingerprint [] held) :
    (∀ tree : Tree, tree.Known held →
      tree.formula.MentionsOnly (Term.NumberedBelow memory.nextFree) →
      ((engine.satisfiable tree).Answers memory fun verdict _ =>
        verdict = true ↔ tree.formula.Satisfiable) ∧
      ((engine.unsatisfiable tree).Answers memory fun verdict _ =>
        verdict = true ↔ ¬ tree.formula.Satisfiable)) ∧
    (∀ f g : Formula, f.MentionsOnly (Term.NumberedBelow memory.nextFree) →
      g.MentionsOnly (Term.NumberedBelow memory.nextFree) →
      ((engine.equivalent f g).Answers memory fun verdict _ => verdict = true ↔ f.Equivalent g) ∧
      ((engine.alwaysImplies f g).Answers memory fun verdict _ => verdict = true ↔ f.Entails g)) ∧
    ∀ f : Formula, (f.satisfiableByEnumeration = true ↔ f.Satisfiable) ∧
      ∀ next g, f.MentionsOnly (Term.NumberedBelow next) → SearchForm next f g →
        ∃ encoding, Encoding.ofFormula g = .ok encoding ∧
          encoding.cnf.solve.isSatisfiable = f.satisfiableByEnumeration := by
  refine ⟨fun tree known numbered => ?_, fun f g numberedF numberedG => ?_, fun f => ?_⟩
  · have asking := truthful.asking [tree.formula] (List.nil_subset _)
    have isAsked := List.mem_singleton.mpr (rfl : tree.formula = tree.formula)
    exact ⟨(answers_satisfiable search asking known numbered isAsked (.singleton _ _)).mono
        (fun _ _ => And.left) fun _ _ => id,
      (answers_unsatisfiable search asking known numbered isAsked (.singleton _ _)).mono
        (fun _ _ => And.left) fun _ _ => id⟩
  · have isAsked := fun asked : Formula => List.mem_singleton.mpr (rfl : asked = asked)
    exact ⟨(answers_equivalent search (truthful.asking _ (List.nil_subset _))
        (by simp [numberedF, numberedG]) (isAsked _) (.singleton _ _)).mono
        (fun _ _ => And.left) fun _ _ => id,
      (answers_alwaysImplies search (truthful.asking _ (List.nil_subset _))
        (by simp [numberedF, numberedG]) (isAsked _) (.singleton _ _)).mono
        (fun _ _ => And.left) fun _ _ => id⟩
  · exact ⟨f.satisfiableByEnumeration_iff,
      fun next g numbered form => form.solve_eq_enumeration numbered⟩

/-- The engine that may not enumerate anything, on a formula that needs a synthetic variable. -/
theorem exact_of_empty_cache_initial :
    let engine := inProcess { bruteForceMaxTerms := 0, tseytinTermThreshold := 0 }
    let f := Formula.exactlyOne [.atom (.xlen .rv32), .atom (.xlen .rv64)]
    engine.SearchesInProcess ∧ ({} : Memory).Truthful engine.fingerprint [] [] ∧
      (Tree.passing f).Known [] ∧ f.MentionsOnly (Term.NumberedBelow 0) ∧
      ((engine.satisfiable (Tree.passing f)).Answers {} fun verdict _ =>
        verdict = true ↔ f.Satisfiable) ∧
      ((engine.equivalent f (.neg f)).Answers {} fun verdict _ =>
        verdict = true ↔ f.Equivalent (.neg f)) ∧
      ∃ encoding, Encoding.ofFormula (f.tseytin 0).1 = .ok encoding ∧
        encoding.cnf.solve.isSatisfiable = f.satisfiableByEnumeration := by
  intro engine f
  have search : engine.SearchesInProcess := fun _ => rfl
  have truthful := Memory.Truthful.initial engine.fingerprint []
  have known := Tree.known_passing [] f
  have numbered : f.MentionsOnly (Term.NumberedBelow 0) := by simp [f, Term.NumberedBelow]
  obtain ⟨ofTree, ofPair, ofForm⟩ := exact_of_empty_cache search truthful
  exact ⟨search, truthful, known, numbered, (ofTree (Tree.passing f) known numbered).1,
    (ofPair f (.neg f) numbered numbered).1, (ofForm f).2 0 _ numbered .encoded⟩

end Engine

end IsaLogic
