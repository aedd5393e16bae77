import IsaLogic.Database.Expansion
import IsaLogic.Proofs.Clause.Compile

/-!
# What an expansion visits

`Reaches` says which terms a formula leads to: those of what is required by a term,
and the versions that a range admits. It does not mention the walk. The walk visits
exactly these terms, each once (`Explored`, kept by each step of it), and derives
what they contribute and nothing else; `derive_spec` puts this together. What a
term can contribute is said once, by `Contributes`.
-/

namespace IsaLogic

namespace Database

/-- A clause that a term requires. -/
inductive Requires (db : Database) : Term → Clause → Prop where
  | version {name : String} {version : Version} {clause : Clause}
      (required : db.requirement? name version = some clause) :
      Requires db (.extension (.exact name version)) clause
  | parameter {param : ParamTerm} {clause : Clause}
      (required : db.parameterRequirement? param.name = some clause) :
      Requires db (.parameter param) clause

/-- The terms that a formula leads to in a database. -/
inductive Reaches (db : Database) (root : Formula) : Term → Prop where
  | root {term : Term} (occurs : term ∈ root.occurrences) : Reaches db root term
  | requirement {term other : Term} {clause : Clause} {f : Formula}
      (reaches : Reaches db root term) (requires : db.Requires term clause)
      (compiled : clause.compile = .ok f) (occurs : other ∈ f.occurrences) : Reaches db root other
  | admitted {range : ExtensionTerm} {version : Version}
      (reaches : Reaches db root (.extension range)) (isRange : range.isExact = false)
      (listed : version ∈ db.versions range.name) (accepted : range.accepts version = true) :
      Reaches db root (.extension (.exact range.name version))

/-- Every requirement that a formula leads to has a formula of its own. -/
def CompilesFrom (db : Database) (root : Formula) : Prop :=
  ∀ term clause, db.Reaches root term → db.Requires term clause → ∃ f, clause.compile = .ok f

section Consequence

variable {db : Database}

theorem Requires.unique {term : Term} {clause other : Clause} (requires : db.Requires term clause)
    (requiresOther : db.Requires term other) : clause = other := by
  cases requires with
  | version required =>
    cases requiresOther with
    | version requiredOther => exact Option.some.inj (required.symm.trans requiredOther)
  | parameter required =>
    cases requiresOther with
    | parameter requiredOther => exact Option.some.inj (required.symm.trans requiredOther)

theorem exists_releases {name : String} {release : Version × Option Clause}
    (listed : release ∈ db.releases name) :
    ∃ known, (name, known) ∈ db.extensions ∧ release ∈ known := by
  unfold releases at listed
  cases found : lookup? name db.extensions with
  | none =>
    rw [found] at listed
    cases listed
  | some known =>
    rw [found] at listed
    exact ⟨known, mem_of_lookup? found, listed⟩

theorem mem_releases_of_requirement? {name : String} {version : Version} {clause : Clause}
    (required : db.requirement? name version = some clause) :
    (version, some clause) ∈ db.releases name :=
  mem_of_lookup? (Option.join_eq_some_iff.mp required)

theorem mem_versions_of_requirement? {name : String} {version : Version} {clause : Clause}
    (required : db.requirement? name version = some clause) : version ∈ db.versions name :=
  List.mem_map.mpr ⟨_, mem_releases_of_requirement? required, rfl⟩

theorem mem_admitted {range : ExtensionTerm} {term : Term} :
    term ∈ db.admitted range ↔ ∃ version ∈ db.versions range.name,
      range.accepts version = true ∧ term = .extension (.exact range.name version) := by
  simp only [admitted, ExtensionTerm.satisfying, List.mem_map, mem_ascending, List.mem_filter]
  constructor
  · rintro ⟨version, ⟨listed, accepted⟩, rfl⟩
    exact ⟨version, listed, accepted, rfl⟩
  · rintro ⟨version, listed, accepted, rfl⟩
    exact ⟨version, ⟨listed, accepted⟩, rfl⟩

theorem eq_exact_of_isExact {ext : ExtensionTerm} (exact : ext.isExact = true) :
    ext = .exact ext.name ext.version := by
  obtain ⟨name, op, version⟩ := ext
  simp only [ExtensionTerm.isExact, decide_eq_true_eq] at exact
  subst exact
  rfl

/-- Everything a term can contribute. -/
inductive Contributes (db : Database) : Term → Consequence → Prop where
  | requirement {term : Term} {clause : Clause} {f : Formula} (requires : db.Requires term clause)
      (compiled : clause.compile = .ok f) :
      Contributes db term { next := f.terms, derived := [.implies (.atom term) f] }
  | unlisted {ext : ExtensionTerm} (exact : ext.isExact = true)
      (missing : ext.version ∉ db.versions ext.name) :
      Contributes db (.extension ext) { derived := [.neg (.atom (.extension ext))] }
  | unavailable {ext : ExtensionTerm} (isRange : ext.isExact = false)
      (none : db.admitted ext = []) :
      Contributes db (.extension ext) { derived := [.neg (.atom (.extension ext))] }
  | range {ext : ExtensionTerm} (isRange : ext.isExact = false) :
      Contributes db (.extension ext)
        { next := db.admitted ext
          derived := [Formula.iff (.atom (.extension ext))
            (Formula.anyOf ((db.admitted ext).map .atom))] }
  | nothing {term : Term} (unrequired : ∀ clause, ¬ db.Requires term clause)
      (listed : ∀ ext, term = .extension ext →
        ext.isExact = true ∧ ext.version ∈ db.versions ext.name) : Contributes db term {}

theorem requires_iff_of_exact {ext : ExtensionTerm} (exact : ext.isExact = true)
    {clause : Clause} : db.Requires (.extension ext) clause ↔
      db.requirement? ext.name ext.version = some clause := by
  constructor
  · rintro ⟨required⟩
    exact required
  · intro required
    rw [eq_exact_of_isExact exact]
    exact .version required

theorem contributes_of_requirementOf {term : Term} {required : Option Clause} {c : Consequence}
    (requires : ∀ clause, db.Requires term clause ↔ required = some clause)
    (listed : ∀ ext, term = .extension ext →
      ext.isExact = true ∧ ext.version ∈ db.versions ext.name)
    (found : requirementOf term required = .ok c) : db.Contributes term c := by
  cases required with
  | none =>
    cases found
    exact .nothing (fun clause required => nomatch (requires clause).mp required) listed
  | some clause =>
    obtain ⟨f, compiled, result⟩ := exists_ok_of_bind found
    cases result
    exact .requirement ((requires clause).mpr rfl) compiled

/-- What a term contributes is one of these. -/
theorem contributes_of_consequence {term : Term} {c : Consequence}
    (found : db.consequence term = .ok c) : db.Contributes term c := by
  unfold consequence at found
  split at found
  · rename_i ext
    split at found
    · rename_i exact
      split at found
      · rename_i listed
        refine contributes_of_requirementOf (fun clause => requires_iff_of_exact exact) ?_ found
        rintro _ ⟨⟩
        exact ⟨exact, List.contains_iff_mem.mp listed⟩
      · rename_i missing
        cases found
        exact .unlisted exact fun listed => missing (List.contains_iff_mem.mpr listed)
    · rename_i isRange
      rw [Bool.not_eq_true] at isRange
      split at found
      · rename_i none
        cases found
        exact .unavailable isRange none
      · cases found
        exact .range isRange
  · rename_i param
    refine contributes_of_requirementOf (fun clause => ?_) nofun found
    exact ⟨fun | .parameter required => required, .parameter⟩
  · cases found
    exact .nothing nofun nofun
  · cases found
    exact .nothing nofun nofun

theorem exists_requirementOf {term : Term} {required : Option Clause}
    (compiles : ∀ clause, required = some clause → ∃ f, clause.compile = .ok f) :
    ∃ c, requirementOf term required = .ok c := by
  cases required with
  | none => exact ⟨_, rfl⟩
  | some clause =>
    obtain ⟨f, compiled⟩ := compiles clause rfl
    exact ⟨_, by rw [requirementOf, compiled]; rfl⟩

/-- A term contributes something if what it requires has a formula. -/
theorem exists_consequence {term : Term}
    (compiles : ∀ clause, db.Requires term clause → ∃ f, clause.compile = .ok f) :
    ∃ c, db.consequence term = .ok c := by
  cases term with
  | extension ext =>
    unfold consequence
    dsimp only
    split
    · rename_i exact
      split
      · exact exists_requirementOf fun clause required =>
          compiles clause ((requires_iff_of_exact exact).mpr required)
      · exact ⟨_, rfl⟩
    · split <;> exact ⟨_, rfl⟩
  | parameter param =>
    exact exists_requirementOf fun clause required => compiles clause (.parameter required)
  | xlen width => exact ⟨_, rfl⟩
  | free id => exact ⟨_, rfl⟩

/-- The terms to visit next are reached. -/
theorem reaches_next {root : Formula} {term other : Term} {c : Consequence}
    (found : db.consequence term = .ok c) (reaches : db.Reaches root term)
    (next : other ∈ c.next) : db.Reaches root other := by
  cases contributes_of_consequence found with
  | requirement requires compiled =>
    exact .requirement reaches requires compiled (Formula.mem_terms.mp next)
  | range isRange =>
    obtain ⟨version, listed, accepted, rfl⟩ := mem_admitted.mp next
    exact .admitted reaches isRange listed accepted
  | _ => cases next

end Consequence

/-- What a walk has found while a queue is left: every visited term is reached and
visited once, what they contribute has been derived, and what follows from them or from
the formula, inside the vocabulary, is visited or waits in the queue. -/
structure Explored (db : Database) (root : Formula) (vocabulary : List Term) (found : Exploration)
    (queue : List Term) : Prop where
  nodup : found.visited.Nodup
  reached : ∀ term, term ∈ found.visited ∨ term ∈ queue → db.Reaches root term
  derived : ∀ f, f ∈ found.derived ↔
    ∃ term ∈ found.visited, ∃ c, db.consequence term = .ok c ∧ f ∈ c.derived
  closed : ∀ term, (term ∈ root.occurrences ∨
      ∃ other ∈ found.visited, ∃ c, db.consequence other = .ok c ∧ term ∈ c.next) →
    term ∈ vocabulary → term ∈ found.visited ∨ term ∈ queue

namespace Explored

variable {db : Database} {root : Formula} {vocabulary : List Term} {found : Exploration}
  {queue : List Term} {term : Term}

theorem initial (db : Database) (root : Formula) (vocabulary : List Term) :
    Explored db root vocabulary {} root.terms where
  nodup := List.nodup_nil
  reached term member := by
    rcases member with visited | queued
    · cases visited
    · exact .root (Formula.mem_terms.mp queued)
  derived f := by simp
  closed term follows _ := by
    rcases follows with occurs | ⟨other, visited, _⟩
    · exact .inr (Formula.mem_terms.mpr occurs)
    · cases visited

/-- Visiting a new term. -/
theorem visit (explored : Explored db root vocabulary found (term :: queue))
    (new : term ∉ found.visited) {c : Consequence} (contributes : db.consequence term = .ok c) :
    Explored db root vocabulary
      { visited := found.visited ++ [term], derived := found.derived ++ c.derived }
      (queue ++ c.next) where
  nodup := by
    refine List.nodup_append.mpr ⟨explored.nodup, by simp, ?_⟩
    intro other visited same isTerm
    rw [List.mem_singleton.mp isTerm]
    rintro rfl
    exact new visited
  reached other member := by
    have reaches := explored.reached term (.inr (List.mem_cons_self ..))
    rcases member with visited | queued
    · rcases List.mem_append.mp visited with before | isTerm
      · exact explored.reached other (.inl before)
      · exact List.mem_singleton.mp isTerm ▸ reaches
    · rcases List.mem_append.mp queued with before | next
      · exact explored.reached other (.inr (List.mem_cons_of_mem _ before))
      · exact reaches_next contributes reaches next
  derived f := by
    simp only [List.mem_append, explored.derived f, List.mem_singleton]
    constructor
    · rintro (⟨other, visited, rest⟩ | here)
      · exact ⟨other, .inl visited, rest⟩
      · exact ⟨term, .inr rfl, c, contributes, here⟩
    · rintro ⟨other, visited | rfl, c', contributes', inside⟩
      · exact .inl ⟨other, visited, c', contributes', inside⟩
      · cases contributes.symm.trans contributes'
        exact .inr inside
  closed other follows inVocabulary := by
    have before : other ∈ found.visited ∨ other ∈ term :: queue →
        other ∈ found.visited ++ [term] ∨ other ∈ queue ++ c.next := by
      rintro (visited | queued)
      · exact .inl (List.mem_append_left _ visited)
      · rcases List.mem_cons.mp queued with rfl | later
        · exact .inl (List.mem_append_right _ (List.mem_singleton.mpr rfl))
        · exact .inr (List.mem_append_left _ later)
    rcases follows with occurs | ⟨source, visited, c', contributes', next⟩
    · exact before (explored.closed other (.inl occurs) inVocabulary)
    · rcases List.mem_append.mp visited with earlier | isTerm
      · exact before (explored.closed other (.inr ⟨source, earlier, c', contributes', next⟩)
          inVocabulary)
      · cases List.mem_singleton.mp isTerm
        cases contributes.symm.trans contributes'
        exact .inr (List.mem_append_right _ next)

/-- Passing over a term that was visited before or is outside the vocabulary. -/
theorem skip (explored : Explored db root vocabulary found (term :: queue))
    (old : ¬ (term ∈ vocabulary ∧ term ∉ found.visited)) :
    Explored db root vocabulary found queue where
  nodup := explored.nodup
  reached other member := explored.reached other (member.imp_right (List.mem_cons_of_mem _))
  derived := explored.derived
  closed other follows inVocabulary := by
    rcases explored.closed other follows inVocabulary with visited | queued
    · exact .inl visited
    · rcases List.mem_cons.mp queued with rfl | later
      · exact .inl (Decidable.not_not.mp fun new => old ⟨inVocabulary, new⟩)
      · exact .inr later

/-- The walk succeeds if every term it reaches contributes something, and leaves no queue. -/
theorem explore (compiles : db.CompilesFrom root)
    (explored : Explored db root vocabulary found queue) :
    ∃ result, db.explore vocabulary found queue = .ok result ∧
      Explored db root vocabulary result [] := by
  fun_induction Database.explore db vocabulary found queue with
  | case1 found => exact ⟨found, rfl, explored⟩
  | case2 found term queue new ih =>
    have reaches := explored.reached term (.inr (List.mem_cons_self ..))
    obtain ⟨c, contributes⟩ := exists_consequence fun clause => compiles term clause reaches
    rw [contributes]
    exact ih c (explored.visit new.2 contributes)
  | case3 found term queue old ih => exact ih (explored.skip old)

/-- What a walk that succeeds has found. -/
theorem of_explore {result : Exploration} (explored : Explored db root vocabulary found queue)
    (walked : db.explore vocabulary found queue = .ok result) :
    Explored db root vocabulary result [] := by
  fun_induction Database.explore db vocabulary found queue with
  | case1 found =>
    cases walked
    exact explored
  | case2 found term queue new ih =>
    obtain ⟨c, contributes, rest⟩ := exists_ok_of_bind walked
    exact ih c (explored.visit new.2 contributes) rest
  | case3 found term queue old ih => exact ih (explored.skip old) walked

end Explored

section Derive

variable {db : Database} {root : Formula}

theorem mem_clauseTerms {clause : Clause} {f : Formula} (compiled : clause.compile = .ok f)
    {term : Term} (occurs : term ∈ f.occurrences) : term ∈ clauseTerms clause := by
  rw [clauseTerms, compiled]
  exact Formula.mem_terms.mpr occurs

theorem mem_mentioned_of_release {name : String} {release : Version × Option Clause}
    (listed : release ∈ db.releases name) {term : Term}
    (contributed : term = .extension (.exact name release.1) ∨
      ∃ clause, release.2 = some clause ∧ term ∈ clauseTerms clause) : term ∈ db.mentioned := by
  obtain ⟨known, inDatabase, listed⟩ := exists_releases listed
  refine List.mem_append_left _ (List.mem_flatMap.mpr ⟨_, inDatabase, ?_⟩)
  refine List.mem_flatMap.mpr ⟨release, listed, List.mem_cons.mpr ?_⟩
  rcases contributed with isExact | ⟨clause, required, inside⟩
  · exact .inl isExact
  · exact .inr (by simpa [required] using inside)

theorem mem_mentioned_of_requires {term other : Term} {clause : Clause} {f : Formula}
    (requires : db.Requires term clause) (compiled : clause.compile = .ok f)
    (occurs : other ∈ f.occurrences) : other ∈ db.mentioned := by
  have inClause := mem_clauseTerms compiled occurs
  cases requires with
  | version required =>
    exact mem_mentioned_of_release (mem_releases_of_requirement? required) (.inr ⟨_, rfl, inClause⟩)
  | parameter required =>
    exact List.mem_append_right _ (List.mem_flatMap.mpr ⟨_, mem_of_lookup? required, inClause⟩)

theorem mem_mentioned_of_listed {name : String} {version : Version}
    (listed : version ∈ db.versions name) :
    Term.extension (.exact name version) ∈ db.mentioned := by
  obtain ⟨release, isRelease, rfl⟩ := List.mem_map.mp listed
  exact mem_mentioned_of_release isRelease (.inl rfl)

/-- Every term that a formula leads to is in the vocabulary of the walk. -/
theorem mem_vocabulary_of_reaches {term : Term} (reaches : db.Reaches root term) :
    term ∈ root.terms ++ db.mentioned := by
  cases reaches with
  | root occurs => exact List.mem_append_left _ (Formula.mem_terms.mpr occurs)
  | requirement _ requires compiled occurs =>
    exact List.mem_append_right _ (mem_mentioned_of_requires requires compiled occurs)
  | admitted _ _ listed _ => exact List.mem_append_right _ (mem_mentioned_of_listed listed)

theorem mem_next_of_requires {term other : Term} {clause : Clause} {f : Formula} {c : Consequence}
    (requires : db.Requires term clause) (compiled : clause.compile = .ok f)
    (occurs : other ∈ f.occurrences) (found : db.consequence term = .ok c) : other ∈ c.next := by
  cases contributes_of_consequence found with
  | requirement requires' compiled' =>
    have same : clause = _ := requires.unique requires'
    subst same
    cases compiled.symm.trans compiled'
    exact Formula.mem_terms.mpr occurs
  | unlisted _ missing =>
    cases requires with
    | version required => exact absurd (mem_versions_of_requirement? required) missing
  | unavailable isRange _ => cases requires with | version _ => cases isRange
  | range isRange => cases requires with | version _ => cases isRange
  | nothing unrequired _ => exact absurd requires (unrequired clause)

theorem mem_next_of_admitted {range : ExtensionTerm} {version : Version} {c : Consequence}
    (isRange : range.isExact = false) (listed : version ∈ db.versions range.name)
    (accepted : range.accepts version = true) (found : db.consequence (.extension range) = .ok c) :
    Term.extension (.exact range.name version) ∈ c.next := by
  have admits : Term.extension (.exact range.name version) ∈ db.admitted range :=
    mem_admitted.mpr ⟨version, listed, accepted, rfl⟩
  cases contributes_of_consequence found with
  | requirement requires _ => cases requires with | version _ => cases isRange
  | unlisted exact _ => rw [exact] at isRange; cases isRange
  | unavailable _ none => rw [none] at admits; cases admits
  | range _ => exact admits
  | nothing _ listed => rw [(listed range rfl).1] at isRange; cases isRange

/-- A walk that has visited nothing without success visits every term that the formula leads to. -/
theorem mem_visited_of_reaches {found : Exploration}
    (explored : Explored db root (root.terms ++ db.mentioned) found [])
    (succeeds : ∀ term ∈ found.visited, ∃ c, db.consequence term = .ok c) {term : Term}
    (reaches : db.Reaches root term) : term ∈ found.visited := by
  have visits : ∀ term, db.Reaches root term → (term ∈ root.occurrences ∨
      ∃ other ∈ found.visited, ∃ c, db.consequence other = .ok c ∧ term ∈ c.next) →
      term ∈ found.visited := by
    intro term reaches follows
    rcases explored.closed term follows (mem_vocabulary_of_reaches reaches) with visited | queued
    · exact visited
    · cases queued
  induction reaches with
  | root occurs => exact visits _ (.root occurs) (.inl occurs)
  | requirement reaches requires compiled occurs ih =>
    obtain ⟨c, contributes⟩ := succeeds _ ih
    exact visits _ (.requirement reaches requires compiled occurs)
      (.inr ⟨_, ih, c, contributes, mem_next_of_requires requires compiled occurs contributes⟩)
  | admitted reaches isRange listed accepted ih =>
    obtain ⟨c, contributes⟩ := succeeds _ ih
    exact visits _ (.admitted reaches isRange listed accepted)
      (.inr ⟨_, ih, c, contributes, mem_next_of_admitted isRange listed accepted contributes⟩)

/-- An expansion visits the terms that a formula leads to, each once, and derives what they
contribute, the exclusions and relations among them, and the widths. -/
theorem derive_spec (compiles : db.CompilesFrom root) :
    ∃ visited : List Term, visited.Nodup ∧ (∀ term, term ∈ visited ↔ db.Reaches root term) ∧
      ∃ derived, db.derive root = .ok derived ∧ ∀ f, f ∈ derived ↔
        (∃ term ∈ visited, ∃ c, db.consequence term = .ok c ∧ f ∈ c.derived) ∨
          f ∈ db.exclusions visited ∨ f ∈ relations visited ∨ f ∈ widths visited := by
  obtain ⟨found, walked, explored⟩ :=
    (Explored.initial db root (root.terms ++ db.mentioned)).explore compiles
  refine ⟨found.visited, explored.nodup, fun term => ⟨fun visited => ?_, fun reaches => ?_⟩, ?_⟩
  · exact explored.reached term (.inl visited)
  · exact mem_visited_of_reaches explored (fun other visited => exists_consequence fun clause =>
      compiles other clause (explored.reached other (.inl visited))) reaches
  · refine ⟨_, by rw [derive, walked]; rfl, fun f => ?_⟩
    simp only [List.mem_append, explored.derived f, or_assoc]

/-- What is reached from a formula without synthetic variables is none of them. -/
theorem isFree_of_reaches (ground : root.IsGround) {term : Term} (reaches : db.Reaches root term) :
    term.isFree = false := by
  cases reaches with
  | root occurs => exact ground term occurs
  | requirement _ _ compiled occurs => exact Clause.isGround_compile _ _ compiled term occurs
  | admitted _ _ _ _ => rfl

end Derive

end Database

end IsaLogic
