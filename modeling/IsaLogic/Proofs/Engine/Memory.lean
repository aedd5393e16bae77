import IsaLogic.Engine.Memory
import IsaLogic.Proofs.Formula.Tseytin

/-!
# What engines remember is true

A question is described by how it ends from a memory (`Query.Ends`), with one lemma
for each operation on memories. `Memory.Truthful` says what every question keeps:

- the notes of a tree are true of the formula behind the tree's key;
- an answer in the cache was given for some formula with the stored fingerprint.

The formulas held so far and the formulas asked about so far are lists beside the
memory; only the first grows while a question is answered.
-/

namespace IsaLogic

namespace Query

variable {α β : Type}

/-- How a question ends from a memory: with an answer or a failure, and a memory after it. -/
def Ends (query : Query α) (memory : Memory) (answers : α → Memory → Prop)
    (fails : QueryError → Memory → Prop) : Prop :=
  match query.run memory with
  | (.ok answer, next) => answers answer next
  | (.error failure, next) => fails failure next

/-- How a question ends that does not fail. -/
abbrev Answers (query : Query α) (memory : Memory) (answers : α → Memory → Prop) : Prop :=
  query.Ends memory answers fun _ _ => False

section

variable {query : Query α} {memory : Memory} {answers : α → Memory → Prop}
  {fails : QueryError → Memory → Prop}

theorem ends_pure {answer : α} (holds : answers answer memory) :
    (pure answer : Query α).Ends memory answers fails := holds

theorem Ends.bind {next : α → Query β} {results : β → Memory → Prop}
    (first : query.Ends memory answers fails)
    (later : ∀ answer memory, answers answer memory → (next answer).Ends memory results fails) :
    (query >>= next).Ends memory results fails := by
  unfold Ends at first ⊢
  have runs : (query >>= next).run memory = match query.run memory with
      | (.ok answer, memory) => (next answer).run memory
      | (.error failure, memory) => (.error failure, memory) := by
    change (ExceptT.bindCont next (query.run memory).1) (query.run memory).2 = _
    rcases query.run memory with ⟨outcome, memory⟩
    cases outcome <;> rfl
  rw [runs]
  rcases outcome : query.run memory with ⟨_ | answer, after⟩
  · rw [outcome] at first
    exact first
  · rw [outcome] at first
    exact later answer after first

theorem Ends.mono {moreAnswers : α → Memory → Prop} {moreFails : QueryError → Memory → Prop}
    (ends : query.Ends memory answers fails)
    (answersImply : ∀ answer next, answers answer next → moreAnswers answer next)
    (failsImply : ∀ failure next, fails failure next → moreFails failure next) :
    query.Ends memory moreAnswers moreFails := by
  unfold Ends at ends ⊢
  split at ends
  · exact answersImply _ _ ends
  · exact failsImply _ _ ends

theorem ends_get_bind {next : Memory → Query α} (later : (next memory).Ends memory answers fails) :
    (get >>= next : Query α).Ends memory answers fails := later

theorem ends_modify_bind {change : Memory → Memory} {next : Unit → Query α}
    (later : (next ()).Ends (change memory) answers fails) :
    (modify change >>= next : Query α).Ends memory answers fails := later

/-- A question that does not fail has an answer. -/
theorem Answers.exists (ends : query.Answers memory answers) :
    ∃ answer next, query.run memory = (.ok answer, next) ∧ answers answer next := by
  unfold Answers Ends at ends
  rcases outcome : query.run memory with ⟨_ | answer, next⟩
  · rw [outcome] at ends
    exact ends.elim
  · rw [outcome] at ends
    exact ⟨answer, next, rfl, ends⟩

/-- Remembering: the stored answer, or what is found and then stored. -/
theorem ends_remembering {κ : Type} [BEq κ] {table : Cache → List (κ × α)}
    {extend : Cache → κ × α → Cache} {key : κ} {find : Query α}
    (stored : ∀ answer, lookup? key (table memory.cache) = some answer →
      answers answer
        { memory with cache := { memory.cache with hits := memory.cache.hits + 1 } })
    (found : lookup? key (table memory.cache) = none → find.Ends
      { memory with cache := { memory.cache with misses := memory.cache.misses + 1 } }
      (fun answer next => answers answer { next with cache := extend next.cache (key, answer) })
      fails) :
    (remembering table extend key find).Ends memory answers fails := by
  refine ends_get_bind ?_
  cases known : lookup? key (table memory.cache) with
  | some answer => exact ends_modify_bind (stored answer known)
  | none =>
    refine ends_modify_bind ((found known).bind fun answer next holds => ?_)
    exact ends_modify_bind holds

/-- What is known of an end in two ways. -/
theorem Ends.and {moreAnswers : α → Memory → Prop} {moreFails : QueryError → Memory → Prop}
    (ends : query.Ends memory answers fails) (too : query.Ends memory moreAnswers moreFails) :
    query.Ends memory (fun answer next => answers answer next ∧ moreAnswers answer next)
      fun failure next => fails failure next ∧ moreFails failure next := by
  unfold Ends at ends too ⊢
  split <;> rename_i outcome <;> rw [outcome] at ends too <;> exact ⟨ends, too⟩

end

/-- A question that leaves a part of the memory as it is. -/
def Keeps {γ : Type} (part : Memory → γ) (query : Query α) : Prop :=
  ∀ memory : Memory, query.Ends memory (fun _ next => part next = part memory)
    fun _ next => part next = part memory

section Keeps

variable {γ : Type} {part : Memory → γ} {query : Query α}

theorem keeps_pure (answer : α) : (pure answer : Query α).Keeps part := fun _ => ends_pure rfl

theorem keeps_lift (result : Except QueryError α) : (liftM result : Query α).Keeps part := by
  intro memory
  cases result <;> rfl

theorem keeps_get : (get : Query Memory).Keeps part := fun _ => rfl

theorem keeps_modify {change : Memory → Memory}
    (same : ∀ memory, part (change memory) = part memory) :
    (modify change : Query Unit).Keeps part := same

theorem Keeps.bind {next : α → Query β} (first : query.Keeps part)
    (later : ∀ answer, (next answer).Keeps part) : (query >>= next).Keeps part := by
  intro memory
  refine (first memory).bind fun answer after same => ?_
  exact (later answer after).mono (fun _ _ => same.symm ▸ id) fun _ _ => same.symm ▸ id

theorem Keeps.of_part {δ : Type} (whole : query.Keeps part) (view : γ → δ) :
    query.Keeps fun memory => view (part memory) := fun memory =>
  (whole memory).mono (fun _ _ => congrArg view) fun _ _ => congrArg view

/-- The part is the same afterwards, whether the question answers or fails. -/
theorem Keeps.run (keeps : query.Keeps part) (memory : Memory) :
    part (query.run memory).2 = part memory := by
  have ends := keeps memory
  unfold Ends at ends
  split at ends <;> rename_i outcome <;> rw [outcome] <;> exact ends

theorem keeps_notes (tree : Tree) : (notes tree).Keeps part :=
  keeps_get.bind fun _ => keeps_pure _

theorem keeps_note (tree : Tree) (change : Notes → Notes) :
    (note tree change).Keeps Memory.cache := by
  refine keeps_modify fun memory => ?_
  cases tree.key <;> rfl

theorem keeps_numbering (build : Nat → α × Nat) : (numbering build).Keeps Memory.cache :=
  fun _ => rfl

theorem keeps_hold (formula : Formula) : (hold formula).Keeps Memory.cache := by
  intro memory
  unfold hold
  split <;> rfl

/-- Remembering keeps what the answers that it stores and counts are no part of. -/
theorem keeps_remembering {κ : Type} [BEq κ] {table : Cache → List (κ × α)}
    {extend : Cache → κ × α → Cache} {key : κ} (find : query.Keeps part)
    (counts : ∀ (memory : Memory) (hits misses : Nat),
      part { memory with cache := { memory.cache with hits, misses } } = part memory)
    (stores : ∀ (memory : Memory) entry,
      part { memory with cache := extend memory.cache entry } = part memory) :
    (remembering table extend key query).Keeps part := by
  intro memory
  refine ends_remembering (fun _ _ => counts ..) fun _ => ?_
  exact (find _).mono (fun _ next same => (stores next _).trans (same.trans (counts ..)))
    fun _ _ same => same.trans (counts ..)

end Keeps

end Query

/-- The formula behind a key of notes, given the formulas held so far. -/
def NoteKey.formula? (held : List Formula) : NoteKey → Option Formula
  | .held number => held[number]?
  | .xlen width => some (.atom (.xlen width))

/-- Notes of the tree are kept under its own formula. -/
def Tree.Known (held : List Formula) (tree : Tree) : Prop :=
  ∀ key, tree.key = some key → key.formula? held = some tree.formula

theorem Tree.known_passing (held : List Formula) (formula : Formula) :
    (Tree.passing formula).Known held := by
  intro key isKey
  unfold passing at isKey
  dsimp only at isKey
  split at isKey
  · cases isKey
    rfl
  · cases isKey

theorem NoteKey.formula?_mono {held later : List Formula} (grows : held <+: later) {key : NoteKey}
    {f : Formula} (behind : key.formula? held = some f) : key.formula? later = some f := by
  cases key with
  | held number =>
    obtain ⟨more, rfl⟩ := grows
    obtain ⟨inside, _⟩ := List.getElem?_eq_some_iff.mp behind
    exact (List.getElem?_append_left inside).trans behind
  | xlen width => exact behind

theorem Tree.Known.mono {held later : List Formula} {tree : Tree} (known : tree.Known held)
    (grows : held <+: later) : tree.Known later :=
  fun key isKey => NoteKey.formula?_mono grows (known key isKey)

/-- A tree in conjunctive form that is satisfiable in the same cases as a formula. -/
structure SolverForm (held : List Formula) (nextFree : Nat) (f : Formula) (tree : Tree) : Prop where
  known : tree.Known held
  flat : tree.formula.isCnf = true
  equisatisfiable : tree.formula.Satisfiable ↔ f.Satisfiable
  numbered : tree.formula.MentionsOnly (Term.NumberedBelow nextFree)

theorem SolverForm.mono {held later : List Formula} {low high : Nat} {f : Formula} {tree : Tree}
    (form : SolverForm held low f tree) (grows : held <+: later) (counts : low ≤ high) :
    SolverForm later high f tree where
  known := form.known.mono grows
  flat := form.flat
  equisatisfiable := form.equisatisfiable
  numbered t occurs := (form.numbered t occurs).mono counts

/-- What is noted of a formula is true of it. -/
structure Notes.Truthful (held : List Formula) (nextFree : Nat) (f : Formula) (notes : Notes) :
    Prop where
  verdict : ∀ value, notes.verdict = some value → (value = true ↔ f.Satisfiable)
  cnf : ∀ tree, notes.cnf = some tree → SolverForm held nextFree f tree

theorem Notes.Truthful.mono {held later : List Formula} {low high : Nat} {f : Formula}
    {notes : Notes} (truthful : notes.Truthful held low f) (grows : held <+: later)
    (counts : low ≤ high) : notes.Truthful later high f where
  verdict := truthful.verdict
  cnf tree noted := (truthful.cnf tree noted).mono grows counts

theorem Notes.truthful_empty (held : List Formula) (nextFree : Nat) (f : Formula) :
    ({} : Notes).Truthful held nextFree f where
  verdict _ noted := nomatch noted
  cnf _ noted := nomatch noted

/-- Everything remembered is true: notes of the formula behind their key, and stored
answers of some formula asked about that has the stored fingerprint. -/
structure Memory.Truthful (fingerprint : Formula → Bytes) (asked held : List Formula)
    (memory : Memory) : Prop where
  counted : memory.nextTree = held.length
  notes : ∀ key notes, lookup? key memory.notes = some notes →
    ∃ f, key.formula? held = some f ∧ notes.Truthful held memory.nextFree f
  verdicts : ∀ key value, lookup? key memory.cache.verdicts = some value →
    ∃ f ∈ asked, fingerprint f = key ∧ (value = true ↔ f.Satisfiable)
  minimized : ∀ key form g, lookup? (key, form) memory.cache.minimized = some g →
    ∃ f ∈ asked, fingerprint f = key ∧ g.Equivalent f

/-- A memory that comes after another one and is true as well. -/
structure Memory.Follows (fingerprint : Formula → Bytes) (asked held : List Formula)
    (before after : Memory) : Prop where
  counts : before.nextFree ≤ after.nextFree
  truthful : ∃ later, held <+: later ∧ after.Truthful fingerprint asked later

/-- No two of the formulas share a fingerprint. -/
def CollisionFree (fingerprint : Formula → Bytes) (asked : List Formula) : Prop :=
  ∀ f ∈ asked, ∀ g ∈ asked, fingerprint f = fingerprint g → f = g

theorem Memory.Follows.of_later {fingerprint : Formula → Bytes} {asked held later : List Formula}
    {before middle after : Memory} (follows : middle.Follows fingerprint asked later after)
    (counts : before.nextFree ≤ middle.nextFree) (grown : held <+: later) :
    before.Follows fingerprint asked held after := by
  obtain ⟨moreCounts, latest, moreGrown, truthful⟩ := follows
  exact ⟨Nat.le_trans counts moreCounts, latest, grown.trans moreGrown, truthful⟩

theorem CollisionFree.singleton (fingerprint : Formula → Bytes) (f : Formula) :
    CollisionFree fingerprint [f] := by
  intro g isG h isH _
  rw [List.mem_singleton.mp isG, List.mem_singleton.mp isH]

namespace Memory.Truthful

variable {fingerprint : Formula → Bytes} {asked held : List Formula} {memory : Memory}

/-- A memory in which nothing has been noted or stored. -/
theorem initial (fingerprint : Formula → Bytes) (asked : List Formula) :
    ({} : Memory).Truthful fingerprint asked [] where
  counted := rfl
  notes _ _ noted := nomatch noted
  verdicts _ _ stored := nomatch stored
  minimized _ _ _ stored := nomatch stored

theorem follows (truthful : memory.Truthful fingerprint asked held) :
    memory.Follows fingerprint asked held memory :=
  ⟨Nat.le_refl _, held, List.prefix_refl held, truthful⟩

/-- More formulas may be asked about. -/
theorem asking (truthful : memory.Truthful fingerprint asked held) (more : List Formula)
    (included : asked ⊆ more) : memory.Truthful fingerprint more held where
  counted := truthful.counted
  notes := truthful.notes
  verdicts key value stored :=
    let ⟨f, isAsked, rest⟩ := truthful.verdicts key value stored
    ⟨f, included isAsked, rest⟩
  minimized key form g stored :=
    let ⟨f, isAsked, rest⟩ := truthful.minimized key form g stored
    ⟨f, included isAsked, rest⟩

/-- Counting hits and misses changes nothing that is stored. -/
theorem counting (truthful : memory.Truthful fingerprint asked held) (hits misses : Nat) :
    Truthful fingerprint asked held
      { memory with cache := { memory.cache with hits, misses } } where
  counted := truthful.counted
  notes := truthful.notes
  verdicts := truthful.verdicts
  minimized := truthful.minimized

theorem storeVerdict (truthful : memory.Truthful fingerprint asked held) {f : Formula}
    (isAsked : f ∈ asked) {value : Bool} (exact : value = true ↔ f.Satisfiable) :
    Truthful fingerprint asked held
      { memory with
        cache := { memory.cache with verdicts := (fingerprint f, value) :: memory.cache.verdicts } }
    where
  counted := truthful.counted
  notes := truthful.notes
  verdicts key stored found := by
    rw [lookup?_cons] at found
    split at found
    · cases found
      exact ⟨f, isAsked, ‹_›, exact⟩
    · exact truthful.verdicts key stored found
  minimized := truthful.minimized

theorem storeMinimized (truthful : memory.Truthful fingerprint asked held) {f : Formula}
    (isAsked : f ∈ asked) (form : TwoLevel) {g : Formula} (equivalent : g.Equivalent f) :
    Truthful fingerprint asked held
      { memory with
        cache := { memory.cache with
          minimized := ((fingerprint f, form), g) :: memory.cache.minimized } }
    where
  counted := truthful.counted
  notes := truthful.notes
  verdicts := truthful.verdicts
  minimized key keyForm stored found := by
    rw [lookup?_cons] at found
    split at found
    · rename_i same
      cases found
      cases same
      exact ⟨f, isAsked, rfl, equivalent⟩
    · exact truthful.minimized key keyForm stored found

end Memory.Truthful

namespace Query

variable {fingerprint : Formula → Bytes} {asked held : List Formula} {memory : Memory} {tree : Tree}

/-- Reading the notes of a tree. -/
theorem answers_notes (truthful : memory.Truthful fingerprint asked held)
    (known : tree.Known held) :
    (notes tree).Answers memory fun noted next =>
      next = memory ∧ noted.Truthful held memory.nextFree tree.formula := by
  refine ends_get_bind (ends_pure ⟨rfl, ?_⟩)
  cases isKey : tree.key with
  | none => exact Notes.truthful_empty ..
  | some key =>
    cases found : lookup? key memory.notes with
    | none =>
      simp only [Option.bind_some, found, Option.getD_none]
      exact Notes.truthful_empty ..
    | some noted =>
      obtain ⟨f, behind, truthfulNotes⟩ := truthful.notes key noted found
      cases behind.symm.trans (known key isKey)
      simpa only [Option.bind_some, found, Option.getD_some] using truthfulNotes

/-- Changing the notes of a tree to others that are true. -/
theorem answers_note (truthful : memory.Truthful fingerprint asked held) (known : tree.Known held)
    {change : Notes → Notes}
    (keeps : ∀ noted : Notes, noted.Truthful held memory.nextFree tree.formula →
      (change noted).Truthful held memory.nextFree tree.formula) :
    (note tree change).Answers memory fun _ next =>
      next.nextFree = memory.nextFree ∧ next.Truthful fingerprint asked held := by
  change _ ∧ _
  cases isKey : tree.key with
  | none => exact ⟨rfl, truthful⟩
  | some key =>
    refine ⟨rfl, truthful.counted, fun other noted found => ?_, truthful.verdicts,
      truthful.minimized⟩
    rw [lookup?_cons] at found
    split at found
    · rename_i same
      cases found
      subst same
      refine ⟨tree.formula, known _ isKey, keeps _ ?_⟩
      cases old : lookup? key memory.notes with
      | none => exact Notes.truthful_empty ..
      | some noted =>
        obtain ⟨f, behind, truthfulNotes⟩ := truthful.notes key noted old
        cases behind.symm.trans (known key isKey)
        exact truthfulNotes
    · rename_i differs
      rw [lookup?_filter_ne (Ne.symm differs)] at found
      exact truthful.notes other noted found

/-- Numbering synthetic variables. -/
theorem answers_numbering {α : Type} {build : Nat → α × Nat}
    (truthful : memory.Truthful fingerprint asked held)
    (grows : memory.nextFree ≤ (build memory.nextFree).2) :
    (numbering build).Answers memory fun result next =>
      result = (build memory.nextFree).1 ∧ next.nextFree = (build memory.nextFree).2 ∧
        next.Truthful fingerprint asked held := by
  refine ⟨rfl, rfl, truthful.counted, fun key noted found => ?_, truthful.verdicts,
    truthful.minimized⟩
  obtain ⟨f, behind, truthfulNotes⟩ := truthful.notes key noted found
  exact ⟨f, behind, truthfulNotes.mono (List.prefix_refl held) grows⟩

/-- Holding on to a formula. -/
theorem answers_hold (truthful : memory.Truthful fingerprint asked held) (formula : Formula) :
    (hold formula).Answers memory fun tree next =>
      tree.formula = formula ∧ next.nextFree = memory.nextFree ∧
        ∃ later, held <+: later ∧ tree.Known later ∧ next.Truthful fingerprint asked later := by
  have anew : ∀ next : Memory, next = { memory with nextTree := memory.nextTree + 1 } →
      ∃ later, held <+: later ∧
        Tree.Known later { formula, key := some (.held memory.nextTree) } ∧
        next.Truthful fingerprint asked later := by
    rintro next rfl
    refine ⟨held ++ [formula], List.prefix_append held [formula], ?_, ?_, ?_, truthful.verdicts,
      truthful.minimized⟩
    · rintro key ⟨⟩
      simp [NoteKey.formula?, truthful.counted]
    · simp [truthful.counted]
    · intro key noted found
      obtain ⟨f, behind, truthfulNotes⟩ := truthful.notes key noted found
      exact ⟨f, NoteKey.formula?_mono (List.prefix_append ..) behind,
        truthfulNotes.mono (List.prefix_append ..) (Nat.le_refl _)⟩
  unfold hold
  split
  · refine ⟨rfl, rfl, held, List.prefix_refl held, ?_, truthful⟩
    rintro key ⟨⟩
    rfl
  · exact ⟨rfl, rfl, anew _ rfl⟩

end Query

end IsaLogic
