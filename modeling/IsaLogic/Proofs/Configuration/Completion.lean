import IsaLogic.Proofs.Configuration.Legal

/-!
# Configurations from valuations

A valuation under which an expanded formula holds is read as a configuration:
it implements the true ones among the visited versions that the database lists, and
has the register width that is true. The exclusions leave at most one version of
each extension, so the configuration and the valuation agree on every term that the
formula leads to (`completion_agrees`), as long as none of them is a parameter. What
the visited versions require is then true as well, which makes the configuration
legal (`legal_completion`). Versions that were not visited are simply not implemented.
-/

namespace IsaLogic

namespace FullConfig

/-- Names of extensions and of parameters are strictly ascending, so each occurs once. -/
structure Ordered (config : FullConfig) : Prop where
  extensions : (config.extensions.map Prod.fst).Pairwise fun a b => compare a b = .lt
  params : (config.params.map Prod.fst).Pairwise fun a b => compare a b = .lt

end FullConfig

namespace Database

section Completion

variable (db : Database) (visited : List Term) (valuation : Term → Bool)

/-- The version of an extension that a valuation makes true among the visited ones. -/
def trueVersion? (name : String) : Option Version :=
  (db.listedVersions visited name).find? fun version =>
    valuation (.extension (.exact name version))

/-- The configuration that a valuation of the visited terms describes. -/
def completion : FullConfig where
  extensions := (ascending ((visited.filterMap Term.extension?).map ExtensionTerm.name)).filterMap
    fun name => (db.trueVersion? visited valuation name).map (name, ·)
  xlen := some (if valuation (.xlen .rv32) then .rv32 else .rv64)

end Completion

section

variable {db : Database} {visited : List Term} {valuation : Term → Bool}

theorem ordered_completion : (db.completion visited valuation).Ordered where
  extensions := by
    refine List.Pairwise.map _ (fun a b before => before) ?_
    refine List.Pairwise.filterMap _ (fun a b before entry isA other isB => ?_)
      (pairwise_ascending ((visited.filterMap Term.extension?).map ExtensionTerm.name))
    obtain ⟨_, _, rfl⟩ := Option.map_eq_some_iff.mp isA
    obtain ⟨_, _, rfl⟩ := Option.map_eq_some_iff.mp isB
    exact before
  params := List.Pairwise.nil

theorem two_le_countP {α : Type} {p : α → Bool} {list : List α} {a b : α} (differ : a ≠ b)
    (inA : a ∈ list) (inB : b ∈ list) (holdsA : p a = true) (holdsB : p b = true) :
    2 ≤ list.countP p := by
  induction list with
  | nil => cases inA
  | cons first rest ih =>
    have later : ∀ c ∈ rest, p c = true → 0 < rest.countP p := fun c member holds =>
      List.countP_pos_iff.mpr ⟨c, member, holds⟩
    rcases List.mem_cons.mp inA with rfl | laterA
    · rw [List.countP_cons_of_pos holdsA]
      have inRest := (List.mem_cons.mp inB).resolve_left (Ne.symm differ)
      have counted := later b inRest holdsB
      omega
    · rcases List.mem_cons.mp inB with rfl | laterB
      · rw [List.countP_cons_of_pos holdsB]
        have counted := later a laterA holdsA
        omega
      · rw [List.countP_cons]
        have counted := ih laterA laterB
        omega

/-- Under the exclusions, a true visited version is the one that is implemented. -/
theorem trueVersion?_eq_some (exclusive : ∀ f ∈ db.exclusions visited, f.holds valuation = true)
    {name : String} {version : Version} :
    db.trueVersion? visited valuation name = some version ↔
      version ∈ db.listedVersions visited name ∧
        valuation (.extension (.exact name version)) = true := by
  constructor
  · intro found
    have truth := List.find?_some found
    exact ⟨List.mem_of_find?_eq_some found, truth⟩
  · rintro ⟨listed, truth⟩
    cases found : db.trueVersion? visited valuation name with
    | none => exact absurd truth (List.find?_eq_none.mp found version listed)
    | some other =>
      have otherListed := List.mem_of_find?_eq_some found
      have otherTruth := List.find?_some found
      refine congrArg some (Decidable.not_not.mp fun differ => ?_)
      have several : 2 ≤ (db.listedVersions visited name).countP
          fun version => valuation (.extension (.exact name version)) :=
        two_le_countP differ otherListed listed otherTruth truth
      have atMostOne := holds_exclusion.mp (exclusive _ (mem_exclusions.mpr
        ⟨name, Nat.le_trans several List.countP_le_length, rfl⟩))
      rw [List.countP_map] at atMostOne
      exact Nat.not_succ_le_self 1 (Nat.le_trans several atMostOne)

theorem lookup?_completion {name : String} :
    lookup? name (db.completion visited valuation).extensions =
      db.trueVersion? visited valuation name := by
  refine lookup?_filterMap fun isSome => mem_ascending.mpr ?_
  obtain ⟨version, found⟩ := Option.ne_none_iff_exists'.mp isSome
  have listed := List.mem_of_find?_eq_some found
  exact List.mem_map.mpr ⟨.exact name version,
    List.mem_filterMap.mpr ⟨_, (mem_listedVersions.mp listed).1, rfl⟩, rfl⟩

end

/-- Neither a formula nor what it leads to mentions a parameter, and all of it has a meaning. -/
structure PlainFrom (db : Database) (root : Formula) : Prop where
  compiles : db.CompilesFrom root
  noParameter : ∀ param, ¬ db.Reaches root (.parameter param)

/-- A valuation of the visited terms under which everything an expansion derives holds. -/
structure Models (db : Database) (root : Formula) (visited : List Term) (valuation : Term → Bool) :
    Prop where
  visits : ∀ term, term ∈ visited ↔ db.Reaches root term
  contributed : ∀ term ∈ visited, ∀ c, db.consequence term = .ok c →
    ∀ f ∈ c.derived, f.holds valuation = true
  exclusive : ∀ f ∈ db.exclusions visited, f.holds valuation = true
  widths : ∀ f ∈ widths visited, f.holds valuation = true

namespace Models

variable {db : Database} {root : Formula} {visited : List Term} {valuation : Term → Bool}

theorem implements_iff (models : Models db root visited valuation) {name : String}
    {version : Version} :
    lookup? name (db.completion visited valuation).extensions = some version ↔
      version ∈ db.versions name ∧ .extension (.exact name version) ∈ visited ∧
        valuation (.extension (.exact name version)) = true := by
  rw [lookup?_completion, trueVersion?_eq_some models.exclusive, mem_listedVersions]
  exact ⟨fun ⟨⟨seen, listed⟩, truth⟩ => ⟨listed, seen, truth⟩,
    fun ⟨listed, seen, truth⟩ => ⟨⟨seen, listed⟩, truth⟩⟩

/-- On a visited version, the configuration and the valuation agree. -/
theorem agrees_exact (models : Models db root visited valuation) (compiles : db.CompilesFrom root)
    {name : String} {version : Version} (seen : .extension (.exact name version) ∈ visited) :
    (db.completion visited valuation).valuation (.extension (.exact name version)) =
      valuation (.extension (.exact name version)) := by
  rw [Bool.eq_iff_iff, FullConfig.valuation_exact, models.implements_iff]
  refine ⟨fun ⟨_, _, truth⟩ => truth, fun truth => ⟨?_, seen, truth⟩⟩
  have reaches := (models.visits _).mp seen
  obtain ⟨c, contributes⟩ := exists_consequence fun clause => compiles _ clause reaches
  refine Decidable.not_not.mp fun missing => ?_
  -- a version the database does not list is derived to be false
  have derived : Formula.neg (.atom (.extension (.exact name version))) ∈ c.derived := by
    cases contributes_of_consequence contributes with
    | requirement requires _ =>
      cases requires with
      | version required => exact absurd (mem_versions_of_requirement? required) missing
    | unlisted _ _ => exact List.mem_singleton.mpr rfl
    | unavailable isRange _ => cases isRange
    | range isRange => cases isRange
    | nothing _ listed => exact absurd (listed _ rfl).2 missing
  have fails := models.contributed _ seen c contributes _ derived
  rw [Formula.holds_neg, Formula.holds_atom, truth] at fails
  cases fails

/-- On a visited range, the configuration and the valuation agree. -/
theorem agrees_range (models : Models db root visited valuation) (compiles : db.CompilesFrom root)
    {range : ExtensionTerm} (isRange : range.isExact = false) (seen : .extension range ∈ visited) :
    (db.completion visited valuation).valuation (.extension range) =
      valuation (.extension range) := by
  have reaches := (models.visits _).mp seen
  obtain ⟨c, contributes⟩ := exists_consequence fun clause => compiles _ clause reaches
  have admittedAgree : (∃ term ∈ db.admitted range,
        (db.completion visited valuation).valuation term = true) ↔
      ∃ term ∈ db.admitted range, valuation term = true := by
    refine exists_congr fun term => and_congr_right fun member => ?_
    obtain ⟨version, listed, accepted, rfl⟩ := mem_admitted.mp member
    rw [models.agrees_exact compiles
      ((models.visits _).mpr (.admitted reaches isRange listed accepted))]
  have defined : ∀ name version,
      lookup? name (db.completion visited valuation).extensions = some version →
        version ∈ db.versions name := fun _ _ found => (models.implements_iff.mp found).1
  rw [Bool.eq_iff_iff, FullConfig.range_iff_admitted defined, admittedAgree]
  cases contributes_of_consequence contributes with
  | requirement requires _ => cases requires with | version _ => cases isRange
  | unlisted exact _ => rw [exact] at isRange; cases isRange
  | unavailable _ none =>
    have fails := models.contributed _ seen _ contributes _ (List.mem_singleton.mpr rfl)
    rw [Formula.holds_neg, Formula.holds_atom, Bool.not_eq_true'] at fails
    simp [none, fails]
  | range _ =>
    have agrees := models.contributed _ seen _ contributes _ (List.mem_singleton.mpr rfl)
    rw [Formula.holds_iff, beq_iff_eq, Formula.holds_atom, Formula.holds_anyOf, List.any_map] at agrees
    rw [agrees, List.any_eq_true]
    rfl
  | nothing _ listed => rw [(listed range rfl).1] at isRange; cases isRange

/-- On a visited register width, the configuration and the valuation agree. -/
theorem agrees_xlen (models : Models db root visited valuation) {width : Xlen}
    (seen : .xlen width ∈ visited) :
    (db.completion visited valuation).valuation (.xlen width) = valuation (.xlen width) := by
  have oneOf := models.widths _ (Database.mem_widths.mpr ⟨⟨width, seen⟩, rfl⟩)
  simp only [Formula.holds_oneOf, Xlen.both, List.map_cons, List.map_nil, List.countP_cons,
    List.countP_nil, Formula.holds_atom, beq_iff_eq] at oneOf
  rw [Bool.eq_iff_iff, FullConfig.valuation_xlen rfl]
  cases at32 : valuation (.xlen .rv32) <;> cases at64 : valuation (.xlen .rv64) <;>
    cases width <;> simp_all

/-- On every term that a plain formula leads to, the configuration and the valuation agree. -/
theorem agrees (models : Models db root visited valuation) (ground : root.IsGround)
    (plain : db.PlainFrom root) {term : Term} (reaches : db.Reaches root term) :
    (db.completion visited valuation).valuation term = valuation term := by
  have seen := (models.visits term).mpr reaches
  cases term with
  | extension ext =>
    cases exact : ext.isExact with
    | true =>
      rw [eq_exact_of_isExact exact] at seen ⊢
      exact models.agrees_exact plain.compiles seen
    | false => exact models.agrees_range plain.compiles exact seen
  | parameter param => exact absurd reaches (plain.noParameter param)
  | xlen width => exact models.agrees_xlen seen
  | free id => cases isFree_of_reaches ground reaches

/-- What a true visited version requires is met, so the configuration is legal. -/
theorem legal_completion (models : Models db root visited valuation) (ground : root.IsGround)
    (plain : db.PlainFrom root) : (db.completion visited valuation).Legal db where
  fixed := rfl
  defined name version found := (models.implements_iff.mp found).1
  meetsVersion name version clause found required := by
    obtain ⟨_, seen, truth⟩ := models.implements_iff.mp found
    have reaches := (models.visits _).mp seen
    have requires : db.Requires (.extension (.exact name version)) clause := .version required
    obtain ⟨c, contributes⟩ := exists_consequence fun clause => plain.compiles _ clause reaches
    obtain ⟨f, compiled⟩ := plain.compiles _ clause reaches requires
    have derived : Formula.implies (.atom (.extension (.exact name version))) f ∈ c.derived := by
      cases contributes_of_consequence contributes with
      | requirement requires' compiled' =>
        obtain rfl := requires.unique requires'
        cases compiled.symm.trans compiled'
        exact List.mem_singleton.mpr rfl
      | unlisted _ missing => exact absurd (mem_versions_of_requirement? required) missing
      | unavailable isRange _ => cases isRange
      | range isRange => cases isRange
      | nothing unrequired _ => exact absurd requires (unrequired clause)
    have holds := models.contributed _ seen c contributes _ derived
    rw [Formula.holds_implies, Formula.holds_atom, truth, Bool.not_true, Bool.false_or] at holds
    refine ⟨f, compiled, ?_⟩
    rw [FullConfig.verdict_eq_yes_iff rfl (clause.isGround_compile f compiled), ← holds]
    exact Formula.holds_congr fun term occurs =>
      models.agrees ground plain (.requirement reaches requires compiled occurs)
  meetsParameter name value clause found := nomatch found

end Models

/-- A valuation of an expanded plain formula gives a legal configuration that satisfies the
formula. -/
theorem exists_legal_of_holds {db : Database} {root f : Formula} {valuation : Term → Bool}
    (ground : root.IsGround) (plain : db.PlainFrom root) (expanded : db.expand root = .ok f)
    (truth : f.holds valuation = true) :
    ∃ config : FullConfig, config.Ordered ∧ config.Legal db ∧
      root.verdict config.evaluate = .yes := by
  obtain ⟨visited, _, visits, derived, isDerived, members⟩ := derive_spec plain.compiles
  obtain ⟨derived', isDerived', result⟩ := exists_ok_of_bind expanded
  cases isDerived.symm.trans isDerived'
  cases result
  rw [Formula.holds_allOf, List.all_cons, Bool.and_eq_true, List.all_eq_true] at truth
  have models : Models db root visited valuation := {
    visits
    contributed := fun term seen c contributes f inside =>
      truth.2 f ((members f).mpr (.inl ⟨term, seen, c, contributes, inside⟩))
    exclusive := fun f excludes => truth.2 f ((members f).mpr (.inr (.inl excludes)))
    widths := fun f isWidth => truth.2 f ((members f).mpr (.inr (.inr (.inr isWidth)))) }
  refine ⟨_, ordered_completion, models.legal_completion ground plain, ?_⟩
  rw [FullConfig.verdict_eq_yes_iff rfl ground, ← truth.1]
  exact Formula.holds_congr fun term occurs => models.agrees ground plain (.root occurs)

end Database

end IsaLogic
