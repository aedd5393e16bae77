import IsaLogic.Proofs.Condition.Partial
import IsaLogic.Proofs.Configuration.Completion
import IsaLogic.Proofs.Json.Canonical

/-!
# What a partial configuration forces

A realization of a partial configuration has what is mandatory, nothing that is prohibited, and
only versions that the database lists (`PartialConfig.Realizes`). A term is open if some realization
satisfies it and another does not (`PartialConfig.LeavesOpen`). Which versions the realizations can
have is decided by all entries of the name together (`Realizes.exists_yes_iff`,
`Realizes.exists_no_iff`), but the verdict looks at one entry after another: it is left open exactly
where each entry would leave the term open if it were the only one
(`Realizes.evaluate_eq_maybe_iff`). So two entries can force what neither of them does.
-/

namespace IsaLogic

namespace FullConfig

variable {config : FullConfig} {ext : ExtensionTerm}

/-- A configuration with an extension at a version, instead of whatever it implements of that. -/
def implement (config : FullConfig) (name : String) (version : Version) : FullConfig :=
  { config with extensions := insertEntry name version config.extensions }

/-- A configuration without an extension. -/
def withdraw (config : FullConfig) (name : String) : FullConfig :=
  { config with extensions := config.extensions.filter fun entry => entry.1 != name }

theorem lookup?_implement (config : FullConfig) (name other : String) (version : Version) :
    lookup? other (config.implement name version).extensions =
      if name = other then some version else lookup? other config.extensions :=
  lookup?_insertEntry name other version config.extensions

theorem lookup?_withdraw (config : FullConfig) (name other : String) :
    lookup? other (config.withdraw name).extensions =
      if name = other then none else lookup? other config.extensions := by
  by_cases same : name = other
  · subst same
    rw [if_pos rfl, lookup?, withdraw, Option.map_eq_none_iff, List.find?_eq_none]
    intro entry member
    simpa using (List.mem_filter.mp member).2
  · rw [if_neg same]
    exact lookup?_filter_ne (Ne.symm same) config.extensions

theorem Ordered.implement (ordered : config.Ordered) (name : String) (version : Version) :
    (config.implement name version).Ordered where
  extensions := List.pairwise_map.mpr <|
    AscendingKeys.insertEntry (List.pairwise_map.mp ordered.extensions) name version
  params := ordered.params

theorem Ordered.withdraw (ordered : config.Ordered) (name : String) :
    (config.withdraw name).Ordered where
  extensions := ordered.extensions.sublist (List.filter_sublist.map Prod.fst)
  params := ordered.params

/-- Without an extension, terms on it are refused and all others are as before. -/
theorem evaluate_withdraw (name : String) : (config.withdraw name).evaluate (.extension ext) =
    if name = ext.name then .no else config.evaluate (.extension ext) := by
  rw [evaluate, fact, lookup?_withdraw]
  by_cases same : name = ext.name
  · rw [if_pos same, if_pos same]
    rfl
  · rw [if_neg same, if_neg same]
    rfl

/-- With an extension at a version, terms on it ask that version, and all others are as before. -/
theorem evaluate_implement (name : String) (version : Version) :
    (config.implement name version).evaluate (.extension ext) =
      if name = ext.name then .ofBool (ext.accepts version)
      else config.evaluate (.extension ext) := by
  rw [evaluate, fact, lookup?_implement]
  by_cases same : name = ext.name
  · rw [if_pos same, if_pos same]
    rfl
  · rw [if_neg same, if_neg same]
    rfl

end FullConfig

namespace PartialConfig

/-- A full configuration with everything that a partial one has as mandatory and nothing that it has
as prohibited, which implements only versions that the database lists. -/
structure Realizes (db : Database) (known : PartialConfig) (full : FullConfig) : Prop where
  ordered : full.Ordered
  mandatory : ∀ term ∈ known.mandatory, full.evaluate (.extension term) = .yes
  prohibited : ∀ term ∈ known.prohibited, full.evaluate (.extension term) = .no
  listed : ∀ name version,
    lookup? name full.extensions = some version → version ∈ db.versions name

/-- Some realization satisfies the term, and some realization does not. -/
structure LeavesOpen (db : Database) (known : PartialConfig) (ext : ExtensionTerm) : Prop where
  satisfiable : ∃ full, known.Realizes db full ∧ full.evaluate (.extension ext) = .yes
  refusable : ∃ full, known.Realizes db full ∧ full.evaluate (.extension ext) = .no

/-- A listed version of an extension that no entry rules out. -/
structure Allows (db : Database) (known : PartialConfig) (name : String) (version : Version) :
    Prop where
  listed : version ∈ db.versions name
  mandatory : ∀ term ∈ known.mandatory, term.name = name → term.accepts version = true
  prohibited : ∀ term ∈ known.prohibited, term.name = name → term.accepts version = false

namespace Realizes

variable {db : Database} {known : PartialConfig} {full : FullConfig}

/-- A realization of more entries is one of fewer. -/
theorem of_subset (realizes : known.Realizes db full) {fewer : PartialConfig}
    (mandatory : fewer.mandatory ⊆ known.mandatory)
    (prohibited : fewer.prohibited ⊆ known.prohibited) : fewer.Realizes db full where
  ordered := realizes.ordered
  mandatory term member := realizes.mandatory term (mandatory member)
  prohibited term member := realizes.prohibited term (prohibited member)
  listed := realizes.listed

theorem allows (realizes : known.Realizes db full) {name : String} {version : Version}
    (found : lookup? name full.extensions = some version) : known.Allows db name version where
  listed := realizes.listed name version found
  mandatory term member sameName := by
    obtain ⟨other, foundOther, accepted⟩ :=
      FullConfig.evaluate_extension_eq_yes.mp (realizes.mandatory term member)
    cases (sameName ▸ foundOther).symm.trans found
    exact accepted
  prohibited term member sameName :=
    FullConfig.evaluate_extension_eq_no.mp (realizes.prohibited term member) version
      (sameName ▸ found)

/-- The version of an extension can be exchanged for any that is allowed. -/
theorem implement (realizes : known.Realizes db full) {name : String} {version : Version}
    (allows : known.Allows db name version) : known.Realizes db (full.implement name version) where
  ordered := realizes.ordered.implement name version
  mandatory term member := by
    rw [FullConfig.evaluate_implement]
    split
    · rename_i sameName
      rw [allows.mandatory term member sameName.symm]
      rfl
    · exact realizes.mandatory term member
  prohibited term member := by
    rw [FullConfig.evaluate_implement]
    split
    · rename_i sameName
      rw [allows.prohibited term member sameName.symm]
      rfl
    · exact realizes.prohibited term member
  listed other another found := by
    rw [FullConfig.lookup?_implement] at found
    split at found
    · rename_i sameName
      cases found
      exact sameName ▸ allows.listed
    · exact realizes.listed other another found

/-- An extension of which nothing is mandatory can be left out. -/
theorem withdraw (realizes : known.Realizes db full) {name : String}
    (free : ∀ term ∈ known.mandatory, term.name ≠ name) :
    known.Realizes db (full.withdraw name) where
  ordered := realizes.ordered.withdraw name
  mandatory term member := by
    rw [FullConfig.evaluate_withdraw, if_neg (free term member).symm]
    exact realizes.mandatory term member
  prohibited term member := by
    rw [FullConfig.evaluate_withdraw]
    split
    · rfl
    · exact realizes.prohibited term member
  listed other another found := by
    rw [FullConfig.lookup?_withdraw] at found
    split at found
    · cases found
    · exact realizes.listed other another found

variable {ext : ExtensionTerm}

theorem exists_yes_iff (realizes : known.Realizes db full) :
    (∃ full, known.Realizes db full ∧ full.evaluate (.extension ext) = .yes) ↔
      ∃ version, known.Allows db ext.name version ∧ ext.accepts version = true := by
  constructor
  · rintro ⟨other, realizesToo, isYes⟩
    obtain ⟨version, found, accepted⟩ := FullConfig.evaluate_extension_eq_yes.mp isYes
    exact ⟨version, realizesToo.allows found, accepted⟩
  · rintro ⟨version, allows, accepted⟩
    refine ⟨_, realizes.implement allows, ?_⟩
    rw [FullConfig.evaluate_implement, if_pos rfl, accepted]
    rfl

theorem exists_no_iff (realizes : known.Realizes db full) :
    (∃ full, known.Realizes db full ∧ full.evaluate (.extension ext) = .no) ↔
      (∀ term ∈ known.mandatory, term.name ≠ ext.name) ∨
        ∃ version, known.Allows db ext.name version ∧ ext.accepts version = false := by
  constructor
  · rintro ⟨other, realizesToo, isNo⟩
    cases found : lookup? ext.name other.extensions with
    | none =>
      refine .inl fun term member sameName => ?_
      obtain ⟨version, foundTerm, _⟩ :=
        FullConfig.evaluate_extension_eq_yes.mp (realizesToo.mandatory term member)
      rw [sameName, found] at foundTerm
      cases foundTerm
    | some version =>
      exact .inr ⟨version, realizesToo.allows found,
        FullConfig.evaluate_extension_eq_no.mp isNo version found⟩
  · rintro (free | ⟨version, allows, refused⟩)
    · refine ⟨_, realizes.withdraw free, ?_⟩
      rw [FullConfig.evaluate_withdraw, if_pos rfl]
    · refine ⟨_, realizes.implement allows, ?_⟩
      rw [FullConfig.evaluate_implement, if_pos rfl, refused]
      rfl

end Realizes

/-- The mandatory requirements do not decide where each that leaves any version leaves wanted and
unwanted ones. -/
theorem verdictOfMandatory_eq_none {wanted : List Version} {left : List (List Version)} :
    verdictOfMandatory wanted left = none ↔ ∀ allowed ∈ left, allowed ≠ [] →
      (∃ version ∈ allowed, version ∈ wanted) ∧ ∃ version ∈ allowed, version ∉ wanted := by
  induction left with
  | nil => exact iff_of_true rfl (List.forall_mem_nil _)
  | cons allowed rest ih =>
    rw [verdictOfMandatory, List.forall_mem_cons, ← ih]
    by_cases empty : allowed = []
    · simp [empty]
    · have allWanted : allowed.all wanted.contains = true ↔
          ¬ ∃ version ∈ allowed, version ∉ wanted := by simp
      have noneWanted : (allowed.all fun version => !wanted.contains version) = true ↔
          ¬ ∃ version ∈ allowed, version ∈ wanted := by simp
      rw [if_neg (by simpa using empty)]
      split
      · rename_i isAll
        exact iff_of_false (Option.some_ne_none _) fun both => allWanted.mp isAll (both.1 empty).2
      split
      · rename_i isNone
        exact iff_of_false (Option.some_ne_none _) fun both => noneWanted.mp isNone (both.1 empty).1
      · rename_i notAll notNone
        rw [allWanted, not_not] at notAll
        rw [noneWanted, not_not] at notNone
        exact ⟨fun later => ⟨fun _ => ⟨notNone, notAll⟩, later⟩, And.right⟩

theorem exists_satisfying {term : ExtensionTerm} {available : List Version} :
    term.satisfying available ≠ [] ↔ ∃ version ∈ available, term.accepts version = true := by
  rw [Ne, List.eq_nil_iff_forall_not_mem, not_forall_not]
  exact exists_congr fun version => mem_satisfying

theorem forall_mem_leaves {name : String} {available : List Version} {terms : List ExtensionTerm}
    {p : List Version → Prop} : (∀ versions ∈ leaves name available terms, p versions) ↔
      ∀ term ∈ terms, term.name = name → p (term.satisfying available) := by
  rw [leaves, List.forall_mem_map]
  simp [and_imp]

/-- The verdict on a known extension is left open where some listed version is wanted, each
mandatory entry that allows any version allows wanted and unwanted ones, and each prohibited entry
leaves some wanted one. -/
theorem evaluateExtension_eq_maybe {db : Database} {known : PartialConfig} {ext : ExtensionTerm}
    (isKnown : db.versions ext.name ≠ []) :
    known.evaluateExtension db ext = .maybe ↔
      (∃ version ∈ db.versions ext.name, ext.accepts version = true) ∧
      (∀ term ∈ known.mandatory, term.name = ext.name →
        (∃ version ∈ db.versions ext.name, term.accepts version = true) →
        (∃ version ∈ db.versions ext.name,
          term.accepts version = true ∧ ext.accepts version = true) ∧
        ∃ version ∈ db.versions ext.name,
          term.accepts version = true ∧ ext.accepts version = false) ∧
      ∀ term ∈ known.prohibited, term.name = ext.name →
        ∃ version ∈ db.versions ext.name,
          term.accepts version = false ∧ ext.accepts version = true := by
  have undecided : verdictOfMandatory (ext.satisfying (db.versions ext.name))
      (leaves ext.name (db.versions ext.name) known.mandatory) = none ↔
      ∀ term ∈ known.mandatory, term.name = ext.name →
        (∃ version ∈ db.versions ext.name, term.accepts version = true) →
        (∃ version ∈ db.versions ext.name,
          term.accepts version = true ∧ ext.accepts version = true) ∧
        ∃ version ∈ db.versions ext.name,
          term.accepts version = true ∧ ext.accepts version = false := by
    simp only [verdictOfMandatory_eq_none, forall_mem_leaves, exists_satisfying, mem_satisfying,
      not_and, and_assoc]
    grind
  have banned : (leaves ext.name (db.versions ext.name) known.prohibited).any
      (fun versions => (ext.satisfying (db.versions ext.name)).all versions.contains) = true ↔
      ¬ ∀ term ∈ known.prohibited, term.name = ext.name →
        ∃ version ∈ db.versions ext.name,
          term.accepts version = false ∧ ext.accepts version = true := by
    rw [← Bool.not_eq_false, List.any_eq_false, forall_mem_leaves]
    simp only [List.all_eq_true, List.contains_iff_mem, mem_satisfying]
    grind
  rw [evaluateExtension, ← undecided]
  simp only [List.isEmpty_iff, isKnown, if_false]
  split
  · rename_i none
    exact iff_of_false (by decide) fun both => exists_satisfying.mpr both.1 none
  rename_i some
  rw [and_iff_right (exists_satisfying.mp some)]
  split
  · rename_i verdict decides
    rw [decides]
    refine iff_of_false ?_ fun both => Option.some_ne_none _ both.1
    obtain ⟨_, _, ⟨rfl, _⟩ | ⟨rfl, _⟩⟩ := of_verdictOfMandatory decides <;> decide
  · rename_i undecides
    rw [and_iff_right undecides]
    split
    · rename_i ruledOut
      exact iff_of_false (by decide) (banned.mp ruledOut)
    · rename_i notRuledOut
      exact iff_of_true rfl (not_not.mp fun absent => notRuledOut (banned.mpr absent))

namespace Realizes

variable {db : Database} {known : PartialConfig} {full : FullConfig} {ext term : ExtensionTerm}

theorem leavesOpen_iff (realizes : known.Realizes db full) : known.LeavesOpen db ext ↔
    (∃ version, known.Allows db ext.name version ∧ ext.accepts version = true) ∧
      ((∀ term ∈ known.mandatory, term.name ≠ ext.name) ∨
        ∃ version, known.Allows db ext.name version ∧ ext.accepts version = false) := by
  rw [← realizes.exists_yes_iff, ← realizes.exists_no_iff]
  exact ⟨fun isOpen => ⟨isOpen.satisfiable, isOpen.refusable⟩, fun both => ⟨both.1, both.2⟩⟩

/-- Where no entry speaks of an extension, a term on it is open if some listed version is wanted. -/
theorem leavesOpen_of_none (realizes : known.Realizes db full)
    (mandatory : ∀ term ∈ known.mandatory, term.name ≠ ext.name)
    (prohibited : ∀ term ∈ known.prohibited, term.name ≠ ext.name) :
    known.LeavesOpen db ext ↔ ∃ version ∈ db.versions ext.name, ext.accepts version = true := by
  have allows : ∀ version, known.Allows db ext.name version ↔ version ∈ db.versions ext.name :=
    fun version => ⟨Allows.listed, fun listed =>
      ⟨listed, fun term member same => absurd same (mandatory term member),
        fun term member same => absurd same (prohibited term member)⟩⟩
  rw [realizes.leavesOpen_iff]
  simp only [allows]
  exact and_iff_left (.inl mandatory)

/-- Where one mandatory entry alone speaks of an extension, a term on it is open if the entry admits
both wanted and unwanted versions. -/
theorem leavesOpen_of_mandatory (realizes : known.Realizes db full)
    (member : term ∈ known.mandatory) (sameName : term.name = ext.name)
    (only : ∀ other ∈ known.mandatory, other.name = ext.name → other = term)
    (prohibited : ∀ other ∈ known.prohibited, other.name ≠ ext.name) :
    known.LeavesOpen db ext ↔
      (∃ version ∈ db.versions ext.name,
        term.accepts version = true ∧ ext.accepts version = true) ∧
      ∃ version ∈ db.versions ext.name,
        term.accepts version = true ∧ ext.accepts version = false := by
  have allows : ∀ version, known.Allows db ext.name version ↔
      version ∈ db.versions ext.name ∧ term.accepts version = true :=
    fun version => ⟨fun allows => ⟨allows.listed, allows.mandatory term member sameName⟩,
      fun both => ⟨both.1, fun other isOther same => only other isOther same ▸ both.2,
        fun other isOther same => absurd same (prohibited other isOther)⟩⟩
  have mentioned : ¬ ∀ other ∈ known.mandatory, other.name ≠ ext.name :=
    fun none => none term member sameName
  rw [realizes.leavesOpen_iff]
  simp only [allows, mentioned, false_or, and_assoc]

/-- Where one prohibited entry alone speaks of an extension, a term on it is open if some wanted
version is not prohibited. -/
theorem leavesOpen_of_prohibited (realizes : known.Realizes db full)
    (member : term ∈ known.prohibited) (sameName : term.name = ext.name)
    (mandatory : ∀ other ∈ known.mandatory, other.name ≠ ext.name)
    (only : ∀ other ∈ known.prohibited, other.name = ext.name → other = term) :
    known.LeavesOpen db ext ↔
      ∃ version ∈ db.versions ext.name,
        term.accepts version = false ∧ ext.accepts version = true := by
  have allows : ∀ version, known.Allows db ext.name version ↔
      version ∈ db.versions ext.name ∧ term.accepts version = false :=
    fun version => ⟨fun allows => ⟨allows.listed, allows.prohibited term member sameName⟩,
      fun both => ⟨both.1, fun other isOther same => absurd same (mandatory other isOther),
        fun other isOther same => only other isOther same ▸ both.2⟩⟩
  rw [realizes.leavesOpen_iff]
  simp only [allows, and_assoc]
  exact and_iff_left (.inl mandatory)

/-- Under no entries at all, a term is open if some listed version is wanted. -/
theorem leavesOpen_empty (realizes : known.Realizes db full) : LeavesOpen db {} ext ↔
    ∃ version ∈ db.versions ext.name, ext.accepts version = true := by
  have free : Realizes db {} full := realizes.of_subset (List.nil_subset _) (List.nil_subset _)
  exact free.leavesOpen_of_none (List.forall_mem_nil _) (List.forall_mem_nil _)

theorem leavesOpen_mandatory_alone (realizes : known.Realizes db full)
    (member : term ∈ known.mandatory) (sameName : term.name = ext.name) :
    LeavesOpen db { mandatory := [term] } ext ↔
      (∃ version ∈ db.versions ext.name,
        term.accepts version = true ∧ ext.accepts version = true) ∧
      ∃ version ∈ db.versions ext.name,
        term.accepts version = true ∧ ext.accepts version = false := by
  have alone : Realizes db { mandatory := [term] } full :=
    realizes.of_subset (by simpa using member) (List.nil_subset _)
  exact alone.leavesOpen_of_mandatory (List.mem_singleton.mpr rfl) sameName
    (fun other isOther _ => List.mem_singleton.mp isOther) (List.forall_mem_nil _)

theorem leavesOpen_prohibited_alone (realizes : known.Realizes db full)
    (member : term ∈ known.prohibited) (sameName : term.name = ext.name) :
    LeavesOpen db { prohibited := [term] } ext ↔
      ∃ version ∈ db.versions ext.name,
        term.accepts version = false ∧ ext.accepts version = true := by
  have alone : Realizes db { prohibited := [term] } full :=
    realizes.of_subset (List.nil_subset _) (by simpa using member)
  exact alone.leavesOpen_of_prohibited (List.mem_singleton.mpr rfl) sameName
    (List.forall_mem_nil _) fun other isOther _ => List.mem_singleton.mp isOther

/-- The verdict on a known extension is left open exactly where the configuration without entries
leaves it open, and each entry of the extension alone does. -/
theorem evaluate_eq_maybe_iff (realizes : known.Realizes db full)
    (isKnown : db.versions ext.name ≠ []) :
    known.evaluate db (.extension ext) = .maybe ↔
      LeavesOpen db {} ext ∧
      (∀ term ∈ known.mandatory, term.name = ext.name →
        LeavesOpen db { mandatory := [term] } ext) ∧
      ∀ term ∈ known.prohibited, term.name = ext.name →
        LeavesOpen db { prohibited := [term] } ext := by
  rw [evaluate, evaluateExtension_eq_maybe isKnown, realizes.leavesOpen_empty]
  refine and_congr_right fun _ => and_congr ?_ ?_
  · refine forall₃_congr fun term member sameName => ?_
    -- the realization has a version that the entry admits, so the entry is not skipped
    obtain ⟨version, found, accepted⟩ :=
      FullConfig.evaluate_extension_eq_yes.mp (realizes.mandatory term member)
    have listed := realizes.listed term.name version found
    rw [realizes.leavesOpen_mandatory_alone member sameName]
    exact imp_iff_right ⟨version, sameName ▸ listed, accepted⟩
  · refine forall₃_congr fun term member sameName => ?_
    rw [realizes.leavesOpen_prohibited_alone member sameName]

end Realizes

/-- What is open under more entries is open under fewer. -/
theorem LeavesOpen.of_subset {db : Database} {known fewer : PartialConfig} {ext : ExtensionTerm}
    (isOpen : known.LeavesOpen db ext) (mandatory : fewer.mandatory ⊆ known.mandatory)
    (prohibited : fewer.prohibited ⊆ known.prohibited) : fewer.LeavesOpen db ext where
  satisfiable := by
    obtain ⟨full, realizes, isYes⟩ := isOpen.satisfiable
    exact ⟨full, realizes.of_subset mandatory prohibited, isYes⟩
  refusable := by
    obtain ⟨full, realizes, isNo⟩ := isOpen.refusable
    exact ⟨full, realizes.of_subset mandatory prohibited, isNo⟩

/-- One entry that speaks of an extension has the last word: if it leaves a term open, so does the
whole configuration. -/
theorem Realizes.leavesOpen_of_evaluate {db : Database} {known : PartialConfig} {full : FullConfig}
    {ext : ExtensionTerm} (realizes : known.Realizes db full) (isKnown : db.versions ext.name ≠ [])
    (only : {term | term ∈ known.mandatory ++ known.prohibited ∧ term.name = ext.name}.Subsingleton)
    (isMaybe : known.evaluate db (.extension ext) = .maybe) : known.LeavesOpen db ext := by
  obtain ⟨free, byMandatory, byProhibited⟩ := (realizes.evaluate_eq_maybe_iff isKnown).mp isMaybe
  by_cases mandates : ∃ term ∈ known.mandatory, term.name = ext.name
  · obtain ⟨term, member, sameName⟩ := mandates
    have isTerm : ∀ other ∈ known.mandatory ++ known.prohibited, other.name = ext.name →
        other = term := fun other isOther same =>
      only ⟨isOther, same⟩ ⟨List.mem_append_left _ member, sameName⟩
    -- no entry is mandatory and prohibited at once, since there is a realization
    have notProhibited : ∀ other ∈ known.prohibited, other.name ≠ ext.name := by
      intro other isOther same
      have isNo := realizes.prohibited other isOther
      rw [isTerm other (List.mem_append_right _ isOther) same,
        realizes.mandatory term member] at isNo
      cases isNo
    rw [realizes.leavesOpen_of_mandatory member sameName
      (fun other isOther => isTerm other (List.mem_append_left _ isOther)) notProhibited]
    exact (realizes.leavesOpen_mandatory_alone member sameName).mp
      (byMandatory term member sameName)
  have notMandatory : ∀ term ∈ known.mandatory, term.name ≠ ext.name :=
    fun term member same => mandates ⟨term, member, same⟩
  by_cases prohibits : ∃ term ∈ known.prohibited, term.name = ext.name
  · obtain ⟨term, member, sameName⟩ := prohibits
    rw [realizes.leavesOpen_of_prohibited member sameName notMandatory fun other isOther same =>
      only ⟨List.mem_append_right _ isOther, same⟩ ⟨List.mem_append_right _ member, sameName⟩]
    exact (realizes.leavesOpen_prohibited_alone member sameName).mp
      (byProhibited term member sameName)
  · rw [realizes.leavesOpen_of_none notMandatory fun term member same =>
      prohibits ⟨term, member, same⟩]
    exact realizes.leavesOpen_empty.mp free

/-- A verdict on a known extension that is left open says that each entry alone leaves the term
open. What is open is always left open, and where no two entries speak of the extension, what is
left open is open. -/
theorem maybe_iff_each_leavesOpen {db : Database} {known : PartialConfig} {ext : ExtensionTerm}
    (realizable : ∃ full, known.Realizes db full) (isKnown : db.versions ext.name ≠ []) :
    (known.evaluate db (.extension ext) = .maybe ↔
      LeavesOpen db {} ext ∧
      (∀ term ∈ known.mandatory, term.name = ext.name →
        LeavesOpen db { mandatory := [term] } ext) ∧
      ∀ term ∈ known.prohibited, term.name = ext.name →
        LeavesOpen db { prohibited := [term] } ext) ∧
    (known.LeavesOpen db ext → known.evaluate db (.extension ext) = .maybe) ∧
    ({term | term ∈ known.mandatory ++ known.prohibited ∧ term.name = ext.name}.Subsingleton →
      known.evaluate db (.extension ext) = .maybe → known.LeavesOpen db ext) := by
  obtain ⟨full, realizes⟩ := realizable
  have decisive := realizes.evaluate_eq_maybe_iff isKnown
  refine ⟨decisive, fun isOpen => decisive.mpr ⟨?_, ?_, ?_⟩,
    realizes.leavesOpen_of_evaluate isKnown⟩
  · exact isOpen.of_subset (List.nil_subset _) (List.nil_subset _)
  · exact fun term member _ => isOpen.of_subset (by simpa using member) (List.nil_subset _)
  · exact fun term member _ => isOpen.of_subset (List.nil_subset _) (by simpa using member)

/-- One of three versions is ruled out, and another is asked for. -/
theorem maybe_iff_each_leavesOpen_mandatory :
    let one : Version := { major := 1, minor := 0, patch := 0 }
    let two : Version := { major := 2, minor := 0, patch := 0 }
    let three : Version := { major := 3, minor := 0, patch := 0 }
    let db : Database := { extensions := [("A", [(one, none), (two, none), (three, none)])] }
    let known : PartialConfig := {
      mandatory := [{ name := "A", op := .ge, version := two }]
      prohibited := [.any "B"] }
    let full : FullConfig := { extensions := [("A", three)] }
    let ext : ExtensionTerm := .exact "A" two
    known.Realizes db full ∧ db.versions ext.name ≠ [] ∧
      {term | term ∈ known.mandatory ++ known.prohibited ∧ term.name = ext.name}.Subsingleton ∧
      known.evaluate db (.extension ext) = .maybe ∧ known.LeavesOpen db ext := by
  intro one two three db known full ext
  have realizes : known.Realizes db full := {
    ordered := ⟨List.pairwise_singleton _ _, List.Pairwise.nil⟩
    mandatory := by decide
    prohibited := by decide
    listed := by
      intro name version found
      cases List.mem_singleton.mp (mem_of_lookup? found)
      decide }
  have listed : db.versions ext.name ≠ [] := by decide
  have only : {term | term ∈ known.mandatory ++ known.prohibited ∧
      term.name = ext.name}.Subsingleton := by
    rintro a ⟨isA, nameA⟩ b ⟨isB, nameB⟩
    simp only [known, List.mem_append, List.mem_singleton] at isA isB
    rcases isA with rfl | rfl
    · rcases isB with rfl | rfl
      · rfl
      · exact absurd nameB (by decide)
    · exact absurd nameA (by decide)
  have isMaybe : known.evaluate db (.extension ext) = .maybe := by cbv
  exact ⟨realizes, listed, only, isMaybe,
    (maybe_iff_each_leavesOpen ⟨full, realizes⟩ listed).2.2 only isMaybe⟩

/-- Two prohibited versions leave nothing of a range, and neither does so alone: the verdict is left
open although no realization satisfies the term. -/
theorem maybe_of_two_prohibited :
    let one : Version := { major := 1, minor := 0, patch := 0 }
    let two : Version := { major := 2, minor := 0, patch := 0 }
    let three : Version := { major := 3, minor := 0, patch := 0 }
    let db : Database := { extensions := [("A", [(one, none), (two, none), (three, none)])] }
    let known : PartialConfig := { prohibited := [.exact "A" one, .exact "A" two] }
    let ext : ExtensionTerm := { name := "A", op := .le, version := two }
    (∃ full, known.Realizes db full) ∧ db.versions ext.name ≠ [] ∧
      known.evaluate db (.extension ext) = .maybe ∧
      ¬ ∃ full, known.Realizes db full ∧ full.evaluate (.extension ext) = .yes := by
  intro one two three db known ext
  have realizes : known.Realizes db {} := {
    ordered := ⟨List.Pairwise.nil, List.Pairwise.nil⟩
    mandatory := nofun
    prohibited := by decide
    listed := fun name version found => by cases found }
  refine ⟨⟨_, realizes⟩, by decide, by cbv, ?_⟩
  rw [realizes.exists_yes_iff]
  rintro ⟨version, allows, accepted⟩
  have listed : version ∈ [one, two, three] := allows.listed
  have notOne := allows.prohibited (.exact "A" one) (List.mem_cons_self ..) rfl
  have notTwo := allows.prohibited (.exact "A" two)
    (List.mem_cons_of_mem _ (List.mem_singleton.mpr rfl)) rfl
  simp only [List.mem_cons, List.not_mem_nil, or_false] at listed
  rcases listed with rfl | rfl | rfl
  · exact absurd notOne (by decide)
  · exact absurd notTwo (by decide)
  · exact absurd accepted (by decide)

end PartialConfig

end IsaLogic
