import Mathlib
import IsaLogic.Database.Reader
import IsaLogic.Proofs.Computation
import IsaLogic.Proofs.Json.Record
import IsaLogic.Proofs.Term.Order

/-!
# Databases as documents declare them

`body?` says where a document lists a version of an extension under a spelling, and `declared?` what
is declared there. A database that is loaded knows the versions that are spelled in its document
(`Spells`), and no others. Several spellings can be read as one version; then the last of them in
the order of texts has its way (`SpellsLast`), and what the others declare is dropped
(`requirement?_of_parse`).
-/

namespace IsaLogic

namespace Database

/-- What the body of a version requires. -/
def required? (body : Json) : Option (Option Clause) :=
  match body.part? "requires" 0 with
  | none | some .null => some none
  | some requires => (Draft.clause? requires).map some

/-- The body of a version of an extension under the spelling that a document lists it with. -/
def body? (json : Json) (name spelling : String) : Option Json := do
  let extension ← (← json.part? "extensions" 0).lastField? name
  (← extension.part? "versions" 0).lastField? spelling

/-- What a document declares under a spelling of a version of an extension. -/
def declared? (json : Json) (name spelling : String) : Option (Option Clause) :=
  (body? json name spelling).bind required?

/-- The spellings of the versions of an extension, as they are kept of a document. -/
structure Listing (json : Json) (name : String) (spellings : List (String × Option Clause)) :
    Prop where
  ascending : AscendingKeys spellings
  listed : ∀ spelling,
    (lookup? spelling spellings).map some = (body? json name spelling).map required?

namespace Draft

/-- The spellings of the versions of an extension with their requirements. -/
def spellings (draft : Draft) (name : String) : List (String × Option Clause) :=
  (lookup? name draft.extensions).getD []

theorem required?_of_release? {body : Json} {requires : Option Clause}
    (read : release? body = some requires) : required? body = some requires := by
  obtain ⟨parts, areParts, further⟩ := Option.bind_eq_some_iff.mp read
  have whole := Json.parts_of_closedRecord? areParts
  simp only [List.zipIdx_singleton, List.map_cons, List.map_nil] at whole
  rw [whole] at further
  rw [required?]
  split at further
  · rename_i null
    rw [List.singleton_inj.mp null]
    exact further
  · rename_i absent
    rw [List.singleton_inj.mp absent]
    exact further
  · rename_i requirement notNull isPart
    rw [List.singleton_inj.mp isPart]
    obtain ⟨clause, isClause, same⟩ := Option.bind_eq_some_iff.mp further
    cases same
    split
    · rename_i absent
      cases absent
    · rename_i null
      cases null
      exact (notNull rfl).elim
    · rename_i given
      cases given
      rw [isClause]
      rfl
  · cases further

/-- The body of an extension is read spelling by spelling. -/
theorem spellings_of_extension? {json : Json} {spellings : List (String × Option Clause)}
    (read : extension? json = some spellings) :
    AscendingKeys spellings ∧ ∀ spelling, (lookup? spelling spellings).map some =
      ((json.part? "versions" 0).bind (·.lastField? spelling)).map required? := by
  obtain ⟨parts, areParts, further⟩ := Option.bind_eq_some_iff.mp read
  have whole := Json.parts_of_closedRecord? areParts
  simp only [List.zipIdx_singleton, List.map_cons, List.map_nil] at whole
  rw [whole] at further
  split at further
  · rename_i versions isPart
    rw [List.singleton_inj.mp isPart]
    refine ⟨Json.ascendingKeys_map? further, fun spelling => ?_⟩
    have found := Json.lookup?_map? further spelling
    rw [found, Option.bind_some]
    cases entry : versions.lastField? spelling with
    | none => rfl
    | some body =>
      rw [entry, Option.map_some] at found
      obtain ⟨requires, _, isRead⟩ := Option.map_eq_some_iff.mp found
      rw [Option.map_some, Option.map_some, ← isRead, required?_of_release? isRead.symm]
  · cases further

/-- A draft has the spellings that are written, each with what its body requires. -/
theorem spellings_of_ofJson? {json : Json} {draft : Draft} (read : ofJson? json = some draft) :
    (draft.extensions.map Prod.fst).Nodup ∧
      ∀ name, Listing json name (draft.spellings name) := by
  obtain ⟨parts, areParts, further⟩ := Option.bind_eq_some_iff.mp read
  have whole := Json.parts_of_closedRecord? areParts
  simp only [List.zipIdx_cons, List.zipIdx_nil, List.map_cons, List.map_nil] at whole
  rw [whole] at further
  obtain ⟨extensions, areExtensions, further⟩ := Option.bind_eq_some_iff.mp further
  obtain ⟨parameters, _, same⟩ := Option.bind_eq_some_iff.mp further
  cases same
  refine ⟨(Json.ascendingKeys_map? areExtensions).nodup, fun name => ?_⟩
  have found := Json.lookup?_map? areExtensions name
  have listed : ((json.part? "extensions" 0).getD (.obj [])).lastField? name =
      (json.part? "extensions" 0).bind (·.lastField? name) := by
    cases json.part? "extensions" 0 <;> rfl
  rw [listed] at found
  have isBody : ∀ spelling, body? json name spelling =
      ((json.part? "extensions" 0).bind (·.lastField? name)).bind fun extension =>
        (extension.part? "versions" 0).bind (·.lastField? spelling) :=
    fun spelling => (Option.bind_assoc ..).symm
  cases entry : (json.part? "extensions" 0).bind (·.lastField? name) with
  | none =>
    rw [entry] at found
    have absent : spellings ⟨extensions, parameters⟩ name = [] := by
      rw [spellings, Option.map_eq_none_iff.mp found]
      rfl
    rw [absent]
    exact ⟨List.Pairwise.nil, fun spelling => by rw [isBody, entry]; rfl⟩
  | some extension =>
    rw [entry, Option.map_some] at found
    obtain ⟨listed, isFound, isRead⟩ := Option.map_eq_some_iff.mp found
    have present : spellings ⟨extensions, parameters⟩ name = listed := by
      rw [spellings, isFound]
      rfl
    obtain ⟨ascending, each⟩ := spellings_of_extension? isRead.symm
    rw [present]
    exact ⟨ascending, fun spelling => by rw [isBody, entry, each]; rfl⟩

end Draft

section Adding

variable {db next : Database}

/-- Adding a version changes what is released of its extension, and of no other. -/
theorem releases_addVersion (db : Database) (name other : String) (version : Version)
    (requires : Option Clause) : (db.addVersion name version requires).releases other =
      if name = other then insertEntry version requires (db.releases name)
      else db.releases other := by
  rw [releases, addVersion, lookup?_insertEntry]
  split <;> rfl

/-- The requirement under the last of the spellings of a version. -/
def lastRequirement? (version : Version) (spellings : List (String × Option Clause)) :
    Option (Option Clause) :=
  (spellings.reverse.find? fun entry =>
    (Version.parse entry.1.toList).toOption == some version).map Prod.snd

theorem lastRequirement?_cons {version parsed : Version} {spelling : String}
    (isParsed : Version.parse spelling.toList = .ok parsed) (requires : Option Clause)
    (rest : List (String × Option Clause)) :
    lastRequirement? version ((spelling, requires) :: rest) =
      (lastRequirement? version rest).or (if parsed = version then some requires else none) := by
  rw [lastRequirement?, List.reverse_cons, List.find?_append, Option.map_or]
  refine congrArg (Option.or _) ?_
  rw [List.find?_singleton, isParsed]
  by_cases same : parsed = version <;> simp [same, Except.toOption]

theorem lastRequirement?_ne_none {version : Version} {spellings : List (String × Option Clause)}
    {spelling : String} (listed : spelling ∈ spellings.map Prod.fst)
    (parsed : Version.parse spelling.toList = .ok version) :
    lastRequirement? version spellings ≠ none := by
  obtain ⟨entry, member, rfl⟩ := List.mem_map.mp listed
  intro absent
  refine List.find?_eq_none.mp (Option.map_eq_none_iff.mp absent) entry
    (List.mem_reverse.mpr member) ?_
  rw [parsed]
  exact beq_self_eq_true _

/-- Where the last requirement of a version stands. -/
theorem exists_of_lastRequirement? {version : Version} {spellings : List (String × Option Clause)}
    {requires : Option Clause} (isLast : lastRequirement? version spellings = some requires) :
    ∃ before last after, spellings = before ++ (last, requires) :: after ∧
      Version.parse last.toList = .ok version ∧
      ∀ entry ∈ after, Version.parse entry.1.toList ≠ .ok version := by
  obtain ⟨⟨last, _⟩, found, rfl⟩ := Option.map_eq_some_iff.mp isLast
  obtain ⟨isParsed, after, before, whole, notAfter⟩ := List.find?_eq_some_iff_append.mp found
  refine ⟨before.reverse, last, after.reverse, ?_, toOption_eq_some.mp (eq_of_beq isParsed), ?_⟩
  · simpa using congrArg List.reverse whole
  · intro entry member parsed
    have differs := notAfter entry (List.mem_reverse.mp member)
    rw [parsed, Bool.not_eq_true'] at differs
    exact absurd rfl (beq_eq_false_iff_ne.mp differs)

/-- All spellings of an extension have been read, the last of each version counts, and nothing else
is changed. -/
theorem addSpellings_spec {name : String} {spellings : List (String × Option Clause)}
    (added : db.addSpellings name spellings = .ok next) :
    (∀ other, name ≠ other → next.releases other = db.releases other) ∧
      (∀ entry ∈ spellings, ∃ version, Version.parse entry.1.toList = .ok version) ∧
      ∀ version, lookup? version (next.releases name) =
        (lastRequirement? version spellings).or (lookup? version (db.releases name)) := by
  induction spellings generalizing db with
  | nil =>
    cases added
    exact ⟨fun _ _ => rfl, nofun, fun _ => rfl⟩
  | cons entry rest ih =>
    obtain ⟨spelling, requires⟩ := entry
    rw [addSpellings] at added
    split at added
    · rename_i parsed isParsed
      obtain ⟨others, read, found⟩ := ih added
      refine ⟨fun other differs => ?_, List.forall_mem_cons.mpr ⟨⟨parsed, isParsed⟩, read⟩,
        fun version => ?_⟩
      · rw [others other differs, releases_addVersion, if_neg differs]
      · rw [found, releases_addVersion, if_pos rfl, lookup?_insertEntry,
          lastRequirement?_cons isParsed, Option.or_assoc]
        split <;> rfl
    · cases added

/-- Where no name is repeated, the versions of an extension are those of its spellings. -/
theorem foldlM_addSpellings_spec {entries : List (String × List (String × Option Clause))}
    (distinct : (entries.map Prod.fst).Nodup)
    (added : entries.foldlM (fun db (entry : String × List (String × Option Clause)) =>
      db.addSpellings entry.1 entry.2) db = .ok next) (name : String) :
    (∀ entry ∈ (lookup? name entries).getD [],
        ∃ version, Version.parse entry.1.toList = .ok version) ∧
      ∀ version, lookup? version (next.releases name) =
        (lastRequirement? version ((lookup? name entries).getD [])).or
          (lookup? version (db.releases name)) := by
  induction entries generalizing db with
  | nil =>
    cases added
    exact ⟨nofun, fun _ => rfl⟩
  | cons entry rest ih =>
    rw [List.foldlM_cons] at added
    obtain ⟨middle, isMiddle, further⟩ := exists_ok_of_bind added
    obtain ⟨new, later⟩ := List.nodup_cons.mp distinct
    obtain ⟨readRest, foundRest⟩ := ih later further
    obtain ⟨others, read, found⟩ := addSpellings_spec isMiddle
    rw [lookup?_cons]
    split
    · rename_i same
      subst same
      have absent : lookup? entry.1 rest = none := by
        cases listed : lookup? entry.1 rest with
        | none => rfl
        | some spellings => exact absurd (List.mem_map_of_mem (mem_of_lookup? listed)) new
      rw [absent] at foundRest
      exact ⟨read, fun version => (foundRest version).trans (found version)⟩
    · rename_i differs
      exact ⟨readRest, fun version => by rw [foundRest, others name differs]⟩

end Adding

/-- The database of a draft has the versions that its spellings are read as, each with the
requirement under the last of them. -/
theorem ofDraft_spec {draft : Draft} {db : Database}
    (distinct : (draft.extensions.map Prod.fst).Nodup) (loaded : ofDraft draft = .ok db)
    (name : String) :
    (∀ entry ∈ draft.spellings name, ∃ version, Version.parse entry.1.toList = .ok version) ∧
      ∀ version, lookup? version (db.releases name) =
        lastRequirement? version (draft.spellings name) := by
  obtain ⟨extensions, added, whole⟩ := exists_ok_of_bind loaded
  cases whole
  obtain ⟨read, found⟩ := foldlM_addSpellings_spec distinct added name
  exact ⟨read, fun version => (found version).trans Option.or_none⟩

/-- A document lists a version of an extension under a spelling. -/
structure Spells (json : Json) (name : String) (version : Version) (spelling : String) : Prop where
  listed : body? json name spelling ≠ none
  parsed : Version.parse spelling.toList = .ok version

/-- Of the spellings of a version, one that stands last in the order of texts. -/
structure SpellsLast (json : Json) (name : String) (version : Version) (spelling : String) : Prop
    extends Spells json name version spelling where
  last : ∀ other, Spells json name version other → (compare other spelling).isLE = true

namespace Listing

variable {json : Json} {name : String} {spellings : List (String × Option Clause)}

theorem spells_iff (listing : Listing json name spellings) {version : Version} {spelling : String} :
    Spells json name version spelling ↔
      spelling ∈ spellings.map Prod.fst ∧ Version.parse spelling.toList = .ok version := by
  have same : lookup? spelling spellings = none ↔ body? json name spelling = none := by
    rw [← Option.map_eq_none_iff, listing.listed, Option.map_eq_none_iff]
  rw [← lookup?_ne_none, Ne, same]
  exact ⟨fun spells => ⟨spells.listed, spells.parsed⟩, fun both => ⟨both.1, both.2⟩⟩

/-- What is kept of a spelling is what its body requires. -/
theorem declared?_eq (listing : Listing json name spellings) (spelling : String) :
    declared? json name spelling = lookup? spelling spellings := by
  have each := listing.listed spelling
  rw [declared?]
  cases body : body? json name spelling with
  | none =>
    rw [body] at each
    exact (Option.map_eq_none_iff.mp each).symm
  | some value =>
    rw [body, Option.map_some] at each
    obtain ⟨requires, found, isRead⟩ := Option.map_eq_some_iff.mp each
    rw [Option.bind_some, ← isRead, found]

/-- In the order of the spellings, the last requirement of a version stands under the last of its
spellings. -/
theorem exists_spellsLast (listing : Listing json name spellings) {version : Version}
    {requires : Option Clause} (isLast : lastRequirement? version spellings = some requires) :
    ∃ last, SpellsLast json name version last ∧ declared? json name last = some requires := by
  obtain ⟨before, last, after, parts, parsed, notAfter⟩ := exists_of_lastRequirement? isLast
  have member : (last, requires) ∈ spellings :=
    parts ▸ List.mem_append_right before (List.mem_cons_self ..)
  have spells : Spells json name version last :=
    listing.spells_iff.mpr ⟨List.mem_map_of_mem member, parsed⟩
  refine ⟨last, ⟨spells, fun other spellsOther => ?_⟩,
    (listing.declared?_eq last).trans (lookup?_of_mem listing.ascending.nodup member)⟩
  obtain ⟨isOther, parsedOther⟩ := listing.spells_iff.mp spellsOther
  obtain ⟨entry, isEntry, rfl⟩ := List.mem_map.mp isOther
  have ascending := listing.ascending
  rw [parts] at isEntry ascending
  rcases List.mem_append.mp isEntry with earlier | notEarlier
  · rw [(List.pairwise_append.mp ascending).2.2 entry earlier _ (List.mem_cons_self ..)]
    rfl
  · rcases List.mem_cons.mp notEarlier with rfl | later
    · rw [Std.ReflOrd.compare_self]
      rfl
    · exact absurd parsedOther (notAfter entry later)

end Listing

/-- A database that is loaded knows the versions that are spelled in its document and no others, and
each has the requirement that is declared under the last of its spellings. So a requirement that is
declared under some spelling is kept exactly where the last spelling of the version declares the
same. -/
theorem requirement?_of_parse {text : String} {db : Database} (accepted : parse text = .ok db) :
    ∃ json, Json.read text = some json ∧
      (∀ name version, version ∈ db.versions name ↔ ∃ spelling, Spells json name version spelling) ∧
      ∀ name spelling body, body? json name spelling = some body →
        ∃ requires version last, required? body = some requires ∧
          Version.parse spelling.toList = .ok version ∧ SpellsLast json name version last ∧
          declared? json name last = some (db.requirement? name version) ∧
          (db.requirement? name version = requires ↔ declared? json name last = some requires) := by
  rw [parse] at accepted
  split at accepted
  case h_2 => cases accepted
  rename_i json isJson
  rw [ofJson] at accepted
  split at accepted
  case h_2 => cases accepted
  rename_i draft isDraft
  obtain ⟨distinct, each⟩ := Draft.spellings_of_ofJson? isDraft
  refine ⟨json, isJson, fun name version => ?_, fun name spelling body isBody => ?_⟩
  · obtain ⟨_, found⟩ := ofDraft_spec distinct accepted name
    rw [versions, ← lookup?_ne_none, found]
    constructor
    · intro some
      obtain ⟨_, isLast⟩ := Option.ne_none_iff_exists'.mp some
      obtain ⟨last, spellsLast, _⟩ := (each name).exists_spellsLast isLast
      exact ⟨last, spellsLast.toSpells⟩
    · rintro ⟨spelling, spells⟩
      obtain ⟨isListed, parsed⟩ := (each name).spells_iff.mp spells
      exact lastRequirement?_ne_none isListed parsed
  · obtain ⟨read, found⟩ := ofDraft_spec distinct accepted name
    have declares := (each name).listed spelling
    rw [isBody, Option.map_some] at declares
    obtain ⟨requires, isFound, isRead⟩ := Option.map_eq_some_iff.mp declares
    have member := mem_of_lookup? isFound
    obtain ⟨version, parsed⟩ := read _ member
    obtain ⟨kept, isLast⟩ := Option.ne_none_iff_exists'.mp
      (lastRequirement?_ne_none (List.mem_map_of_mem member) parsed)
    obtain ⟨last, spellsLast, isKept⟩ := (each name).exists_spellsLast isLast
    have known : db.requirement? name version = kept := by
      rw [requirement?, found, isLast]
      rfl
    refine ⟨requires, version, last, isRead.symm, parsed, spellsLast, known ▸ isKept, ?_⟩
    rw [isKept, known, Option.some_inj]

/-- A version that is spelled in two ways, where the later spelling has the requirement, beside
one whose body is written as an array. -/
theorem requirement?_of_parse_respelled :
    let text := "\x7b\"extensions\":\x7b\"A\":\x7b\"versions\":\x7b" ++
      "\"1.0\":\x7b\"requires\":true\x7d,\"1\":\x7b\x7d,\"2\":[]\x7d\x7d\x7d\x7d"
    let json : Json := .obj [("extensions", .obj [("A", .obj [("versions", .obj
      [("1.0", .obj [("requires", .bool true)]), ("1", .obj []), ("2", .arr [])])])])]
    let one : Version := { major := 1, minor := 0, patch := 0 }
    let two : Version := { major := 2, minor := 0, patch := 0 }
    let db : Database := { extensions := [("A", [(one, some (.bool true)), (two, none)])] }
    parse text = .ok db ∧ Json.read text = some json ∧ (∃ spelling, Spells json "A" two spelling) ∧
      ∃ last, SpellsLast json "A" one last ∧
        declared? json "A" last = some (db.requirement? "A" one) := by
  intro text json one two db
  have isRead : Json.read text = some json := by
    unfold text
    cbv
  have accepted : parse text = .ok db := by
    rw [parse, isRead]
    cbv
  obtain ⟨_, same, known, kept⟩ := requirement?_of_parse accepted
  cases isRead.symm.trans same
  have listed : two ∈ db.versions "A" := by decide
  obtain ⟨_, version, last, _, parsed, spells, declares, _⟩ := kept "A" "1" (.obj []) rfl
  have isOne : Version.parse "1".toList = .ok one := by cbv
  cases isOne.symm.trans parsed
  exact ⟨accepted, isRead, (known "A" two).mp listed, last, spells, declares⟩

/-- The requirement under the first spelling of a version is dropped without an error: the spelling
that stands after it has none. -/
theorem respelled_requirement_lost :
    let text := "\x7b\"extensions\":\x7b\"A\":\x7b\"versions\":\x7b" ++
      "\"1\":\x7b\"requires\":\x7b\"extension\":\x7b\"name\":\"B\"\x7d\x7d\x7d," ++
      "\"1.0\":\x7b\x7d\x7d\x7d\x7d\x7d"
    let json : Json := .obj [("extensions", .obj [("A", .obj [("versions", .obj
      [("1", .obj [("requires", .obj [("extension", .obj [("name", .str "B")])])]),
        ("1.0", .obj [])])])])]
    let one : Version := { major := 1, minor := 0, patch := 0 }
    let db : Database := { extensions := [("A", [(one, none)])] }
    Json.read text = some json ∧ parse text = .ok db ∧
      declared? json "A" "1" = some (some (.extension "B" none)) ∧
      Version.parse "1".toList = .ok one ∧ db.requirement? "A" one = none := by
  intro text json one db
  have isRead : Json.read text = some json := by
    unfold text
    cbv
  have accepted : parse text = .ok db := by
    rw [parse, isRead]
    cbv
  exact ⟨isRead, accepted, by cbv, by cbv, rfl⟩

end Database

end IsaLogic
