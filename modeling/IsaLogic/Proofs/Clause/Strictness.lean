import IsaLogic.Proofs.Clause.Declaration
import IsaLogic.Proofs.Json.Canonical

/-!
# Clauses are read strictly and without loss

`Clause.Reads` is the grammar of clauses: which canonical JSON values are clauses, and of what. The
reader accepts exactly these (`reads_of_ofJson`, `Reads.ofJson`), so no field is ignored and no
number is coerced. Each reader of a body is inverted first: what it accepts is what is written for
its result.

A clause is written back as it was read, but for the alternatives of a comparison, which are kept
in ascending order and without repetition (`Json.sortAlternatives`).
-/

namespace IsaLogic

section Operands

theorem Json.eq_of_int64? {json : Json} {number : Int64} (read : json.int64? = some number) :
    json = .int number.toInt := by
  cases json with
  | int value =>
    rw [int64?] at read
    split at read
    · rename_i bounds
      cases read
      rw [Int64.toInt_ofInt_of_le (by omega) (by omega)]
    · cases read
  | _ => cases read

theorem Json.eq_of_uint64? {json : Json} {number : UInt64} (read : json.uint64? = some number) :
    json = .int number.toNat := by
  cases json with
  | int value =>
    rw [uint64?] at read
    split at read
    · rename_i bounds
      cases read
      rw [UInt64.toNat_ofNat_of_lt' (by change _ < 2 ^ 64; omega), Int.toNat_of_nonneg bounds.1]
    · cases read
  | _ => cases read

theorem Xlen.eq_of_ofBits? {bits : Int} {width : Xlen} (found : ofBits? bits = some width) :
    bits = width.bits := by
  unfold ofBits? at found
  split at found
  · cases found
    assumption
  · split at found
    · cases found
      assumption
    · cases found

namespace ParamValue

mutual

/-- What denotes a value is its JSON form. -/
theorem eq_toJson_of_ofJson? : ∀ (json : Json) (value : ParamValue),
    ofJson? json = some value → json = value.toJson
  | .bool _, _, rfl => rfl
  | .int number, value, read => by
    rw [ofJson?] at read
    obtain ⟨int, readInt, rfl⟩ := Option.map_eq_some_iff.mp read
    exact Json.eq_of_int64? readInt
  | .str _, _, rfl => rfl
  | .arr items, value, read => by
    rw [ofJson?] at read
    obtain ⟨values, readItems, rfl⟩ := Option.map_eq_some_iff.mp read
    rw [toJson, eq_toJsonItems_of_ofJsonItems? items values readItems]

theorem eq_toJsonItems_of_ofJsonItems? : ∀ (items : List Json) (values : List ParamValue),
    ofJsonItems? items = some values → items = toJsonItems values
  | [], _, rfl => rfl
  | item :: rest, values, read => by
    rw [ofJsonItems?] at read
    split at read
    · cases read
    · rename_i value readItem
      obtain ⟨others, readRest, rfl⟩ := Option.map_eq_some_iff.mp read
      rw [toJsonItems, eq_toJson_of_ofJson? item value readItem,
        eq_toJsonItems_of_ofJsonItems? rest others readRest]

end

end ParamValue

end Operands

namespace Json

/-- An array of parameter values in ascending order, without repetition. -/
def sortValues : Json → Json
  | arr items =>
    match ParamValue.ofJsonItems? items with
    | some values => arr (ParamValue.toJsonItems (ascending values))
    | none => arr items
  | other => other

/-- A field of a parameter clause; alternatives are put in order. -/
def sortOneOf (field : String × Json) : String × Json :=
  (field.1, if field.1 = "oneOf" then field.2.sortValues else field.2)

/-- The body of a parameter clause with its alternatives in order. -/
def sortParam : Json → Json
  | obj fields => obj (fields.map sortOneOf)
  | other => other

mutual

/-- The value with the alternatives of every parameter clause in order, and all else as it is. -/
def sortAlternatives : Json → Json
  | null => null
  | bool value => bool value
  | int value => int value
  | float bits => float bits
  | str value => str value
  | arr items => arr (sortAlternativesItems items)
  | obj fields => obj (sortAlternativesFields fields)

/-- Some items with alternatives in order. -/
def sortAlternativesItems : List Json → List Json
  | [] => []
  | item :: rest => sortAlternatives item :: sortAlternativesItems rest

/-- Some fields with alternatives in order. -/
def sortAlternativesFields : List (String × Json) → List (String × Json)
  | [] => []
  | (key, value) :: rest =>
    (key, if key = "param" then sortParam value else sortAlternatives value) ::
      sortAlternativesFields rest

end

theorem sortAlternativesItems_eq_map (items : List Json) :
    sortAlternativesItems items = items.map sortAlternatives := by
  induction items with
  | nil => rfl
  | cons item rest ih => rw [sortAlternativesItems, ih, List.map_cons]

theorem sortAlternatives_entry {key : String} (other : key ≠ "param") (body : Json) :
    (obj [(key, body)]).sortAlternatives = obj [(key, body.sortAlternatives)] := by
  rw [sortAlternatives, sortAlternativesFields, if_neg other, sortAlternativesFields]

end Json

namespace Clause

section Parameters

theorem eq_of_readOperand {json : Json} {value : ParamValue} (read : readOperand json = .ok value) :
    json = value.toJson := by
  unfold readOperand at read
  split at read
  · rename_i denotes
    cases read
    exact ParamValue.eq_toJson_of_ofJson? json value denotes
  · cases read

theorem eq_of_readBound {key : String} {json : Json} {bound : Int64}
    (read : readBound key json = .ok bound) : json = .int bound.toInt := by
  unfold readBound at read
  split at read
  · rename_i denotes
    cases read
    exact Json.eq_of_int64? denotes
  · cases read

theorem eq_of_mapM_readOperand {items : List Json} {values : List ParamValue}
    (read : items.mapM readOperand = .ok values) : items = ParamValue.toJsonItems values := by
  induction items generalizing values with
  | nil =>
    cases read
    rfl
  | cons item rest ih =>
    rw [List.mapM_cons] at read
    obtain ⟨value, readItem, later⟩ := exists_ok_of_bind read
    obtain ⟨others, readRest, result⟩ := exists_ok_of_bind later
    cases result
    rw [ParamValue.toJsonItems, eq_of_readOperand readItem, ih readRest]

theorem eq_of_readAlternatives {json : Json} {values : List ParamValue}
    (read : readAlternatives json = .ok values) : json = (ParamValue.array values).toJson := by
  unfold readAlternatives at read
  split at read
  · rw [ParamValue.toJson, eq_of_mapM_readOperand read]
  · cases read

/-- A comparison is read from its key and its operand only. -/
theorem eq_of_readComparison {key : String} {json : Json} {found : Comparison}
    (read : readComparison key json = .ok found) :
    key = found.key ∧ json = found.operand.toJson := by
  unfold readComparison at read
  split at read
  · obtain ⟨operand, found, rfl⟩ := exists_ok_of_map read
    exact ⟨rfl, eq_of_readOperand found⟩
  · obtain ⟨operand, found, rfl⟩ := exists_ok_of_map read
    exact ⟨rfl, eq_of_readOperand found⟩
  · obtain ⟨operand, found, rfl⟩ := exists_ok_of_map read
    exact ⟨rfl, eq_of_readBound found⟩
  · obtain ⟨operand, found, rfl⟩ := exists_ok_of_map read
    exact ⟨rfl, eq_of_readBound found⟩
  · obtain ⟨operand, found, rfl⟩ := exists_ok_of_map read
    exact ⟨rfl, eq_of_readBound found⟩
  · obtain ⟨operand, found, rfl⟩ := exists_ok_of_map read
    exact ⟨rfl, eq_of_readBound found⟩
  · obtain ⟨operand, found, rfl⟩ := exists_ok_of_map read
    exact ⟨rfl, eq_of_readOperand found⟩
  · obtain ⟨operand, found, rfl⟩ := exists_ok_of_map read
    exact ⟨rfl, eq_of_readAlternatives found⟩
  · cases read

end Parameters

section Fields

/-- The field of a comparison. -/
def comparisonField (comparison : Comparison) : String × Json :=
  (comparison.key, comparison.operand.toJson)

/-- The field of a scope; the whole value has none. -/
def scopeFields : ParamScope → List (String × Json)
  | .value => []
  | .index position => [("index", .int position.toNat)]
  | .size => [("size", .bool true)]

theorem fields_eq (term : ParamTerm) : term.fields =
    ("name", .str term.name) :: comparisonField term.comparison :: scopeFields term.scope := by
  unfold ParamTerm.fields
  cases term.scope <;> rfl

theorem eq_of_narrow {scope narrowed result : ParamScope}
    (read : narrow scope narrowed = .ok result) : scope = .value ∧ result = narrowed := by
  unfold narrow at read
  split at read
  · rename_i whole
    cases read
    exact ⟨whole, rfl⟩
  · cases read

/-- The fields that are left, with those of the scope and the comparison found so far, are the
fields of the scope and the comparison in the end. -/
theorem perm_of_readParamFields {name : String} {scope : ParamScope}
    {comparison : Option Comparison} {fields : List (String × Json)} {term : ParamTerm}
    (read : readParamFields name scope comparison fields = .ok term) :
    ∃ final found, term = ParamTerm.make name final found ∧
      (scopeFields scope ++ (comparison.toList.map comparisonField ++
        fields.filter fun field => field.1 != "name")).Perm
        (scopeFields final ++ [comparisonField found]) := by
  induction fields generalizing scope comparison with
  | nil =>
    unfold readParamFields at read
    cases comparison with
    | none => cases read
    | some comparison =>
      cases read
      exact ⟨scope, comparison, rfl, .refl _⟩
  | cons field rest ih =>
    obtain ⟨key, value⟩ := field
    rw [readParamFields.eq_def] at read
    dsimp only at read
    split at read
    · exact ih read
    · split at read
      · rename_i position isPosition
        obtain ⟨narrowed, narrows, others⟩ := exists_ok_of_bind read
        obtain ⟨rfl, rfl⟩ := eq_of_narrow narrows
        -- only the whole value is narrowed, and it has no field that would be lost
        obtain ⟨final, found, made, order⟩ := ih others
        refine ⟨final, found, made, .trans ?_ order⟩
        rw [Json.eq_of_uint64? isPosition, List.filter_cons_of_pos rfl]
        exact List.perm_middle
      · cases read
    · split at read
      · obtain ⟨narrowed, narrows, others⟩ := exists_ok_of_bind read
        obtain ⟨rfl, rfl⟩ := eq_of_narrow narrows
        obtain ⟨final, found, made, order⟩ := ih others
        refine ⟨final, found, made, .trans ?_ order⟩
        rw [List.filter_cons_of_pos rfl]
        exact List.perm_middle
      · cases read
    · rename_i notName _ _
      obtain ⟨found, readFound, others⟩ := exists_ok_of_bind read
      obtain ⟨rfl, rfl⟩ := eq_of_readComparison readFound
      split at others
      · cases others
      · rename_i isFirst
        obtain rfl : comparison = none := by simpa using isFirst
        obtain ⟨final, last, made, order⟩ := ih others
        refine ⟨final, last, made, .trans ?_ order⟩
        rw [List.filter_cons_of_pos (by simpa using notName)]
        exact .refl _

end Fields

section Bodies

variable {body : Json} {clause : Clause}

/-- The body of a parameter clause is the declarative form of a term, whose alternatives may stand
in another order. -/
theorem eq_of_readParam (canonical : body.IsCanonical) (read : readParam body = .ok clause) :
    ∃ term : ParamTerm, body = .obj (Json.sortFields term.fields) ∧
      clause = .param (ParamTerm.make term.name term.scope term.comparison) := by
  unfold readParam at read
  cases body with
  | obj fields =>
    simp only [pure_bind] at read
    split at read
    · rename_i name isName
      obtain ⟨made, readFields, result⟩ := exists_ok_of_bind read
      cases result
      obtain ⟨scope, comparison, rfl, order⟩ := perm_of_readParamFields readFields
      refine ⟨⟨name, scope, comparison⟩, ?_, rfl⟩
      have whole : fields.Perm (ParamTerm.fields ⟨name, scope, comparison⟩) := by
        rw [fields_eq]
        refine (perm_of_lookup? canonical.ascending.nodup isName).trans (.cons _ ?_)
        exact order.trans (List.perm_append_singleton ..)
      have order := whole.trans (Json.perm_sortFields (nodup_fields _)).symm
      rw [canonical.ascending.eq_of_perm (Json.ascendingKeys_sortFields _) order]
    · cases read
  | _ => cases read

/-- The body of an extension clause is a name, with a requirement or without. -/
theorem eq_of_readExtension (canonical : body.IsCanonical)
    (read : readExtension body = .ok clause) :
    (∃ name, body = .obj [("name", .str name)] ∧ clause = .extension name none) ∨
    ∃ name requirement parsed,
      body = .obj [("name", .str name), ("version", .str requirement)] ∧
      Requirement.parse requirement.toList = .ok parsed ∧
      clause = .extension name (some requirement) := by
  unfold readExtension at read
  cases body with
  | obj fields =>
    dsimp only [bind, Except.bind, pure, Except.pure] at read
    split at read
    · cases read
    · rename_i noneOther
      have known : ∀ field ∈ fields, field.1 = "name" ∨ field.1 = "version" := by
        intro field member
        have noneFound := Option.eq_none_iff_forall_ne_some.mpr fun other : String × Json =>
          noneOther other.1 other.2
        simpa [Decidable.or_iff_not_imp_left] using List.find?_eq_none.mp noneFound field member
      split at read
      · rename_i name isName
        have fieldsEq := canonical.ascending.eq_of_lookup? (by decide) known isName
        split at read
        · rename_i noVersion
          cases read
          rw [noVersion] at fieldsEq
          exact .inl ⟨name, congrArg _ fieldsEq, rfl⟩
        · rename_i requirement isVersion
          split at read
          · rename_i parsed parses
            cases read
            rw [isVersion] at fieldsEq
            exact .inr ⟨name, requirement, parsed, congrArg _ fieldsEq, parses, rfl⟩
          · cases read
        · cases read
      · cases read
  | _ => cases read

/-- The body of a width clause is a width in bits. -/
theorem eq_of_readXlen (read : readXlen body = .ok clause) :
    ∃ width : Xlen, body = .int width.bits ∧ clause = .xlen width := by
  unfold readXlen at read
  split at read
  · cases read
  · rename_i bits isBits
    split at read
    · rename_i width isWidth
      cases read
      refine ⟨width, ?_, rfl⟩
      rw [Json.eq_of_int64? isBits, Xlen.eq_of_ofBits? isWidth]
    · cases read

end Bodies

/-- The connectives that have a list of clauses. -/
inductive Junction where
  | allOf
  | anyOf
  | oneOf
  | noneOf

namespace Junction

/-- The key of the list. -/
def key : Junction → String
  | allOf => "allOf"
  | anyOf => "anyOf"
  | oneOf => "oneOf"
  | noneOf => "noneOf"

/-- The clause of the list. -/
def join : Junction → List Clause → Clause
  | allOf => Clause.allOf
  | anyOf => Clause.anyOf
  | oneOf => Clause.oneOf
  | noneOf => Clause.noneOf

theorem toJson_join (kind : Junction) (clauses : List Clause) :
    (kind.join clauses).toJson = .obj [(kind.key, .arr (toJsonList clauses))] := by
  cases kind <;> rfl

theorem ofEntry_key (kind : Junction) (body : Json) :
    ofEntry kind.key body = (ofList kind.key body).map kind.join := by
  cases kind <;> rw [ofEntry.eq_def] <;> rfl

theorem key_ne_param (kind : Junction) : kind.key ≠ "param" := by
  cases kind <;> decide

theorem exists_compile_join (kind : Junction) {clauses : List Clause} {fs : List Formula}
    (compiled : compileList clauses = .ok fs) : ∃ f, (kind.join clauses).compile = .ok f := by
  cases kind <;> exact ⟨_, by rw [join, compile, compiled]; rfl⟩

end Junction

/-- The canonical JSON values that are clauses. -/
inductive Reads : Json → Clause → Prop where
  | bool (value : Bool) : Reads (.bool value) (.bool value)
  | junction (kind : Junction) {pairs : List (Json × Clause)} (nonempty : pairs ≠ [])
      (each : ∀ pair ∈ pairs, Reads pair.1 pair.2) :
      Reads (.obj [(kind.key, .arr (pairs.map Prod.fst))]) (kind.join (pairs.map Prod.snd))
  | negation {json : Json} {clause : Clause} (operand : Reads json clause) :
      Reads (.obj [("not", json)]) (.negation clause)
  | ifThen {ifJson thenJson : Json} {condition consequence : Clause}
      (first : Reads ifJson condition) (second : Reads thenJson consequence) :
      Reads (.obj [("if", ifJson), ("then", thenJson)]) (.ifThen condition consequence)
  | extension (name : String) :
      Reads (.obj [("extension", .obj [("name", .str name)])]) (.extension name none)
  | versioned (name : String) {requirement : String} {parsed : Requirement}
      (parses : Requirement.parse requirement.toList = .ok parsed) :
      Reads (.obj [("extension", .obj [("name", .str name), ("version", .str requirement)])])
        (.extension name (some requirement))
  /-- Alternatives may stand in any order, and repeated; the clause has them in order. -/
  | param (term : ParamTerm) :
      Reads term.toJson (.param (ParamTerm.make term.name term.scope term.comparison))
  | xlen (width : Xlen) : Reads (.obj [("xlen", .int width.bits)]) (.xlen width)

section Grammar

mutual

/-- Only values of the grammar are read. -/
theorem reads_of_ofJson (json : Json) (clause : Clause) (canonical : json.IsCanonical)
    (read : ofJson json = .ok clause) : Reads json clause := by
  rw [ofJson.eq_def] at read
  split at read
  · cases read
    exact .bool _
  · exact reads_of_ofEntry _ _ clause (canonical.values _ (List.mem_singleton.mpr rfl)) read
  · split at read
    · rename_i keys
      obtain ⟨rfl, rfl⟩ := keys
      obtain ⟨condition, readFirst, rest⟩ := exists_ok_of_bind read
      obtain ⟨consequence, readSecond, result⟩ := exists_ok_of_bind rest
      cases result
      obtain ⟨canonicalFirst, canonicalSecond⟩ := List.forall_mem_cons.mp canonical.values
      exact .ifThen (reads_of_ofJson _ condition canonicalFirst readFirst)
        (reads_of_ofJson _ consequence (canonicalSecond _ (List.mem_singleton.mpr rfl)) readSecond)
    · cases read
  · cases read
  · cases read
termination_by 2 * sizeOf json

theorem reads_of_ofEntry (key : String) (body : Json) (clause : Clause)
    (canonical : body.IsCanonical) (read : ofEntry key body = .ok clause) :
    Reads (.obj [(key, body)]) clause := by
  rw [ofEntry.eq_def] at read
  split at read
  · obtain ⟨clauses, readList, rfl⟩ := exists_ok_of_map read
    exact reads_of_ofList .allOf body clauses canonical readList
  · obtain ⟨clauses, readList, rfl⟩ := exists_ok_of_map read
    exact reads_of_ofList .anyOf body clauses canonical readList
  · obtain ⟨clauses, readList, rfl⟩ := exists_ok_of_map read
    exact reads_of_ofList .oneOf body clauses canonical readList
  · obtain ⟨clauses, readList, rfl⟩ := exists_ok_of_map read
    exact reads_of_ofList .noneOf body clauses canonical readList
  · obtain ⟨operand, readOperand, rfl⟩ := exists_ok_of_map read
    exact .negation (reads_of_ofJson body operand canonical readOperand)
  · obtain ⟨name, rfl, rfl⟩ | ⟨name, requirement, parsed, rfl, parses, rfl⟩ :=
      eq_of_readExtension canonical read
    · exact .extension name
    · exact .versioned name parses
  · obtain ⟨term, rfl, rfl⟩ := eq_of_readParam canonical read
    exact .param term
  · obtain ⟨width, rfl, rfl⟩ := eq_of_readXlen read
    exact .xlen width
  · cases read
  · cases read
  · cases read
termination_by 2 * sizeOf body + 1

theorem reads_of_ofList (kind : Junction) (body : Json) (clauses : List Clause)
    (canonical : body.IsCanonical) (read : ofList kind.key body = .ok clauses) :
    Reads (.obj [(kind.key, body)]) (kind.join clauses) := by
  rw [ofList.eq_def] at read
  split at read
  · cases read
  · rename_i items nonempty
    obtain ⟨pairs, rfl, rfl, each⟩ := reads_of_ofItems _ clauses canonical.items read
    exact .junction kind (fun none => nonempty (by rw [none]; rfl)) each
  · cases read
termination_by 2 * sizeOf body

theorem reads_of_ofItems (items : List Json) (clauses : List Clause)
    (canonical : ∀ item ∈ items, item.IsCanonical) (read : ofItems items = .ok clauses) :
    ∃ pairs : List (Json × Clause), items = pairs.map Prod.fst ∧ clauses = pairs.map Prod.snd ∧
      ∀ pair ∈ pairs, Reads pair.1 pair.2 := by
  rw [ofItems.eq_def] at read
  split at read
  · cases read
    exact ⟨[], rfl, rfl, nofun⟩
  · obtain ⟨canonicalFirst, canonicalRest⟩ := List.forall_mem_cons.mp canonical
    obtain ⟨first, readFirst, rest⟩ := exists_ok_of_bind read
    obtain ⟨others, readOthers, result⟩ := exists_ok_of_bind rest
    cases result
    have readsFirst := reads_of_ofJson _ first canonicalFirst readFirst
    obtain ⟨pairs, rfl, rfl, each⟩ := reads_of_ofItems _ others canonicalRest readOthers
    exact ⟨(_, first) :: pairs, rfl, rfl, List.forall_mem_cons.mpr ⟨readsFirst, each⟩⟩
termination_by 2 * sizeOf items

end

/-- Every value of the grammar is read. -/
theorem Reads.ofJson {json : Json} {clause : Clause} (reads : Reads json clause) :
    ofJson json = .ok clause := by
  have items : ∀ pairs : List (Json × Clause), (∀ pair ∈ pairs, Clause.ofJson pair.1 = .ok pair.2) →
      ofItems (pairs.map Prod.fst) = .ok (pairs.map Prod.snd) := by
    intro pairs each
    induction pairs with
    | nil => rw [List.map_nil, ofItems, List.map_nil]
    | cons pair rest ih =>
      obtain ⟨first, others⟩ := List.forall_mem_cons.mp each
      rw [List.map_cons, ofItems, first, ih others]
      rfl
  induction reads with
  | bool value => rw [Clause.ofJson]
  | @junction kind pairs nonempty each ih =>
    rw [Clause.ofJson, kind.ofEntry_key, ofList, items pairs ih]
    · rfl
    · exact fun none => nonempty (List.map_eq_nil_iff.mp none)
  | negation operand ih =>
    rw [Clause.ofJson, ofEntry, ih]
    rfl
  | ifThen first second ihFirst ihSecond =>
    rw [Clause.ofJson, if_pos ⟨rfl, rfl⟩, ihFirst, ihSecond]
    rfl
  | extension name =>
    rw [Clause.ofJson, ofEntry]
    simp [readExtension, lookup?, pure, Except.pure, bind, Except.bind]
  | versioned name parses =>
    rw [Clause.ofJson, ofEntry]
    exact readExtension_fields parses
  | param term =>
    rw [ParamTerm.toJson_eq, Clause.ofJson, ofEntry]
    exact readParam_fields (Json.perm_sortFields (nodup_fields term))
  | xlen width =>
    rw [Clause.ofJson, ofEntry]
    cases width <;> rfl

end Grammar

section Writing

theorem toJsonList_eq_map (clauses : List Clause) : toJsonList clauses = clauses.map toJson := by
  induction clauses with
  | nil => rfl
  | cons clause rest ih => rw [toJsonList, ih, List.map_cons]

theorem sortOneOf_comparisonField (comparison : Comparison) :
    Json.sortOneOf (comparisonField comparison) = comparisonField comparison.normalize := by
  cases comparison with
  | oneOf values =>
    change ("oneOf", Json.sortValues (.arr (ParamValue.toJsonItems values))) = _
    rw [Json.sortValues, ParamValue.ofJsonItems?_toJsonItems]
    rfl
  | _ => rfl

/-- A term is made by putting its alternatives in order. -/
theorem fields_make (term : ParamTerm) :
    (ParamTerm.make term.name term.scope term.comparison).fields =
      term.fields.map Json.sortOneOf := by
  rw [fields_eq, fields_eq, List.map_cons, List.map_cons, sortOneOf_comparisonField]
  unfold ParamTerm.make
  cases term.scope <;> rfl

theorem toJson_make (term : ParamTerm) :
    (ParamTerm.make term.name term.scope term.comparison).toJson =
      term.toJson.sortAlternatives := by
  -- the keys stay, so the fields may be sorted before or after their alternatives are
  have ascending : AscendingKeys ((Json.sortFields term.fields).map Json.sortOneOf) :=
    List.pairwise_map.mpr (Json.ascendingKeys_sortFields term.fields)
  have order := Json.perm_sortFields (nodup_fields (.make term.name term.scope term.comparison))
  rw [fields_make] at order
  have fieldsEq := (Json.ascendingKeys_sortFields _).eq_of_perm ascending
    (order.trans ((Json.perm_sortFields (nodup_fields term)).symm.map Json.sortOneOf))
  rw [ParamTerm.toJson_eq, ParamTerm.toJson_eq, fields_make, fieldsEq]
  rfl

/-- A clause is written as it was read, but for alternatives. -/
theorem Reads.toJson {json : Json} {clause : Clause} (reads : Reads json clause) :
    clause.toJson = json.sortAlternatives := by
  induction reads with
  | bool value => rfl
  | @junction kind pairs nonempty each ih =>
    rw [kind.toJson_join, Json.sortAlternatives_entry kind.key_ne_param, Json.sortAlternatives,
      toJsonList_eq_map, Json.sortAlternativesItems_eq_map, List.map_map, List.map_map]
    exact congrArg (fun items => Json.obj [(kind.key, .arr items)]) (List.map_congr_left ih)
  | negation operand ih =>
    rw [Clause.toJson, ih, Json.sortAlternatives_entry (by decide)]
  | ifThen first second ihFirst ihSecond =>
    rw [Clause.toJson, ihFirst, ihSecond]
    rfl
  | extension name => rfl
  | versioned name parses => rfl
  | param term => exact toJson_make term
  | xlen width => rfl

/-- What is written is read as the same clause. -/
theorem Reads.again {json : Json} {clause : Clause} (reads : Reads json clause) :
    Reads clause.toJson clause := by
  induction reads with
  | bool value => exact .bool value
  | @junction kind pairs nonempty each ih =>
    have written : ∀ pair ∈ pairs.map fun pair => (pair.2.toJson, pair.2), Reads pair.1 pair.2 :=
      List.forall_mem_map.mpr ih
    have joined := Reads.junction kind (by simpa using nonempty) written
    rw [List.map_map, List.map_map] at joined
    rwa [kind.toJson_join, toJsonList_eq_map, List.map_map]
  | negation operand ih => exact .negation ih
  | ifThen first second ihFirst ihSecond => exact .ifThen ihFirst ihSecond
  | extension name => exact .extension name
  | versioned name parses => exact .versioned name parses
  | param term =>
    -- what is made has its alternatives in order, so it is read unchanged
    have made := (ParamTerm.isNormal_make term.name term.scope term.comparison).make_eq
    have written := Reads.param (.make term.name term.scope term.comparison)
    rwa [made] at written
  | xlen width => exact .xlen width

/-- Every clause of the grammar means a formula. -/
theorem Reads.exists_compile {json : Json} {clause : Clause} (reads : Reads json clause) :
    ∃ f, clause.compile = .ok f := by
  induction reads with
  | bool value => exact ⟨_, rfl⟩
  | @junction kind pairs nonempty each ih =>
    obtain ⟨fs, compiled⟩ := exists_mapM (List.forall_mem_map.mpr ih)
    exact kind.exists_compile_join ((compileList_eq_mapM _).trans compiled)
  | negation operand ih =>
    obtain ⟨f, compiled⟩ := ih
    exact ⟨_, by rw [compile, compiled]; rfl⟩
  | ifThen first second ihFirst ihSecond =>
    obtain ⟨a, compiledFirst⟩ := ihFirst
    obtain ⟨b, compiledSecond⟩ := ihSecond
    exact ⟨_, by rw [compile, compiledFirst, compiledSecond]; rfl⟩
  | extension name => exact ⟨_, rfl⟩
  | versioned name parses => exact ⟨_, by rw [compile, ExtensionTerm.ofClause, parses]; rfl⟩
  | param term => exact ⟨_, rfl⟩
  | xlen width => exact ⟨_, rfl⟩

end Writing

/-- Reading a JSON value as a clause is strict and loses nothing. Just the values of the grammar are
read; the clause is written as the value it was read from, with alternatives in order and without
repetition, it is read from there again, and it compiles. -/
theorem ofJson_strict (json : Json) (clause : Clause) :
    (ofJson json.canonical = .ok clause ↔ Reads json.canonical clause) ∧
    (ofJson json.canonical = .ok clause →
      clause.toJson = json.canonical.sortAlternatives ∧ ofJson clause.toJson = .ok clause ∧
      ∃ f, clause.compile = .ok f) := by
  have strict := reads_of_ofJson _ clause (Json.isCanonical_canonical json)
  refine ⟨⟨strict, Reads.ofJson⟩, fun read => ?_⟩
  have reads := strict read
  exact ⟨reads.toJson, reads.again.ofJson, reads.exists_compile⟩

/-- Keys in any order, alternatives that are repeated and unsorted, and a requirement that is kept
as it is spelled. -/
theorem ofJson_strict_unsorted :
    let json : Json := .obj [("allOf", .arr [
      .obj [("param", .obj [
        ("oneOf", .arr [.arr [.str "x"], .int 3, .bool true, .int 3]), ("name", .str "P"),
        ("index", .int 0)])],
      .obj [("then", .obj [("xlen", .int 64)]),
        ("if", .obj [("extension", .obj [("version", .str ">= 1.0"), ("name", .str "A")])])]])]
    let term : ParamTerm :=
      { name := "P", scope := .index 0
        comparison := .oneOf [.bool true, .int 3, .array [.str "x"]] }
    let clause : Clause := .allOf [.param term,
      .ifThen (.extension "A" (some ">= 1.0")) (.xlen .rv64)]
    ofJson json.canonical = .ok clause ∧ clause.toJson = json.canonical.sortAlternatives ∧
      ofJson clause.toJson = .ok clause ∧ ∃ f, clause.compile = .ok f := by
  intro json term clause
  have read : ofJson json.canonical = .ok clause := by cbv
  exact ⟨read, (ofJson_strict json clause).2 read⟩

end Clause

end IsaLogic
