import IsaLogic.Proofs.Clause.RoundTrip

/-!
# Declarative forms of terms are read back

The declarative form of a term is a JSON mapping with sorted fields. Since its keys differ,
sorting only reorders the fields, and they are read alike in any order. So reading the form
gives the clause of the term (`Term.ofJson_eq_toClause`): to write a term as a clause is to
write its declarative form and to read that.
-/

namespace IsaLogic

section Fields

variable {κ α : Type} [Ord κ] [Std.LawfulEqOrd κ]

/-- An entry of a new key is put somewhere. -/
theorem perm_insertEntry {key : κ} {value : α} {entries : List (κ × α)}
    (new : ∀ entry ∈ entries, entry.1 ≠ key) :
    (insertEntry key value entries).Perm ((key, value) :: entries) := by
  induction entries with
  | nil => exact .refl _
  | cons first rest ih =>
    obtain ⟨other, old⟩ := first
    rw [insertEntry]
    split
    · exact .refl _
    · rename_i same
      exact absurd (Std.LawfulEqOrd.eq_of_compare same).symm (new _ (List.mem_cons_self ..))
    · have inRest := ih fun entry member => new entry (List.mem_cons_of_mem _ member)
      exact (inRest.cons _).trans (.swap _ _ rest)

/-- Sorting fields of different keys reorders them. -/
theorem Json.perm_sortFields {fields : List (String × α)}
    (distinct : (fields.map Prod.fst).Nodup) : (sortFields fields).Perm fields := by
  have each : ∀ (later sorted : List (String × α)), (later.map Prod.fst).Nodup →
      (∀ entry ∈ sorted, entry.1 ∉ later.map Prod.fst) →
      (later.foldl (fun sorted field => insertEntry field.1 field.2 sorted) sorted).Perm
        (sorted ++ later) := by
    intro later
    induction later with
    | nil => exact fun sorted _ _ => by simp
    | cons field later ih =>
      intro sorted distinct new
      obtain ⟨isNew, distinctLater⟩ := List.nodup_cons.mp distinct
      have inserted : (insertEntry field.1 field.2 sorted).Perm (field :: sorted) :=
        perm_insertEntry fun entry member same => new entry member (by simp [same])
      have notLater : ∀ entry ∈ insertEntry field.1 field.2 sorted,
          entry.1 ∉ later.map Prod.fst := by
        intro entry member
        rcases List.mem_cons.mp (inserted.mem_iff.mp member) with rfl | old
        · exact isNew
        · exact fun inLater => new entry old (List.mem_cons_of_mem _ inLater)
      refine (ih _ distinctLater notLater).trans ((inserted.append_right later).trans ?_)
      exact List.perm_middle.symm
  exact each fields [] distinct nofun

theorem eq_of_perm_pair {list : List α} {a b : α} (order : list.Perm [a, b]) :
    list = [a, b] ∨ list = [b, a] := by
  simpa [List.permutations', List.permutations'Aux] using List.mem_permutations'.mpr order

theorem eq_of_perm_triple {list : List α} {a b c : α} (order : list.Perm [a, b, c]) :
    list = [a, b, c] ∨ list = [b, a, c] ∨ list = [b, c, a] ∨ list = [a, c, b] ∨
      list = [c, a, b] ∨ list = [c, b, a] := by
  simpa [List.permutations', List.permutations'Aux, or_assoc] using List.mem_permutations'.mpr order

end Fields

namespace Json

theorem int64?_toInt (number : Int64) : (Json.int number.toInt).int64? = some number := by
  have low : -9223372036854775808 ≤ number.toInt := number.le_toInt
  have high : number.toInt ≤ 9223372036854775807 := number.toInt_le
  rw [int64?.eq_def]
  dsimp only
  rw [if_pos ⟨low, high⟩, Int64.ofInt_toInt]

theorem uint64?_toNat (number : UInt64) : (Json.int number.toNat).uint64? = some number := by
  have bound : number.toNat < 18446744073709551616 := number.toNat_lt
  rw [uint64?.eq_def]
  dsimp only
  rw [if_pos (by omega), Int.toNat_natCast, UInt64.ofNat_toNat]

end Json

namespace ParamValue

mutual

/-- A value is read back from its JSON form. -/
theorem ofJson?_toJson : ∀ value : ParamValue, ofJson? value.toJson = some value
  | .bool _ => rfl
  | .int value => by
    rw [toJson, ofJson?, Json.int64?_toInt]
    rfl
  | .str _ => rfl
  | .array items => by
    rw [toJson, ofJson?, ofJsonItems?_toJsonItems items]
    rfl

theorem ofJsonItems?_toJsonItems : ∀ items : List ParamValue,
    ofJsonItems? (toJsonItems items) = some items
  | [] => rfl
  | item :: rest => by
    rw [toJsonItems, ofJsonItems?, ofJson?_toJson item, ofJsonItems?_toJsonItems rest]
    rfl

end

end ParamValue

/-- The fields of the declarative form, before they are sorted. -/
def ParamTerm.fields (term : ParamTerm) : List (String × Json) :=
  [("name", .str term.name), (term.comparison.key, term.comparison.operand.toJson)] ++
    match term.scope with
    | .value => []
    | .index position => [("index", .int position.toNat)]
    | .size => [("size", .bool true)]

theorem ParamTerm.toJson_eq (term : ParamTerm) :
    term.toJson = .obj [("param", .obj (Json.sortFields term.fields))] := rfl

namespace Clause

theorem readOperand_toJson (value : ParamValue) : readOperand value.toJson = .ok value := by
  rw [readOperand, value.ofJson?_toJson]

theorem readBound_toInt (key : String) (bound : Int64) :
    readBound key (.int bound.toInt) = .ok bound := by
  rw [readBound, Json.int64?_toInt]

theorem mapM_readOperand (values : List ParamValue) :
    (ParamValue.toJsonItems values).mapM readOperand = .ok values := by
  induction values with
  | nil => rfl
  | cons value values ih =>
    rw [ParamValue.toJsonItems, List.mapM_cons, readOperand_toJson, ih]
    rfl

/-- A comparison is read back from its key and its operand. -/
theorem readComparison_operand (comparison : Comparison) :
    readComparison comparison.key comparison.operand.toJson = .ok comparison := by
  cases comparison with
  | equal value => exact congrArg (Except.map Comparison.equal) (readOperand_toJson value)
  | notEqual value => exact congrArg (Except.map Comparison.notEqual) (readOperand_toJson value)
  | includes value => exact congrArg (Except.map Comparison.includes) (readOperand_toJson value)
  | lessThan bound => exact congrArg (Except.map Comparison.lessThan) (readBound_toInt _ bound)
  | greaterThan bound => exact congrArg (Except.map Comparison.greaterThan) (readBound_toInt _ bound)
  | atMost bound => exact congrArg (Except.map Comparison.atMost) (readBound_toInt _ bound)
  | atLeast bound => exact congrArg (Except.map Comparison.atLeast) (readBound_toInt _ bound)
  | oneOf values => exact congrArg (Except.map Comparison.oneOf) (mapM_readOperand values)

/-- No comparison has the key of another field. -/
theorem key_ne (comparison : Comparison) :
    comparison.key ≠ "name" ∧ comparison.key ≠ "index" ∧ comparison.key ≠ "size" := by
  cases comparison <;> simp [Comparison.key]

section ReadParamFields

variable (name : String) (scope : ParamScope) (comparison : Option Comparison)
  (rest : List (String × Json))

theorem readParamFields_name (value : Json) :
    readParamFields name scope comparison (("name", value) :: rest) =
      readParamFields name scope comparison rest := by
  conv => lhs; unfold readParamFields
  rfl

theorem readParamFields_index (position : UInt64) :
    readParamFields name .value comparison (("index", .int position.toNat) :: rest) =
      readParamFields name (.index position) comparison rest := by
  conv => lhs; unfold readParamFields
  simp only [Json.uint64?_toNat]
  rfl

theorem readParamFields_size :
    readParamFields name .value comparison (("size", .bool true) :: rest) =
      readParamFields name .size comparison rest := by
  conv => lhs; unfold readParamFields
  rfl

theorem readParamFields_comparison (found : Comparison) :
    readParamFields name scope none ((found.key, found.operand.toJson) :: rest) =
      readParamFields name scope (some found) rest := by
  have read := readComparison_operand found
  have other := key_ne found
  generalize found.key = key at read other ⊢
  conv => lhs; unfold readParamFields
  dsimp only
  split
  · exact absurd rfl other.1
  · exact absurd rfl other.2.1
  · exact absurd rfl other.2.2
  · rw [read]
    rfl

end ReadParamFields

/-- The fields of a parameter clause are read alike in any order. -/
theorem readParam_fields {term : ParamTerm} {fields : List (String × Json)}
    (order : fields.Perm term.fields) : readParam (.obj fields) =
      .ok (.param (ParamTerm.make term.name term.scope term.comparison)) := by
  obtain ⟨name, scope, comparison⟩ := term
  obtain ⟨notName, notIndex, notSize⟩ := key_ne comparison
  have ends : readParamFields name scope (some comparison) [] =
      .ok (ParamTerm.make name scope comparison) := by
    rw [readParamFields.eq_def]
  have read : lookup? "name" fields = some (.str name) ∧
      readParamFields name .value none fields = .ok (ParamTerm.make name scope comparison) := by
    -- one case for each order of the two or three fields
    cases scope with
    | value =>
      rcases eq_of_perm_pair order with rfl | rfl
      all_goals
        refine ⟨by simp [lookup?, notName], ?_⟩
        simp only [readParamFields_name, readParamFields_comparison, ends]
    | index i =>
      rcases eq_of_perm_triple order with rfl | rfl | rfl | rfl | rfl | rfl
      all_goals
        refine ⟨by simp [lookup?, notName], ?_⟩
        simp only [readParamFields_name, readParamFields_comparison, readParamFields_index, ends]
    | size =>
      rcases eq_of_perm_triple order with rfl | rfl | rfl | rfl | rfl | rfl
      all_goals
        refine ⟨by simp [lookup?, notName], ?_⟩
        simp only [readParamFields_name, readParamFields_comparison, readParamFields_size, ends]
  unfold readParam
  simp only [pure_bind]
  rw [read.1]
  dsimp only
  rw [read.2]
  rfl

theorem readExtension_fields {name requirement : String} {parsed : Requirement}
    (read : Requirement.parse requirement.toList = .ok parsed) :
    readExtension (.obj [("name", .str name), ("version", .str requirement)]) =
      .ok (.extension name (some requirement)) := by
  simp [readExtension, lookup?, read, pure, Except.pure, bind, Except.bind]

theorem nodup_fields (term : ParamTerm) : (term.fields.map Prod.fst).Nodup := by
  obtain ⟨notName, notIndex, notSize⟩ := key_ne term.comparison
  unfold ParamTerm.fields
  cases term.scope <;> simp [notIndex, notSize, Ne.symm notName]

end Clause

/-- Reading the declarative form of a term gives its clause. -/
theorem Term.ofJson_eq_toClause {term : Term} {json : Json} (written : term.toJson? = some json)
    (versioned : ∀ extension, term = .extension extension → extension ≠ .any extension.name) :
    Clause.ofJson json = term.toClause := by
  cases term with
  | extension term =>
    cases written
    rw [toClause, if_neg (versioned term rfl), ExtensionTerm.toJson, Clause.ofJson, Clause.ofEntry]
    exact Clause.readExtension_fields term.parse_requirement
  | parameter term =>
    cases written
    rw [toClause, ParamTerm.toJson_eq, Clause.ofJson, Clause.ofEntry]
    exact Clause.readParam_fields (Json.perm_sortFields (Clause.nodup_fields term))
  | xlen width =>
    cases written
    cases width <;> cbv
  | free id => cases written

end IsaLogic
