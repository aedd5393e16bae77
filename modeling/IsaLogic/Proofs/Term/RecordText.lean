import Mathlib
import IsaLogic.Formula.Fingerprint
import IsaLogic.Proofs.Term.Order
import IsaLogic.Proofs.Text.Delimited

/-!
# Record texts determine terms

The record text of a term is put together from texts that end where they say: tags with
parentheses, records with braces, quoted strings, and numbers in front of a sign. So it can
be read in one way only, although names and strings are arbitrary and arrays nest
(`Term.recordText_injective`).
-/

namespace IsaLogic

open Text

section Pieces

variable {α : Type} {name other : String}

theorem toList_taggedText (name value : String) :
    (taggedText name value).toList = name.toList ++ '(' :: (value.toList ++ [')']) := by
  simp [taggedText]

/-- Tags are told apart by what stands before the first parenthesis. -/
theorem taggedText_append_inj {value value' : String} {rest rest' : List Char}
    (free : '(' ∉ name.toList) (free' : '(' ∉ other.toList)
    (same : (taggedText name value).toList ++ rest = (taggedText other value').toList ++ rest') :
    name = other ∧ value.toList ++ ')' :: rest = value'.toList ++ ')' :: rest' := by
  simp only [toList_taggedText, List.append_assoc, List.cons_append, List.nil_append] at same
  obtain ⟨names, values⟩ := append_inj_of_sign free free' same
  exact ⟨String.toList_inj.mp names, values⟩

/-- A tag is delimited if what it holds is delimited by the parenthesis. -/
theorem delimits_taggedText {write : α → String} {a : α}
    (delimits : Delimits (fun a => (write a).toList ++ [')']) a) :
    Delimits (fun a => (taggedText name (write a)).toList) a := by
  intro b rest other same
  simp only [toList_taggedText, List.append_assoc, List.cons_append, List.nil_append] at same
  exact delimits (by simpa using same)

theorem toString_append_inj {m n : Nat} {rest rest' : List Char}
    (ends : ∀ c ∈ rest.head?, c.isDigit = false) (ends' : ∀ c ∈ rest'.head?, c.isDigit = false)
    (same : (toString m).toList ++ rest = (toString n).toList ++ rest') : m = n ∧ rest = rest' := by
  obtain ⟨digits, rests⟩ := append_inj_of_span (fun c => c.isDigit = true)
    (fun _ => isDigit_of_mem_toString) (fun _ => isDigit_of_mem_toString)
    (fun c first => by simp [ends c first]) (fun c first => by simp [ends' c first]) same
  have numerals : Nat.toDigits 10 m = Nat.toDigits 10 n := by
    rwa [← Nat.toList_repr, ← Nat.toList_repr]
  exact ⟨toDigits_injective (by decide) (by decide) numerals, rests⟩

/-- Integers have no other characters than digits and a sign, so a parenthesis ends them. -/
theorem selfDelimiting_int : SelfDelimiting fun n : Int64 => (toString n).toList ++ [')'] := by
  refine selfDelimiting_of_sign (fun m n same => ?_) fun n member => ?_
  · exact Int64.toInt_inj.mp (Int.repr_injective (String.toList_inj.mp same))
  · change ')' ∈ n.toInt.repr.toList at member
    rw [Int.repr_eq_if] at member
    have noDigit : ∀ k : Nat, ')' ∉ k.repr.toList := fun k digit => by
      cases isDigit_of_mem_toString (n := k) digit
    split at member
    · exact noDigit _ member
    · rw [String.toList_append, List.mem_append] at member
      rcases member with sign | digit
      · simp at sign
      · exact noDigit _ digit

end Pieces

namespace Version

theorem not_mem_of_isBuildSegment {segment : List Char} {sign : Char}
    (isSegment : isBuildSegment segment = true) (outside : isSegmentChar sign = false) :
    sign ∉ segment := by
  rw [isBuildSegment, Bool.and_eq_true, List.all_eq_true] at isSegment
  intro member
  cases outside.symm.trans (isSegment.2 sign member)

theorem isBuildSegment_of_isPreSegment {segment : List Char}
    (isSegment : isPreSegment segment = true) : isBuildSegment segment = true := by
  rw [isPreSegment, Bool.and_eq_true] at isSegment
  exact isSegment.1

/-- Points hold segments apart, since no segment has one. -/
theorem splitWhere_joinSegments {segments : List (List Char)} (nonempty : segments ≠ [])
    (valid : ∀ segment ∈ segments, isBuildSegment segment = true) :
    splitWhere (· == '.') (joinSegments segments).toList = segments := by
  have joined : (joinSegments segments).toList = ['.'].intercalate segments := by
    simp [joinSegments, String.toList_intercalate, Function.comp_def]
  rw [joined]
  exact splitWhere_intercalate nonempty fun segment member =>
    not_mem_of_isBuildSegment (valid segment member) (by decide)

/-- Segments are read off the text that joins them, if there are any. -/
theorem eq_of_joinSegments {valid : List Char → Bool}
    (isSegment : ∀ segment, valid segment = true → isBuildSegment segment = true)
    {left right : List { segment : List Char // valid segment = true }} (some : left ≠ [])
    (some' : right ≠ [])
    (same : joinSegments (left.map Subtype.val) = joinSegments (right.map Subtype.val)) :
    left = right := by
  have each : ∀ segments : List { segment : List Char // valid segment = true },
      ∀ segment ∈ segments.map Subtype.val, isBuildSegment segment = true := fun segments =>
    List.forall_mem_map.mpr fun segment _ => isSegment segment segment.2
  have parts := congrArg (fun text => splitWhere (· == '.') text.toList) same
  rw [splitWhere_joinSegments (mt List.map_eq_nil_iff.mp some) (each left),
    splitWhere_joinSegments (mt List.map_eq_nil_iff.mp some') (each right)] at parts
  exact List.map_injective_iff.mpr Subtype.val_injective parts

/-- A field that is left out if there is nothing to say. -/
def optionalField (label name text : String) (absent : Bool) : List Char :=
  if absent then []
  else (", " ++ label ++ ": " ++ taggedText name (quoteString text)).toList

theorem toList_recordText (version : Version) :
    version.recordText.toList = "Version \x7b major: ".toList ++ ((toString version.major).toList ++
      (", minor: ".toList ++ ((toString version.minor).toList ++ (", patch: ".toList ++
        ((toString version.patch).toList ++
          (optionalField "pre" "Prerelease" version.preText version.pre.isEmpty ++
            (optionalField "build" "BuildMetadata" version.buildText version.build.isEmpty ++
              " \x7d".toList))))))) := by
  unfold recordText optionalField
  cases version.pre.isEmpty <;> cases version.build.isEmpty <;>
    simp [IsaLogic.recordText]

theorem head?_optionalField {label name text : String} {absent : Bool} {rest : List Char}
    (ends : ∀ c ∈ rest.head?, c.isDigit = false) :
    ∀ c ∈ (optionalField label name text absent ++ rest).head?, c.isDigit = false := by
  cases absent with
  | true => exact ends
  | false => simp [optionalField]

/-- An optional field is there in both of two texts or in none, as soon as what follows it does not
start as the field does. -/
theorem optionalField_append_inj {label name text text' : String} {absent absent' : Bool}
    {rest rest' : List Char}
    (differs : ∀ more, rest ≠ (", " ++ label ++ ": ").toList ++ more)
    (differs' : ∀ more, rest' ≠ (", " ++ label ++ ": ").toList ++ more)
    (same : optionalField label name text absent ++ rest =
      optionalField label name text' absent' ++ rest') :
    absent = absent' ∧ (absent = false → text = text') ∧ rest = rest' := by
  have quoted : SelfDelimiting fun text => (taggedText name (quoteString text)).toList :=
    fun text => delimits_taggedText ((selfDelimiting_quoteString text).sign ')')
  have present : ∀ (text : String) (rest : List Char),
      optionalField label name text false ++ rest =
        (", " ++ label ++ ": ").toList ++ ((taggedText name (quoteString text)).toList ++ rest) := by
    intro text rest
    rw [optionalField, if_neg Bool.false_ne_true, String.toList_append, List.append_assoc]
  have missing : ∀ (text : String) (rest : List Char),
      optionalField label name text true ++ rest = rest := fun _ _ => rfl
  cases absent with
  | true =>
    cases absent' with
    | true => exact ⟨rfl, nofun, same⟩
    | false =>
      rw [missing, present] at same
      exact absurd same (differs _)
  | false =>
    cases absent' with
    | true =>
      rw [missing, present] at same
      exact absurd same.symm (differs' _)
    | false =>
      rw [present, present] at same
      obtain ⟨rfl, rests⟩ := quoted text (List.append_cancel_left same)
      exact ⟨rfl, fun _ => rfl, rests⟩

/-- Whether a list is empty, and the text that joins it if not, determine the list. -/
theorem eq_of_optional {valid : List Char → Bool}
    (isSegment : ∀ segment, valid segment = true → isBuildSegment segment = true)
    {left right : List { segment : List Char // valid segment = true }}
    (absent : left.isEmpty = right.isEmpty)
    (same : left.isEmpty = false →
      joinSegments (left.map Subtype.val) = joinSegments (right.map Subtype.val)) :
    left = right := by
  by_cases empty : left = []
  · have emptyRight : right = [] := List.isEmpty_iff.mp (by rw [← absent, empty]; rfl)
    rw [empty, emptyRight]
  · have present : left.isEmpty = false := by simpa using empty
    have presentRight : right ≠ [] := by simpa using absent.symm.trans present
    exact eq_of_joinSegments isSegment empty presentRight (same present)

/-- The record text of a version is self-delimiting. -/
theorem selfDelimiting_recordText : SelfDelimiting fun version : Version =>
    version.recordText.toList := by
  intro left right rest other same
  simp only [toList_recordText, List.append_assoc] at same
  obtain ⟨major, afterMajor⟩ := toString_append_inj (m := left.major.toNat)
    (n := right.major.toNat) (by simp) (by simp) (List.append_cancel_left same)
  obtain ⟨minor, afterMinor⟩ := toString_append_inj (m := left.minor.toNat)
    (n := right.minor.toNat) (by simp) (by simp) (List.append_cancel_left afterMajor)
  obtain ⟨patch, afterPatch⟩ := toString_append_inj (m := left.patch.toNat)
    (n := right.patch.toNat) (head?_optionalField (head?_optionalField (by simp)))
    (head?_optionalField (head?_optionalField (by simp))) (List.append_cancel_left afterMinor)
  -- what follows the pre-release starts with another field or with a blank
  have afterPre : ∀ (version : Version) (rest more : List Char),
      optionalField "build" "BuildMetadata" version.buildText version.build.isEmpty ++
        (" \x7d".toList ++ rest) ≠ (", " ++ "pre" ++ ": ").toList ++ more := by
    intro version rest more
    cases version.build.isEmpty <;> simp [optionalField]
  obtain ⟨noPre, pre, afterPre⟩ :=
    optionalField_append_inj (afterPre left rest) (afterPre right other) afterPatch
  obtain ⟨noBuild, build, afterBuild⟩ :=
    optionalField_append_inj (by simp) (by simp) afterPre
  refine ⟨?_, List.append_cancel_left afterBuild⟩
  cases left
  cases right
  rw [Version.mk.injEq]
  exact ⟨UInt64.toNat_inj.mp major, UInt64.toNat_inj.mp minor, UInt64.toNat_inj.mp patch,
    eq_of_optional (fun _ => isBuildSegment_of_isPreSegment) noPre pre,
    eq_of_optional (fun _ => id) noBuild build⟩

end Version

namespace ParamValue

/-- The name before the parentheses of a value's text. -/
def tag : ParamValue → String
  | bool _ => "Bool"
  | int _ => "Int"
  | str _ => "Str"
  | array _ => "Array"

/-- What stands between the parentheses of a value's text. -/
def content : ParamValue → String
  | bool value => if value then "true" else "false"
  | int value => toString value
  | str value => quoteString value
  | array items => "[" ++ String.intercalate ", " (items.map recordText) ++ "]"

theorem recordTexts_eq_map (items : List ParamValue) : recordTexts items = items.map recordText := by
  induction items with
  | nil => rfl
  | cons item items ih => rw [recordTexts, ih, List.map_cons]

theorem recordText_eq (value : ParamValue) :
    value.recordText = taggedText value.tag value.content := by
  apply String.toList_inj.mp
  cases value with
  | bool value => cases value <;> rfl
  | int value => rw [recordText, tag, content]
  | str value => rw [recordText, tag, content]
  | array items => simp [recordText, tag, content, recordTexts_eq_map, taggedText]

theorem not_mem_tag (value : ParamValue) : '(' ∉ value.tag.toList := by
  cases value <;> simp [tag]

theorem head?_recordText_ne (value : ParamValue) (rest : List Char) :
    (value.recordText.toList ++ rest).head? ≠ some ']' := by
  rw [recordText_eq, toList_taggedText]
  cases value <;> simp [tag]

/-- The texts of some values between brackets are delimited if each is. -/
theorem delimits_items {items : List ParamValue}
    (each : ∀ item ∈ items, Delimits (fun value => value.recordText.toList) item) :
    Delimits (fun items : List ParamValue =>
      ("[" ++ String.intercalate ", " (items.map recordText) ++ "]").toList) items := by
  have listed : ∀ items : List ParamValue,
      ("[" ++ String.intercalate ", " (items.map recordText) ++ "]").toList =
        '[' :: ([',', ' '].intercalate (items.map fun value => value.recordText.toList) ++
          [']']) := by
    intro items
    simp [String.toList_intercalate, Function.comp_def]
  intro others rest other same
  simp only [listed, List.cons_append, List.cons.injEq, true_and] at same
  exact delimits_list each (fun value rest => head?_recordText_ne value rest) same

/-- The record text of a value is self-delimiting, however deep arrays nest. -/
theorem selfDelimiting_recordText :
    SelfDelimiting fun value : ParamValue => value.recordText.toList := by
  intro left
  induction left using induct with
  | step left ih =>
    intro right rest other same
    simp only [recordText_eq] at same
    obtain ⟨tags, contents⟩ := taggedText_append_inj (not_mem_tag left) (not_mem_tag right) same
    cases left with
    | bool a =>
      cases right with
      | bool b => cases a <;> cases b <;> simp_all [content]
      | _ => simp [tag] at tags
    | int a =>
      cases right with
      | int b =>
        obtain ⟨rfl, rests⟩ := selfDelimiting_int a (by simpa [content] using contents)
        exact ⟨rfl, rests⟩
      | _ => simp [tag] at tags
    | str a =>
      cases right with
      | str b =>
        obtain ⟨rfl, rests⟩ := selfDelimiting_quoteString a contents
        exact ⟨rfl, (List.cons.inj rests).2⟩
      | _ => simp [tag] at tags
    | array a =>
      cases right with
      | array b =>
        obtain ⟨rfl, rests⟩ := delimits_items ih contents
        exact ⟨rfl, (List.cons.inj rests).2⟩
      | _ => simp [tag] at tags

end ParamValue

namespace Comparison

theorem not_mem_name (comparison : Comparison) : '(' ∉ comparison.name.toList := by
  cases comparison <;> simp [name]

/-- The record text of a comparison is self-delimiting. -/
theorem selfDelimiting_recordText :
    SelfDelimiting fun comparison : Comparison => comparison.recordText.toList := by
  have values : ∀ {a b : ParamValue} {rest other : List Char},
      a.recordText.toList ++ ')' :: rest = b.recordText.toList ++ ')' :: other →
        a = b ∧ rest = other := by
    intro a b rest other same
    obtain ⟨operands, rests⟩ := ParamValue.selfDelimiting_recordText a same
    exact ⟨operands, (List.cons.inj rests).2⟩
  have bounds : ∀ {a b : Int64} {rest other : List Char},
      (toString a).toList ++ ')' :: rest = (toString b).toList ++ ')' :: other →
        a = b ∧ rest = other := by
    intro a b rest other same
    exact selfDelimiting_int a (by simpa using same)
  have alternatives : ∀ {as bs : List ParamValue} {rest other : List Char},
      ("[" ++ String.intercalate ", " (as.map ParamValue.recordText) ++ "]").toList ++ ')' :: rest =
        ("[" ++ String.intercalate ", " (bs.map ParamValue.recordText) ++ "]").toList ++
          ')' :: other →
        as = bs ∧ rest = other := by
    intro as bs rest other same
    obtain ⟨operands, rests⟩ :=
      ParamValue.delimits_items (fun value _ => ParamValue.selfDelimiting_recordText value) same
    exact ⟨operands, (List.cons.inj rests).2⟩
  intro left right rest other same
  simp only [recordText] at same
  obtain ⟨names, operands⟩ := taggedText_append_inj (not_mem_name left) (not_mem_name right) same
  cases left with
  | equal a =>
    cases right with
    | equal b =>
      obtain ⟨rfl, rests⟩ := values operands
      exact ⟨rfl, rests⟩
    | _ => simp [name] at names
  | notEqual a =>
    cases right with
    | notEqual b =>
      obtain ⟨rfl, rests⟩ := values operands
      exact ⟨rfl, rests⟩
    | _ => simp [name] at names
  | includes a =>
    cases right with
    | includes b =>
      obtain ⟨rfl, rests⟩ := values operands
      exact ⟨rfl, rests⟩
    | _ => simp [name] at names
  | lessThan a =>
    cases right with
    | lessThan b =>
      obtain ⟨rfl, rests⟩ := bounds operands
      exact ⟨rfl, rests⟩
    | _ => simp [name] at names
  | greaterThan a =>
    cases right with
    | greaterThan b =>
      obtain ⟨rfl, rests⟩ := bounds operands
      exact ⟨rfl, rests⟩
    | _ => simp [name] at names
  | atMost a =>
    cases right with
    | atMost b =>
      obtain ⟨rfl, rests⟩ := bounds operands
      exact ⟨rfl, rests⟩
    | _ => simp [name] at names
  | atLeast a =>
    cases right with
    | atLeast b =>
      obtain ⟨rfl, rests⟩ := bounds operands
      exact ⟨rfl, rests⟩
    | _ => simp [name] at names
  | oneOf a =>
    cases right with
    | oneOf b =>
      obtain ⟨rfl, rests⟩ := alternatives operands
      exact ⟨rfl, rests⟩
    | _ => simp [name] at names

end Comparison

/-- The record text of a scope is self-delimiting. -/
theorem ParamScope.selfDelimiting_recordText :
    SelfDelimiting fun scope : ParamScope => scope.recordText.toList := by
  intro left right rest other same
  cases left with
  | value => cases right <;> simp_all [recordText, taggedText]
  | size => cases right <;> simp_all [recordText, taggedText]
  | index i =>
    cases right with
    | value => simp [recordText, taggedText] at same
    | size => simp [recordText, taggedText] at same
    | index j =>
      simp only [recordText, toList_taggedText, List.append_assoc, List.cons_append,
        List.nil_append] at same
      obtain ⟨positions, rests⟩ := toString_append_inj (m := i.toNat) (n := j.toNat)
        (by simp) (by simp) (List.cons.inj (List.append_cancel_left same)).2
      exact ⟨congrArg _ (UInt64.toNat_inj.mp positions), (List.cons.inj rests).2⟩

/-- The name of an operator is delimited by a comma. -/
theorem VersionOp.selfDelimiting_name :
    SelfDelimiting fun op : VersionOp => op.name.toList ++ [','] := by
  refine selfDelimiting_of_sign (fun a b same => ?_) fun op => ?_
  · cases a <;> cases b <;> simp_all [name]
  · cases op <;> simp [name]

theorem toList_recordText_extension (term : ExtensionTerm) :
    (recordText "ExtensionTerm" [("name", quoteString term.name), ("op", term.op.name),
      ("version", term.version.recordText)]).toList =
    "ExtensionTerm \x7b name: ".toList ++ ((quoteString term.name).toList ++ (", op: ".toList ++
      ((term.op.name.toList ++ [',']) ++ (" version: ".toList ++
        (term.version.recordText.toList ++ " \x7d".toList))))) := by
  simp [recordText]

theorem toList_recordText_parameter (term : ParamTerm) :
    (recordText "ParameterTerm" [("name", quoteString term.name),
      ("scope", term.scope.recordText), ("comparison", term.comparison.recordText)]).toList =
    "ParameterTerm \x7b name: ".toList ++ ((quoteString term.name).toList ++
      (", scope: ".toList ++ (term.scope.recordText.toList ++ (", comparison: ".toList ++
        (term.comparison.recordText.toList ++ " \x7d".toList))))) := by
  simp [recordText]

namespace Term

/-- The name before the parentheses of a term's text. -/
def tag : Term → String
  | extension _ => "Extension"
  | parameter _ => "Parameter"
  | xlen _ => "Xlen"
  | free _ => "Free"

/-- What stands between the parentheses of a term's text. -/
def content : Term → String
  | extension term => IsaLogic.recordText "ExtensionTerm" [("name", quoteString term.name),
      ("op", term.op.name), ("version", term.version.recordText)]
  | parameter term => IsaLogic.recordText "ParameterTerm" [("name", quoteString term.name),
      ("scope", term.scope.recordText), ("comparison", term.comparison.recordText)]
  | xlen width => width.name
  | free id => taggedText "FreeTerm" (toString id)

theorem recordText_eq (term : Term) : term.recordText = taggedText term.tag term.content := by
  cases term <;> rfl

theorem not_mem_tag (term : Term) : '(' ∉ term.tag.toList := by
  cases term <;> simp [tag]

/-- Every field of a term is cut out of its record text in one way only. -/
theorem selfDelimiting_recordText : SelfDelimiting fun term : Term => term.recordText.toList := by
  intro left right rest other same
  simp only [recordText_eq] at same
  obtain ⟨tags, contents⟩ := taggedText_append_inj (not_mem_tag left) (not_mem_tag right) same
  cases left with
  | extension a =>
    cases right with
    | extension b =>
      simp only [content, toList_recordText_extension, List.append_assoc] at contents
      obtain ⟨name, afterName⟩ := selfDelimiting_quoteString a.name
        (List.append_cancel_left contents)
      simp only [← List.append_assoc a.op.name.toList, ← List.append_assoc b.op.name.toList]
        at afterName
      obtain ⟨op, afterOp⟩ := VersionOp.selfDelimiting_name a.op
        (List.append_cancel_left afterName)
      obtain ⟨version, afterVersion⟩ := Version.selfDelimiting_recordText a.version
        (List.append_cancel_left afterOp)
      have rests := List.append_cancel_left afterVersion
      cases a
      cases b
      simp_all
    | _ => simp [tag] at tags
  | parameter a =>
    cases right with
    | parameter b =>
      simp only [content, toList_recordText_parameter, List.append_assoc] at contents
      obtain ⟨name, afterName⟩ := selfDelimiting_quoteString a.name
        (List.append_cancel_left contents)
      obtain ⟨scope, afterScope⟩ := ParamScope.selfDelimiting_recordText a.scope
        (List.append_cancel_left afterName)
      obtain ⟨comparison, afterComparison⟩ := Comparison.selfDelimiting_recordText a.comparison
        (List.append_cancel_left afterScope)
      have rests := List.append_cancel_left afterComparison
      cases a
      cases b
      simp_all
    | _ => simp [tag] at tags
  | xlen a =>
    cases right with
    | xlen b => cases a <;> cases b <;> simp_all [content, Xlen.name]
    | _ => simp [tag] at tags
  | free a =>
    cases right with
    | free b =>
      simp only [content, toList_taggedText, List.append_assoc, List.cons_append,
        List.nil_append] at contents
      obtain ⟨rfl, rests⟩ := toString_append_inj (by simp) (by simp)
        (List.cons.inj (List.append_cancel_left contents)).2
      exact ⟨rfl, by simpa using rests⟩
    | _ => simp [tag] at tags

/-- The record text of a term determines the term. -/
theorem recordText_injective : Function.Injective recordText := by
  intro left right same
  exact selfDelimiting_recordText.injective (congrArg String.toList same)

end Term

end IsaLogic
