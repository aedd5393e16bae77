import Mathlib
import IsaLogic.Proofs.Term.Operand

/-!
# Identifiers of terms

An identifier is a name, a low line, and a text that begins with a word and a low line: the operator
on a version, or the scope and the comparison of a parameter. The identifiers of register widths and
of synthetic variables have no low line.

Different terms may have one identifier (`identifier_shared`). They have different ones if their
parts are the same or told apart: names, versions and operands (`identifier_eq_iff`). Of a name they
lose the punctuation and the end, of a version the punctuation.
-/

namespace IsaLogic

open Text

section Names

/-- The first words of the keys of comparisons. -/
def Comparison.markers : List String := ["equal", "not", "less", "greater", "includes", "oneOf"]

/-- The words that stand after a name in identifiers. -/
def markers : List String :=
  VersionOp.all.map VersionOp.mnemonic ++ "size" :: Comparison.markers

/-- Whether identifiers have a word or number after a name. -/
def isMarker (word : List Char) : Bool :=
  markers.contains (String.ofList word) || !word.isEmpty && word.all Char.isDigit

/-- Whether a name goes on after another one as identifiers with the other name do. -/
def continues (name longer : List Char) : Bool :=
  (name ++ ['_']).isPrefixOf longer &&
    isMarker ((longer.drop (name.length + 1)).takeWhile (· != '_'))

/-- Whether identifiers tell two names apart if they are different. They show names without their
punctuation. -/
def namesDistinguishable (name other : String) : Bool :=
  name == other ||
    sanitized name != sanitized other && !continues (sanitized name) (sanitized other) &&
      !continues (sanitized other) (sanitized name)

theorem isMarker_toString (n : Nat) :
    isMarker (toString n).toList = true ∧ '_' ∉ (toString n).toList := by
  obtain ⟨c, rest, isCons, -⟩ := exists_head_toString n
  have digits : (toString n).toList.all Char.isDigit = true :=
    List.all_eq_true.mpr fun _ => isDigit_of_mem_toString
  refine ⟨?_, low_notMem_of_isAlphanum isAlphanum_of_mem_toString⟩
  rw [isMarker, digits, isCons]
  simp

theorem toString_ne_of_letter {n : Nat} {word : List Char}
    (letter : word.all Char.isDigit = false) : (toString n).toList ≠ word := by
  rintro rfl
  have each : (toString n).toList.all Char.isDigit = true :=
    List.all_eq_true.mpr fun _ => isDigit_of_mem_toString
  cases letter.symm.trans each

variable {name other : String} {marker marker' rest rest' : List Char}

/-- If a longer name is taken for a shorter one with its marker, then it goes on with that. -/
theorem continues_of_append {name longer more : List Char} (free : '_' ∉ marker)
    (isMark : isMarker marker = true) (isLonger : longer = name ++ '_' :: more)
    (same : marker ++ '_' :: rest = more ++ '_' :: rest') : continues name longer = true := by
  have cut : (more ++ '_' :: rest').takeWhile (· != '_') = marker := by
    rw [← same]
    refine (takeWhile_dropWhile_append (fun c member => ?_) (by simp)).1
    rw [bne_iff_ne]
    rintro rfl
    exact free member
  have word : more.takeWhile (· != '_') = marker := by
    rw [List.takeWhile_append] at cut
    split at cut
    · rename_i whole
      rw [List.takeWhile_cons_of_neg (by simp), List.append_nil] at cut
      rwa [(List.takeWhile_prefix _).eq_of_length whole]
    · exact cut
  rw [continues, isLonger, Bool.and_eq_true]
  refine ⟨by simp, ?_⟩
  simpa [word] using isMark

/-- Where names are told apart, identifiers are put together in one way. -/
theorem eq_of_namesDistinguishable (apart : namesDistinguishable name other = true)
    (free : '_' ∉ marker) (free' : '_' ∉ marker') (isMark : isMarker marker = true)
    (isMark' : isMarker marker' = true)
    (same : sanitized name ++ '_' :: (marker ++ '_' :: rest) =
      sanitized other ++ '_' :: (marker' ++ '_' :: rest')) :
    name = other ∧ marker = marker' ∧ rest = rest' := by
  have after : name = other → name = other ∧ marker = marker' ∧ rest = rest' := by
    rintro rfl
    have tails := (List.cons.inj (List.append_cancel_left same)).2
    exact ⟨rfl, append_inj_of_sign free free' tails⟩
  simp only [namesDistinguishable, Bool.or_eq_true, beq_iff_eq, Bool.and_eq_true, bne_iff_ne,
    Bool.not_eq_true'] at apart
  rcases apart with equal | ⟨⟨differ, notOther⟩, notName⟩
  · exact after equal
  · rcases List.append_eq_append_iff.mp same with ⟨more, longer, tails⟩ | ⟨more, longer, tails⟩
    · cases more with
      | nil => exact absurd (by simpa using longer.symm) differ
      | cons c more =>
        obtain ⟨rfl, inner⟩ := List.cons.inj tails
        cases notOther.symm.trans (continues_of_append free isMark longer inner)
    · cases more with
      | nil => exact absurd (by simpa using longer) differ
      | cons c more =>
        obtain ⟨rfl, inner⟩ := List.cons.inj tails
        cases notName.symm.trans (continues_of_append free' isMark' longer inner)

end Names

namespace VersionOp

theorem mnemonic_injective : Function.Injective mnemonic := by
  intro op other same
  cases op <;> cases other <;> first | rfl | exact absurd same (by decide)

theorem isMarker_mnemonic (op : VersionOp) :
    isMarker op.mnemonic.toList = true ∧ '_' ∉ op.mnemonic.toList := by
  cases op <;> decide

end VersionOp

namespace Comparison

/-- The first word of the key. -/
def marker : Comparison → String
  | equal _ => "equal"
  | notEqual _ => "not"
  | lessThan _ | atMost _ => "less"
  | greaterThan _ | atLeast _ => "greater"
  | includes _ => "includes"
  | oneOf _ => "oneOf"

/-- A comparison as it stands in an identifier. -/
def sanitizedText (comparison : Comparison) : List Char :=
  comparison.key.toList ++ '_' :: sanitized comparison.operand.text

theorem exists_sanitizedText (comparison : Comparison) :
    ∃ rest, comparison.sanitizedText = comparison.marker.toList ++ '_' :: rest := by
  cases comparison <;> simp [sanitizedText, key, marker]

theorem marker_mem (comparison : Comparison) : comparison.marker ∈ markers := by
  cases comparison <;> simp [marker, markers]

theorem marker_eq_of_sanitizedText {a b : Comparison} (same : a.sanitizedText = b.sanitizedText) :
    a.marker = b.marker := by
  have free : ∀ word ∈ markers, '_' ∉ word.toList := by decide
  obtain ⟨rest, isText⟩ := a.exists_sanitizedText
  obtain ⟨rest', isText'⟩ := b.exists_sanitizedText
  rw [isText, isText'] at same
  have words := append_inj_of_sign (free _ a.marker_mem) (free _ b.marker_mem) same
  exact String.toList_inj.mp words.1

/-- What is written of a comparison tells its key. Two keys begin with a shorter one, but a bound
does not go on as they do. -/
theorem key_eq_of_sanitizedText {a b : Comparison} (same : a.sanitizedText = b.sanitizedText) :
    a.key = b.key := by
  have markers := marker_eq_of_sanitizedText same
  have noLetter : ∀ (n : Int64) (rest : List Char),
      sanitized (ParamValue.int n).text ≠ 'o' :: rest := by
    intro n rest same
    rw [ParamValue.sanitized_int] at same
    generalize n.toInt = bound at same
    cases bound with
    | ofNat n =>
      rw [ParamValue.sanitized_ofNat] at same
      cases isDigit_of_mem_toString (same ▸ List.mem_cons_self ..)
    | negSucc n =>
      rw [ParamValue.sanitized_negSucc] at same
      cases (List.cons.inj same).1
  cases a <;> cases b <;> first
    | rfl
    | (simp [marker] at markers; done)
    | simp [sanitizedText, key, operand, noLetter, (noLetter _ _).symm] at same

theorem operand_eq_of_sanitizedText {a b : Comparison}
    (apart : a.operand.distinguishable b.operand = true) (keys : a.key = b.key)
    (same : a.sanitizedText = b.sanitizedText) : a.operand = b.operand := by
  rw [sanitizedText, sanitizedText, keys] at same
  exact ParamValue.eq_of_sanitized apart (List.cons.inj (List.append_cancel_left same)).2

theorem eq_of_key {a b : Comparison} (keys : a.key = b.key) (operands : a.operand = b.operand) :
    a = b := by
  cases a <;> cases b <;> simp_all [key, operand]

end Comparison

namespace ParamScope

/-- A scope as it stands in an identifier, in front of the comparison. -/
def sanitizedText : ParamScope → List Char
  | value => []
  | index i => (toString i).toList ++ ['_']
  | size => ['s', 'i', 'z', 'e', '_']

/-- The word that stands after the name of a parameter. -/
def marker (scope : ParamScope) (comparison : Comparison) : List Char :=
  match scope with
  | value => comparison.marker.toList
  | index i => (toString i).toList
  | size => "size".toList

theorem exists_sanitizedText (scope : ParamScope) (comparison : Comparison) : ∃ rest,
    scope.sanitizedText ++ comparison.sanitizedText = scope.marker comparison ++ '_' :: rest := by
  cases scope with
  | value => exact comparison.exists_sanitizedText
  | index i => exact ⟨comparison.sanitizedText, List.append_assoc ..⟩
  | size => exact ⟨comparison.sanitizedText, rfl⟩

theorem isMarker_marker (scope : ParamScope) (comparison : Comparison) :
    isMarker (scope.marker comparison) = true ∧ '_' ∉ scope.marker comparison := by
  have words : ∀ word ∈ "size" :: Comparison.markers,
      isMarker word.toList = true ∧ '_' ∉ word.toList := by decide
  cases scope with
  | value => exact words _ (List.mem_cons_of_mem _ comparison.marker_mem)
  | index i => exact isMarker_toString i.toNat
  | size => exact words "size" (List.mem_cons_self ..)

theorem eq_of_marker {scope other : ParamScope} {a b : Comparison}
    (same : scope.marker a = other.marker b) : scope = other := by
  have size : "size".toList.all Char.isDigit = false := by decide
  have words : ∀ word ∈ Comparison.markers,
      word.toList.all Char.isDigit = false ∧ word.toList ≠ "size".toList := by decide
  have inA := words _ a.marker_mem
  have inB := words _ b.marker_mem
  cases scope with
  | value =>
    cases other with
    | value => rfl
    | index j => exact absurd same.symm (toString_ne_of_letter (n := j.toNat) inA.1)
    | size => exact absurd same inA.2
  | index i =>
    cases other with
    | value => exact absurd same (toString_ne_of_letter (n := i.toNat) inB.1)
    | index j =>
      have numerals : i.toNat = j.toNat := Nat.repr_injective (String.toList_inj.mp same)
      rw [UInt64.toNat_inj.mp numerals]
    | size => exact absurd same (toString_ne_of_letter (n := i.toNat) size)
  | size =>
    cases other with
    | value => exact absurd same.symm inB.2
    | index j => exact absurd same.symm (toString_ne_of_letter (n := j.toNat) size)
    | size => rfl

/-- The operator on a version is no word for a parameter. -/
theorem marker_ne_mnemonic (scope : ParamScope) (comparison : Comparison) (op : VersionOp) :
    scope.marker comparison ≠ op.mnemonic.toList := by
  have words : ∀ word ∈ "size" :: Comparison.markers, word.toList ≠ op.mnemonic.toList := by
    cases op <;> decide
  cases scope with
  | value => exact words _ (List.mem_cons_of_mem _ comparison.marker_mem)
  | index i => exact toString_ne_of_letter (n := i.toNat) (by cases op <;> decide)
  | size => exact words "size" (List.mem_cons_self ..)

end ParamScope

namespace Term

theorem toList_identifier_extension (term : ExtensionTerm) :
    (identifier (extension term)).toList =
      sanitized term.name ++ '_' :: (term.op.mnemonic.toList ++ '_' ::
        sanitized term.version.text) := by
  have mnemonic : sanitized term.op.mnemonic = term.op.mnemonic.toList := by
    cases term.op <;> decide
  have low : sanitized "_" = ['_'] := rfl
  have isMap : (identifier (extension term)).toList =
      sanitized (term.name ++ "_" ++ term.op.mnemonic ++ "_" ++ term.version.text) :=
    String.toList_ofList
  simp [isMap, mnemonic, low]

theorem toList_identifier_parameter (term : ParamTerm) :
    (identifier (parameter term)).toList =
      sanitized term.name ++ '_' ::
        (term.scope.sanitizedText ++ term.comparison.sanitizedText) := by
  have key : sanitized term.comparison.key = term.comparison.key.toList := by
    cases term.comparison <;> (simp only [Comparison.key]; decide)
  have low : sanitized "_" = ['_'] := rfl
  have empty : sanitized "" = [] := rfl
  have size : sanitized "_size" = ['_', 's', 'i', 'z', 'e'] := rfl
  have position : ∀ i : UInt64, sanitized (toString i) = (toString i).toList := fun i =>
    sanitized_toString i.toNat
  have isMap : (identifier (parameter term)).toList = sanitized term.rawIdentifier :=
    String.toList_ofList
  rw [isMap, ParamTerm.rawIdentifier, Comparison.sanitizedText]
  cases term.scope <;>
    simp only [ParamScope.sanitizedText, sanitized_append, key, empty, low, size, position,
      List.append_assoc, List.cons_append, List.nil_append]

theorem head?_identifier_xlen (width : Xlen) :
    (identifier (xlen width)).toList.head? = some 'X' := by
  cases width <;> decide

theorem toList_identifier_free (id : Nat) :
    (identifier (free id)).toList = 't' :: (toString id).toList := by
  have isMap : (identifier (free id)).toList = sanitized ("t" ++ toString id) :=
    String.toList_ofList
  rw [isMap, sanitized_append, sanitized_toString]
  rfl

/-- Whether a term is about an extension or a parameter of some name. -/
def isNamed : Term → Bool
  | extension _ | parameter _ => true
  | xlen _ | free _ => false

theorem low_mem_identifier (term : Term) : '_' ∈ term.identifier.toList ↔ term.isNamed = true := by
  cases term with
  | extension term => simp [toList_identifier_extension, isNamed]
  | parameter term => simp [toList_identifier_parameter, isNamed]
  | xlen width => cases width <;> simp only [isNamed] <;> decide
  | free id => simp [toList_identifier_free, isNamed]

/-- Whether identifiers tell two terms apart if they are different. -/
def distinguishable : Term → Term → Bool
  | extension a, extension b =>
    namesDistinguishable a.name b.name && (a.op != b.op || a.version.distinguishable b.version)
  | parameter a, parameter b =>
    namesDistinguishable a.name b.name && (a.scope != b.scope ||
      a.comparison.key != b.comparison.key ||
        a.comparison.operand.distinguishable b.comparison.operand)
  | extension a, parameter b | parameter b, extension a => namesDistinguishable a.name b.name
  | _, _ => true

theorem extension_eq_of_identifier {a b : ExtensionTerm}
    (apart : (extension a).distinguishable (extension b) = true)
    (same : (extension a).identifier = (extension b).identifier) : a = b := by
  obtain ⟨names, versions⟩ := Bool.and_eq_true_iff.mp apart
  have texts := congrArg String.toList same
  rw [toList_identifier_extension, toList_identifier_extension] at texts
  obtain ⟨isMark, free⟩ := a.op.isMarker_mnemonic
  obtain ⟨isMark', free'⟩ := b.op.isMarker_mnemonic
  obtain ⟨name, words, version⟩ := eq_of_namesDistinguishable names free free' isMark isMark' texts
  have op := VersionOp.mnemonic_injective (String.toList_inj.mp words)
  have versions : a.version.distinguishable b.version = true := by simpa [op] using versions
  cases a
  cases b
  rw [ExtensionTerm.mk.injEq]
  exact ⟨name, op, Version.eq_of_sanitized versions version⟩

theorem parameter_eq_of_identifier {a b : ParamTerm}
    (apart : (parameter a).distinguishable (parameter b) = true)
    (same : (parameter a).identifier = (parameter b).identifier) : a = b := by
  obtain ⟨names, operands⟩ := Bool.and_eq_true_iff.mp apart
  have texts := congrArg String.toList same
  obtain ⟨rest, isText⟩ := a.scope.exists_sanitizedText a.comparison
  obtain ⟨rest', isText'⟩ := b.scope.exists_sanitizedText b.comparison
  rw [toList_identifier_parameter, toList_identifier_parameter, isText, isText'] at texts
  obtain ⟨isMark, free⟩ := a.scope.isMarker_marker a.comparison
  obtain ⟨isMark', free'⟩ := b.scope.isMarker_marker b.comparison
  obtain ⟨name, words, rests⟩ := eq_of_namesDistinguishable names free free' isMark isMark' texts
  have scope := ParamScope.eq_of_marker words
  have comparisons : a.comparison.sanitizedText = b.comparison.sanitizedText := by
    rw [words, rests, ← isText', scope] at isText
    exact List.append_cancel_left isText
  have keys := Comparison.key_eq_of_sanitizedText comparisons
  have operands : a.comparison.operand.distinguishable b.comparison.operand = true := by
    simpa [scope, keys] using operands
  have operand := Comparison.operand_eq_of_sanitizedText operands keys comparisons
  cases a
  cases b
  rw [ParamTerm.mk.injEq]
  exact ⟨name, scope, Comparison.eq_of_key keys operand⟩

theorem extension_ne_parameter {a : ExtensionTerm} {b : ParamTerm}
    (names : namesDistinguishable a.name b.name = true) :
    (extension a).identifier ≠ (parameter b).identifier := by
  intro same
  have texts := congrArg String.toList same
  obtain ⟨rest, isText⟩ := b.scope.exists_sanitizedText b.comparison
  rw [toList_identifier_extension, toList_identifier_parameter, isText] at texts
  obtain ⟨isMark, free⟩ := a.op.isMarker_mnemonic
  obtain ⟨isMark', free'⟩ := b.scope.isMarker_marker b.comparison
  obtain ⟨-, words, -⟩ := eq_of_namesDistinguishable names free free' isMark isMark' texts
  exact b.scope.marker_ne_mnemonic b.comparison a.op words.symm

theorem xlen_ne_free (width : Xlen) (id : Nat) :
    (xlen width).identifier ≠ (free id).identifier := by
  intro same
  have first := head?_identifier_xlen width
  rw [same, toList_identifier_free] at first
  cases first

/-- Register widths and synthetic variables share their identifiers with no other term. -/
theorem eq_of_not_isNamed {s t : Term} (unnamed : s.isNamed = false)
    (same : s.identifier = t.identifier) : s = t := by
  have lows : s.isNamed = t.isNamed := by
    rw [Bool.eq_iff_iff, ← low_mem_identifier, ← low_mem_identifier, same]
  cases s with
  | extension => cases unnamed
  | parameter => cases unnamed
  | xlen width =>
    cases t with
    | extension => cases lows
    | parameter => cases lows
    | xlen other =>
      revert same
      cases width <;> cases other <;> decide
    | free id => exact absurd same (xlen_ne_free width id)
  | free id =>
    cases t with
    | extension => cases lows
    | parameter => cases lows
    | xlen width => exact absurd same.symm (xlen_ne_free width id)
    | free other =>
      have texts := congrArg String.toList same
      rw [toList_identifier_free, toList_identifier_free] at texts
      rw [Nat.repr_injective (String.toList_inj.mp (List.cons.inj texts).2)]

/-- Terms whose parts are the same or told apart share an identifier only if they are one term. -/
theorem identifier_eq_iff {s t : Term} (apart : s.distinguishable t = true) :
    s.identifier = t.identifier ↔ s = t := by
  refine ⟨fun same => ?_, fun equal => by rw [equal]⟩
  cases s with
  | extension a =>
    cases t with
    | extension b => rw [extension_eq_of_identifier apart same]
    | parameter b => exact absurd same (extension_ne_parameter apart)
    | xlen => exact (eq_of_not_isNamed rfl same.symm).symm
    | free => exact (eq_of_not_isNamed rfl same.symm).symm
  | parameter a =>
    cases t with
    | extension b => exact absurd same.symm (extension_ne_parameter apart)
    | parameter b => rw [parameter_eq_of_identifier apart same]
    | xlen => exact (eq_of_not_isNamed rfl same.symm).symm
    | free => exact (eq_of_not_isNamed rfl same.symm).symm
  | xlen => exact eq_of_not_isNamed rfl same
  | free => exact eq_of_not_isNamed rfl same

/-- One name begins with the other, and the alternatives differ in a sign only. Names with
punctuation differ in a letter, and versions with hyphens in a number. -/
theorem identifier_eq_iff_alternatives :
    let s := parameter (.make "P" (.index 0) (.oneOf [.str "a_b", .str "", .int (-5)]))
    let t := parameter (.make "P_mode" (.index 0) (.oneOf [.str "a_b", .str "", .int 5]))
    let pre : List PreSegment := [⟨['r', '-'], by decide⟩]
    let v := extension { name := "A-b", op := .ge, version := ⟨1, 0, 0, pre, []⟩ }
    let w := extension { name := "A-b", op := .ge, version := ⟨1, 0, 1, pre, []⟩ }
    let x := extension { name := "A-c", op := .ge, version := ⟨1, 0, 0, pre, []⟩ }
    s.distinguishable t = true ∧ s.identifier ≠ t.identifier ∧
      v.distinguishable w = true ∧ v.identifier ≠ w.identifier ∧
      v.distinguishable x = true ∧ v.identifier ≠ x.identifier := by
  intro s t pre v w x
  have signs : s.distinguishable t = true := by cbv
  have numbers : v.distinguishable w = true := by cbv
  have names : v.distinguishable x = true := by cbv
  exact ⟨signs, (identifier_eq_iff signs).not.mpr (by decide),
    numbers, (identifier_eq_iff numbers).not.mpr (by decide),
    names, (identifier_eq_iff names).not.mpr (by decide)⟩

/-- Different terms that share an identifier, a pair for each thing that telling them apart takes:
names that differ in more than punctuation, and without a word at the end that identifiers add;
versions with other words, whether a hyphen or a point parts them and wherever metadata begins;
strings that differ in more than punctuation; no string beside an array; and in an array no arrays,
no numbers behind strings, and no low lines in strings but single ones inside. -/
def collisions : List (Term × Term) :=
  let version (pre : List PreSegment) (build : List BuildSegment) :=
    extension { name := "A", op := .ge, version := ⟨1, 0, 0, pre, build⟩ }
  let equal (v : ParamValue) := parameter { name := "P", scope := .value, comparison := .equal v }
  [(extension (.any "A-b"), extension (.any "A_b")),
    (parameter ⟨"P_not", .value, .equal (.int 5)⟩, parameter ⟨"P", .value, .notEqual (.int 5)⟩),
    (parameter ⟨"P_0", .value, .equal (.int 5)⟩, parameter ⟨"P", .index 0, .equal (.int 5)⟩),
    (version [⟨['r', '-', '1'], by decide⟩] [],
      version [⟨['r'], by decide⟩, ⟨['1'], by decide⟩] []),
    (version [⟨['r'], by decide⟩] [], version [] [⟨['r'], by decide⟩]),
    (equal (.str "a-b"), equal (.str "a_b")),
    (equal (.str "5"), equal (.array [.int 5])),
    (equal (.array [.str "5"]), equal (.array [.array [.int 5]])),
    (equal (.array [.str "5", .int 6]), equal (.array [.int (-5), .int (-6)])),
    (equal (.array [.str "a____b"]), equal (.array [.str "a", .str "b"])),
    (equal (.array [.str "a_", .str "b"]), equal (.array [.str "a", .str "_b"]))]

theorem identifier_shared :
    collisions.all (fun (s, t) => decide (s ≠ t)) = true ∧
      collisions.all (fun (s, t) => decide (s.identifier = t.identifier)) = true :=
  ⟨by decide, by cbv⟩

end Term

end IsaLogic
