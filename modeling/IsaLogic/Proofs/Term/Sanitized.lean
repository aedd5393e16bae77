import Mathlib
import IsaLogic.Proofs.Version.RoundTrip

/-!
# Texts in identifiers

An identifier keeps the letters and digits of a text and has a low line for each other character
(`sanitized`). Texts of letters, digits and low lines stay as they are (`sanitized_of_isPlain`).

The punctuation of a version becomes low lines. So its numbers are read off, and the words that
points and hyphens part, but not where a pre-release ends and metadata begins
(`Version.sanitized_text_eq_iff`).
-/

namespace IsaLogic

open Text

/-- A text as it stands in an identifier. -/
def sanitized (text : String) : List Char := text.toList.map Term.identifierChar

/-- Letters, digits and low lines. -/
def isPlainChar (c : Char) : Bool := c.isAlphanum || c == '_'

/-- Whether a text has letters, digits and low lines only. -/
def isPlain (text : String) : Bool := text.toList.all isPlainChar

section Characters

variable {c : Char}

@[simp] theorem sanitized_append (text other : String) :
    sanitized (text ++ other) = sanitized text ++ sanitized other := by
  simp [sanitized]

theorem identifierChar_of_isAlphanum (isAlphanum : c.isAlphanum = true) :
    Term.identifierChar c = c := if_pos isAlphanum

theorem isAlphanum_of_isDigit (isDigit : c.isDigit = true) : c.isAlphanum = true := by
  rw [Char.isAlphanum, isDigit, Bool.or_true]

theorem map_identifierChar_of_isAlphanum {text : List Char}
    (each : ∀ c ∈ text, c.isAlphanum = true) : text.map Term.identifierChar = text :=
  (List.map_congr_left fun c member => identifierChar_of_isAlphanum (each c member)).trans
    (List.map_id text)

theorem low_notMem_of_isAlphanum {text : List Char} (each : ∀ c ∈ text, c.isAlphanum = true) :
    '_' ∉ text := fun low => absurd (each '_' low) (by decide)

theorem sanitized_of_isPlain {text : String} (plain : isPlain text = true) :
    sanitized text = text.toList := by
  refine (List.map_congr_left fun c member => ?_).trans (List.map_id _)
  rcases Bool.or_eq_true_iff.mp (List.all_eq_true.mp plain c member) with isAlphanum | isLow
  · exact identifierChar_of_isAlphanum isAlphanum
  · rw [beq_iff_eq.mp isLow]
    rfl

theorem isAlphanum_of_mem_toString {n : Nat} :
    ∀ c ∈ (toString n).toList, c.isAlphanum = true :=
  fun _ member => isAlphanum_of_isDigit (isDigit_of_mem_toString member)

theorem sanitized_toString (n : Nat) : sanitized (toString n) = (toString n).toList :=
  map_identifierChar_of_isAlphanum isAlphanum_of_mem_toString

theorem isPlainChar_identifierChar (c : Char) : isPlainChar (Term.identifierChar c) = true := by
  unfold Term.identifierChar
  split
  · exact Bool.or_eq_true_iff.mpr (.inl ‹_›)
  · rfl

/-- Identifiers have letters, digits and low lines only, at least one. -/
theorem Term.isPlain_identifier (term : Term) :
    term.identifier.toList ≠ [] ∧ isPlain term.identifier = true := by
  refine ⟨by cases term <;> simp [identifier, ParamTerm.rawIdentifier], List.all_eq_true.mpr ?_⟩
  unfold identifier
  rw [String.toList_ofList]
  exact List.forall_mem_map.mpr fun c _ => isPlainChar_identifierChar c

end Characters

namespace Version

/-- The segments of a pre-release and of metadata. -/
def segments (version : Version) : List (List Char) :=
  version.pre.map Subtype.val ++ version.build.map Subtype.val

/-- The words that points and hyphens part in a pre-release and in metadata. -/
def words (version : Version) : List (List Char) :=
  version.segments.flatMap (splitWhere (· == '-'))

/-- Whether identifiers tell two versions apart if they are different. -/
def distinguishable (v w : Version) : Bool :=
  v == w || v.major != w.major || v.minor != w.minor || v.patch != w.patch || v.words != w.words

/-- Hyphens become the low lines in front of the words that they part. -/
theorem flatMap_splitWhere {segment : List Char} (each : ∀ c ∈ segment, isSegmentChar c = true) :
    (splitWhere (· == '-') segment).flatMap ('_' :: ·) =
      '_' :: segment.map Term.identifierChar := by
  induction segment with
  | nil => rfl
  | cons c rest ih =>
    obtain ⟨here, later⟩ := List.forall_mem_cons.mp each
    have further := ih later
    by_cases isHyphen : c = '-'
    · subst isHyphen
      rw [splitWhere, if_pos (beq_self_eq_true '-'), List.flatMap_cons, further]
      rfl
    · have isAlphanum : c.isAlphanum = true := by simpa [isSegmentChar, isHyphen] using here
      rw [splitWhere, if_neg (by simpa using isHyphen), List.map_cons,
        identifierChar_of_isAlphanum isAlphanum]
      cases parts : splitWhere (· == '-') rest with
      | nil => rw [parts] at further; cases further
      | cons part others =>
        rw [parts, List.flatMap_cons, List.cons_append] at further
        rw [← (List.cons.inj further).2]
        rfl

theorem isBuildSegment_of_mem_segments {version : Version} {segment : List Char}
    (member : segment ∈ version.segments) : isBuildSegment segment = true := by
  rcases List.mem_append.mp member with inPre | inBuild
  · obtain ⟨pre, _, rfl⟩ := List.mem_map.mp inPre
    exact isBuildSegment_of_isPreSegment pre.2
  · obtain ⟨build, _, rfl⟩ := List.mem_map.mp inBuild
    exact build.2

theorem isSegmentChar_of_mem_segments {version : Version} {segment : List Char}
    (member : segment ∈ version.segments) : ∀ c ∈ segment, isSegmentChar c = true := by
  have isSegment := isBuildSegment_of_mem_segments member
  rw [isBuildSegment, Bool.and_eq_true, List.all_eq_true] at isSegment
  exact isSegment.2

theorem low_notMem_of_mem_words {version : Version} {word : List Char}
    (member : word ∈ version.words) : '_' ∉ word := by
  intro low
  obtain ⟨segment, isSegment, isPart⟩ := List.mem_flatMap.mp member
  have isChar := isSegmentChar_of_mem_segments isSegment '_' (mem_of_mem_splitWhere isPart low)
  exact absurd isChar (by decide)

/-- Segments as they stand in an identifier, with the sign in front of them. -/
theorem map_identifierChar_joinSegments {segments : List (List Char)} {sign : Char}
    (isSign : Term.identifierChar sign = '_') :
    (if segments.isEmpty then [] else sign :: (joinSegments segments).toList).map
      Term.identifierChar = segments.flatMap fun segment =>
        '_' :: segment.map Term.identifierChar := by
  have point : Term.identifierChar '.' = '_' := rfl
  cases segments with
  | nil => rfl
  | cons first others =>
    simp [toList_joinSegments, intercalate_cons, isSign, point, List.map_flatMap]

theorem sanitized_text (version : Version) :
    sanitized version.text = (toString version.major).toList ++ '_' ::
      ((toString version.minor).toList ++ '_' :: ((toString version.patch).toList ++
        version.words.flatMap ('_' :: ·))) := by
  have number : ∀ n : UInt64, (toString n).toList.map Term.identifierChar = (toString n).toList :=
    fun n => sanitized_toString n.toNat
  have point : Term.identifierChar '.' = '_' := rfl
  have spelled : version.segments.flatMap (fun segment =>
      '_' :: segment.map Term.identifierChar) = version.words.flatMap ('_' :: ·) := by
    rw [words, List.flatMap_assoc]
    exact List.flatMap_congr fun segment member =>
      (flatMap_splitWhere (isSegmentChar_of_mem_segments member)).symm
  have suffixes : (version.preSuffix ++ version.buildSuffix).map Term.identifierChar =
      version.words.flatMap ('_' :: ·) := by
    have hyphen : Term.identifierChar '-' = '_' := rfl
    have plus : Term.identifierChar '+' = '_' := rfl
    rw [← spelled, segments, List.flatMap_append, ← map_identifierChar_joinSegments hyphen,
      ← map_identifierChar_joinSegments plus, List.isEmpty_map, List.isEmpty_map, List.map_append]
    rfl
  simp [sanitized, toList_text, numbersText, number, point, ← suffixes]

/-- The words are read off the low lines in front of them. -/
theorem splitWhere_flatMap {words : List (List Char)} (free : ∀ word ∈ words, '_' ∉ word) :
    splitWhere (· == '_') (words.flatMap ('_' :: ·)) = [] :: words := by
  have whole : splitWhere (· == '_') (['_'].intercalate ([] :: words)) = [] :: words :=
    splitWhere_intercalate (List.cons_ne_nil _ _)
      (List.forall_mem_cons.mpr ⟨List.not_mem_nil, free⟩)
  rwa [intercalate_cons, List.nil_append] at whole

/-- An identifier shows the numbers and the words of a version, and no more of it. -/
theorem sanitized_text_eq_iff {v w : Version} : sanitized v.text = sanitized w.text ↔
    v.major = w.major ∧ v.minor = w.minor ∧ v.patch = w.patch ∧ v.words = w.words := by
  rw [sanitized_text, sanitized_text]
  refine ⟨fun same => ?_, fun ⟨major, minor, patch, words⟩ => by rw [major, minor, patch, words]⟩
  have low : ∀ rest : List Char, ∀ c ∈ ('_' :: rest).head?, c.isDigit = false := by
    rintro rest c ⟨⟩
    rfl
  have after : ∀ words : List (List Char), ∀ c ∈ (words.flatMap ('_' :: ·)).head?,
      c.isDigit = false := by
    intro words
    cases words with
    | nil => nofun
    | cons => exact low _
  obtain ⟨major, same⟩ := toString_append_inj (low _) (low _) same
  obtain ⟨minor, same⟩ := toString_append_inj (low _) (low _) (List.cons.inj same).2
  obtain ⟨patch, same⟩ := toString_append_inj (after _) (after _) (List.cons.inj same).2
  have words := congrArg (splitWhere (· == '_')) same
  rw [splitWhere_flatMap fun _ => low_notMem_of_mem_words,
    splitWhere_flatMap fun _ => low_notMem_of_mem_words] at words
  exact ⟨UInt64.toNat_inj.mp major, UInt64.toNat_inj.mp minor, UInt64.toNat_inj.mp patch,
    (List.cons.inj words).2⟩

theorem eq_of_sanitized {v w : Version} (apart : v.distinguishable w = true)
    (same : sanitized v.text = sanitized w.text) : v = w := by
  obtain ⟨major, minor, patch, words⟩ := sanitized_text_eq_iff.mp same
  simpa [distinguishable, major, minor, patch, words] using apart

end Version

end IsaLogic
