import Mathlib
import IsaLogic.Proofs.Term.RecordText
import IsaLogic.Proofs.Text.Reading
import IsaLogic.Version.Parser

/-!
# Written versions and requirements are read back

The text of a version is its three numbers and a suffix for the pre-release and the
metadata. Each reader takes from a text just what was written for its part, whatever
follows, so a version is read back from its text (`Version.parse_text`) and a requirement
from the text that clauses have for it (`ExtensionTerm.parse_requirement`).
-/

namespace IsaLogic

namespace Text

theorem isBlank_of_isSegmentChar {c : Char} (isSegment : isSegmentChar c = true) :
    isBlank c = false := by
  rw [isSegmentChar, Bool.or_eq_true, beq_iff_eq] at isSegment
  rcases isSegment with isAlphanum | rfl
  · exact isBlank_of_isAlphanum isAlphanum
  · decide

theorem isSegmentChar_of_isDigit {c : Char} (isDigit : c.isDigit = true) :
    isSegmentChar c = true := by
  rw [isSegmentChar, Char.isAlphanum, isDigit, Bool.or_true, Bool.true_or]

end Text

namespace Version

open Text

section Numbers

variable {part : VersionPart} {n : Nat} {rest : List Char}

/-- Digits are read one by one, whatever follows them. -/
theorem readNumber_toDigits (small : n ≤ maxCount) (rest : List Char) :
    readNumber part (Nat.toDigits 10 n ++ rest) = readNumberTail part n rest := by
  induction n using Nat.strongRecOn generalizing rest with
  | ind n ih =>
    rw [Nat.toDigits_eq_if (by decide)]
    split
    · rename_i isDigit
      rw [List.singleton_append, readNumber, digitValue?_digitChar n isDigit]
    · have digit := digitValue?_digitChar (n % 10) (Nat.mod_lt n (by decide))
      have whole : n / 10 * 10 + n % 10 = n := Nat.div_add_mod' n 10
      rw [List.append_assoc, ih (n / 10) (by omega) (by omega), List.singleton_append,
        readNumberTail, digit]
      dsimp only
      rw [if_neg (by omega), whole, if_neg (by omega)]

/-- A number ends where no digit follows. -/
theorem readNumberTail_of_no_digit (ends : ∀ c ∈ rest.head?, c.isDigit = false) :
    readNumberTail part n rest = .ok (UInt64.ofNat n, rest) := by
  cases rest with
  | nil => rfl
  | cons c rest => rw [readNumberTail, digitValue?_eq_none (ends c rfl)]

/-- A written number is read back if no digit follows it. -/
theorem readNumber_toString (number : UInt64) (ends : ∀ c ∈ rest.head?, c.isDigit = false) :
    readNumber part ((toString number).toList ++ rest) = .ok (number, rest) := by
  have digits : (toString number).toList = Nat.toDigits 10 number.toNat := Nat.toList_repr
  have small : number.toNat ≤ maxCount := Nat.le_of_lt_succ number.toNat_lt
  rw [digits, readNumber_toDigits small, readNumberTail_of_no_digit ends, UInt64.ofNat_toNat]

end Numbers

section Segments

/-- Segments are joined by points. -/
theorem toList_joinSegments (segments : List (List Char)) :
    (joinSegments segments).toList = ['.'].intercalate segments := by
  simp [joinSegments, String.toList_intercalate, Function.comp_def]

/-- The characters of joined segments are those of the segments, and points. -/
theorem mem_joinSegments {segments : List (List Char)}
    (valid : ∀ segment ∈ segments, isBuildSegment segment = true) :
    ∀ c ∈ (joinSegments segments).toList, (isSegmentChar c || c == '.') = true := by
  have inSegment : ∀ segment ∈ segments, ∀ c ∈ segment, isSegmentChar c = true := by
    intro segment member
    have isSegment := valid segment member
    rw [isBuildSegment, Bool.and_eq_true, List.all_eq_true] at isSegment
    exact isSegment.2
  rw [toList_joinSegments]
  cases segments with
  | nil => simp
  | cons first others =>
    intro c member
    rw [Bool.or_eq_true, beq_iff_eq]
    rw [intercalate_cons, List.mem_append, List.mem_flatMap] at member
    rcases member with inFirst | ⟨segment, isOther, inside⟩
    · exact .inl (inSegment first (List.mem_cons_self ..) c inFirst)
    · rcases List.mem_cons.mp inside with isPoint | inOther
      · exact .inr isPoint
      · exact .inl (inSegment segment (List.mem_cons_of_mem first isOther) c inOther)

/-- An identifier is cut into its segments where a character follows that it cannot have. -/
theorem splitIdentifier_joinSegments (segments : List (List Char)) (rest : List Char)
    (nonempty : segments ≠ [])
    (valid : ∀ segment ∈ segments, isBuildSegment segment = true)
    (ends : ∀ c ∈ rest.head?, (isSegmentChar c || c == '.') = false) :
    splitIdentifier ((joinSegments segments).toList ++ rest) = (segments, rest) := by
  obtain ⟨identifier, others⟩ := takeWhile_dropWhile_append (mem_joinSegments valid) ends
  rw [splitIdentifier, identifier, others, splitWhere_joinSegments nonempty valid]

theorem readPreSegments_val (segments : List PreSegment) :
    readPreSegments (segments.map Subtype.val) = .ok segments := by
  induction segments with
  | nil => rfl
  | cons segment segments ih =>
    rw [List.map_cons, readPreSegments, dif_pos segment.2, ih]
    rfl

theorem readBuildSegments_val (segments : List BuildSegment) :
    readBuildSegments (segments.map Subtype.val) = .ok segments := by
  induction segments with
  | nil => rfl
  | cons segment segments ih =>
    rw [List.map_cons, readBuildSegments, dif_pos segment.2, ih]
    rfl

end Segments

section Parts

/-- The three numbers of a version, as they are written. -/
def numbersText (version : Version) : List Char :=
  (toString version.major).toList ++ '.' ::
    ((toString version.minor).toList ++ '.' :: (toString version.patch).toList)

/-- The written pre-release, with its sign. -/
def preSuffix (version : Version) : List Char :=
  if version.pre.isEmpty then [] else '-' :: version.preText.toList

/-- The written metadata, with its sign. -/
def buildSuffix (version : Version) : List Char :=
  if version.build.isEmpty then [] else '+' :: version.buildText.toList

variable (version : Version)

theorem toList_text :
    version.text.toList = version.numbersText ++ (version.preSuffix ++ version.buildSuffix) := by
  unfold text numbersText preSuffix buildSuffix
  cases version.pre.isEmpty <;> cases version.build.isEmpty <;> simp [toString]

theorem head?_buildSuffix {c : Char} (first : c ∈ version.buildSuffix.head?) : c = '+' := by
  unfold buildSuffix at first
  split at first
  · cases first
  · cases first; rfl

theorem head?_suffix {c : Char} (first : c ∈ (version.preSuffix ++ version.buildSuffix).head?) :
    c = '-' ∨ c = '+' := by
  unfold preSuffix at first
  split at first
  · exact .inr (version.head?_buildSuffix first)
  · cases first
    exact .inl rfl

/-- The metadata is read back, and nothing is left. -/
theorem readBuild_buildSuffix (last : VersionPart) :
    ∃ part, readBuild last version.buildSuffix = .ok (version.build, part, []) := by
  unfold buildSuffix
  cases segments : version.build with
  | nil => exact ⟨last, rfl⟩
  | cons first others =>
    have split := splitIdentifier_joinSegments (version.build.map Subtype.val) []
      (by simp [segments]) (List.forall_mem_map.mpr fun segment _ => segment.2) nofun
    refine ⟨.build, ?_⟩
    rw [List.append_nil, ← buildText] at split
    rw [List.isEmpty_cons, if_neg Bool.false_ne_true, readBuild, split]
    dsimp only
    rw [readBuildSegments_val, segments]
    rfl

/-- The pre-release is read back, and the metadata is left. -/
theorem readPre_preSuffix :
    ∃ part, readPre (version.preSuffix ++ version.buildSuffix) =
      .ok (version.pre, part, version.buildSuffix) := by
  unfold preSuffix
  cases segments : version.pre with
  | nil =>
    refine ⟨.patch, ?_⟩
    rw [List.isEmpty_nil, if_pos rfl, List.nil_append, readPre]
    intro text isPre
    have first := version.head?_buildSuffix (c := '-') (by rw [isPre]; rfl)
    cases first
  | cons first others =>
    have split := splitIdentifier_joinSegments (version.pre.map Subtype.val)
      version.buildSuffix (by simp [segments])
      (List.forall_mem_map.mpr fun segment _ => isBuildSegment_of_isPreSegment segment.2)
      fun c isFirst => by rw [version.head?_buildSuffix isFirst]; decide
    refine ⟨.pre, ?_⟩
    rw [← preText] at split
    rw [List.isEmpty_cons, if_neg Bool.false_ne_true, List.cons_append, readPre, split]
    dsimp only
    rw [readPreSegments_val, segments]
    rfl

/-- The numbers are digits and points, and begin with a digit. -/
theorem mem_numbersText {c : Char} (member : c ∈ version.numbersText) :
    c.isDigit = true ∨ c = '.' := by
  have digits : ∀ number : UInt64, c ∈ (toString number).toList → c.isDigit = true :=
    fun number => isDigit_of_mem_toString (n := number.toNat)
  simp only [numbersText, List.mem_append, List.mem_cons] at member
  rcases member with inMajor | rfl | inMinor | rfl | inPatch
  · exact .inl (digits _ inMajor)
  · exact .inr rfl
  · exact .inl (digits _ inMinor)
  · exact .inr rfl
  · exact .inl (digits _ inPatch)

theorem exists_head_numbersText :
    ∃ c rest, version.numbersText = c :: rest ∧ c.isDigit = true := by
  obtain ⟨c, rest, written, isDigit⟩ := exists_head_toString version.major.toNat
  change (toString version.major).toList = c :: rest at written
  rw [numbersText, written]
  exact ⟨c, _, rfl, isDigit⟩

/-- A version that is written in full is read back. -/
theorem parseStrict_text : parseStrict version.text.toList = .ok version := by
  have point : ∀ (rest : List Char), ∀ c ∈ ('.' :: rest).head?, c.isDigit = false := by
    intro rest c first
    cases first
    rfl
  have suffix : ∀ c ∈ (version.preSuffix ++ version.buildSuffix).head?, c.isDigit = false := by
    intro c first
    rcases version.head?_suffix first with rfl | rfl <;> rfl
  obtain ⟨last, pre⟩ := version.readPre_preSuffix
  obtain ⟨part, build⟩ := version.readBuild_buildSuffix last
  have some : version.text.toList.isEmpty = false := by
    obtain ⟨c, rest, isHead, _⟩ := version.exists_head_numbersText
    rw [toList_text, isHead]
    rfl
  unfold parseStrict
  rw [some, toList_text, numbersText]
  simp only [List.append_assoc, List.cons_append]
  rw [readNumber_toString _ (point _)]
  simp only [readPoint, bind, Except.bind]
  rw [readNumber_toString _ (point _)]
  simp only
  rw [readNumber_toString _ suffix]
  simp only [pre, build]
  rfl

/-- Nothing is left out of a version that is written in full. -/
theorem pad_text : pad version.text.toList = version.text.toList := by
  have noPoint : ∀ number : UInt64, '.' ∉ (toString number).toList := fun number digit => by
    cases isDigit_of_mem_toString (n := number.toNat) digit
  have inCore : ∀ c ∈ version.numbersText, (c != '-' && c != '+') = true := by
    intro c member
    rcases version.mem_numbersText member with isDigit | rfl
    · rw [Bool.and_eq_true, bne_iff_ne, bne_iff_ne]
      constructor <;> rintro rfl <;> cases isDigit
    · rfl
  have ends : ∀ c ∈ (version.preSuffix ++ version.buildSuffix).head?,
      (c != '-' && c != '+') = false := by
    intro c first
    rcases version.head?_suffix first with rfl | rfl <;> rfl
  have core := (takeWhile_dropWhile_append inCore ends).1
  have three : splitWhere (· == '.') version.numbersText = [(toString version.major).toList,
      (toString version.minor).toList, (toString version.patch).toList] := by
    rw [numbersText, splitWhere_append (noPoint _), splitWhere_append (noPoint _),
      splitWhere_of_not_mem (noPoint _)]
  rw [pad, toList_text, core, three]
  rfl

/-- A version is written without blanks. -/
theorem isBlank_of_mem_text {c : Char} (member : c ∈ version.text.toList) : isBlank c = false := by
  have joined : ∀ segments : List (List Char),
      (∀ segment ∈ segments, isBuildSegment segment = true) →
      c ∈ (joinSegments segments).toList → isBlank c = false := by
    intro segments valid inside
    have kind := mem_joinSegments valid c inside
    rw [Bool.or_eq_true, beq_iff_eq] at kind
    rcases kind with isSegment | rfl
    · exact isBlank_of_isSegmentChar isSegment
    · decide
  rw [toList_text, List.mem_append, List.mem_append] at member
  rcases member with inNumbers | inPre | inBuild
  · rcases version.mem_numbersText inNumbers with isDigit | rfl
    · exact isBlank_of_isSegmentChar (isSegmentChar_of_isDigit isDigit)
    · decide
  · unfold preSuffix at inPre
    split at inPre
    · cases inPre
    · rcases List.mem_cons.mp inPre with rfl | inside
      · decide
      · exact joined _ (List.forall_mem_map.mpr fun segment _ =>
          isBuildSegment_of_isPreSegment segment.2) inside
  · unfold buildSuffix at inBuild
    split at inBuild
    · cases inBuild
    · rcases List.mem_cons.mp inBuild with rfl | inside
      · decide
      · exact joined _ (List.forall_mem_map.mpr fun segment _ => segment.2) inside

/-- A version is read back from its text. -/
theorem parse_text : parse version.text.toList = .ok version := by
  rw [parse, trim_eq_self, pad_text, parseStrict_text]
  · exact fun c first => version.isBlank_of_mem_text (List.mem_of_mem_head? first)
  · exact fun c last => version.isBlank_of_mem_text (List.mem_of_mem_getLast? last)

end Parts

end Version

namespace VersionOp

theorem ofSymbol?_symbol (op : VersionOp) : ofSymbol? op.symbol = some op := by
  cases op <;> decide

/-- A sign has no digits and does not start with a blank; a blank after it is trimmed off. -/
theorem symbol_spaced (op : VersionOp) :
    (∀ c ∈ op.symbol.toList ++ [' '], (!c.isDigit) = true) ∧
      (∀ c ∈ op.symbol.toList.head?, Text.isBlank c = false) ∧
      op.symbol.toList ≠ [] ∧ Text.trim (op.symbol.toList ++ [' ']) = op.symbol.toList := by
  cases op <;> exact ⟨by simp [symbol], by simp [symbol, Text.isBlank], by simp [symbol], by cbv⟩

end VersionOp

/-- The requirement of a term is read back from the text that clauses have for it. -/
theorem ExtensionTerm.parse_requirement (term : ExtensionTerm) :
    Requirement.parse term.requirement.toList = .ok { op := term.op, version := term.version } := by
  obtain ⟨noDigit, starts, some, trimmed⟩ := term.op.symbol_spaced
  obtain ⟨c, rest, isHead, isDigit⟩ := term.version.exists_head_numbersText
  have written : term.requirement.toList =
      (term.op.symbol.toList ++ [' ']) ++ term.version.text.toList := by
    simp [requirement]
  have versionHead : term.version.text.toList =
      c :: (rest ++ (term.version.preSuffix ++ term.version.buildSuffix)) := by
    rw [Version.toList_text, isHead, List.cons_append]
  have digit : ∀ first ∈ term.version.text.toList.head?, (!first.isDigit) = false := by
    intro first isFirst
    rw [versionHead] at isFirst
    cases isFirst
    rw [isDigit]
    rfl
  have noBlanks : Text.trim term.requirement.toList = term.requirement.toList := by
    refine Text.trim_eq_self ?_ ?_
    · rw [written, List.append_assoc, List.head?_append_of_ne_nil _ some]
      exact starts
    · have someText : term.version.text.toList ≠ [] := by simp [versionHead]
      rw [written, List.getLast?_append_of_ne_nil _ someText]
      exact fun last isLast => term.version.isBlank_of_mem_text (List.mem_of_mem_getLast? isLast)
  obtain ⟨symbol, version⟩ := Text.takeWhile_dropWhile_append noDigit digit
  have someVersion : term.version.text.toList.isEmpty = false := by rw [versionHead]; rfl
  have someSymbol : term.op.symbol.toList.isEmpty = false := by
    rwa [← Bool.not_eq_true, List.isEmpty_iff]
  unfold Requirement.parse
  rw [noBlanks, written]
  dsimp only
  rw [symbol, version, trimmed, someVersion, someSymbol, String.ofList_toList, Requirement.parseOp,
    VersionOp.ofSymbol?_symbol, Version.parse_text]
  rfl

end IsaLogic
