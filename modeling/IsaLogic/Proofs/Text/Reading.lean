import Mathlib.Data.List.Basic
import IsaLogic.Proofs.Text.Delimited
import IsaLogic.Text.Integer

/-!
# Reading what was written

Lines that were ended by line feeds are the lines of their text (`lines_ended`), words with
blanks between them are its words (`words_append`), and a number that is written in decimal
is read back within any bound that it keeps (`readNat_toString`, `readInt_toString`).
-/

namespace IsaLogic.Text

/-- A list is parted where the first element stands that lacks a property. -/
theorem takeWhile_dropWhile_append {α : Type} {inside : α → Bool} {body rest : List α}
    (each : ∀ a ∈ body, inside a = true) (ends : ∀ a ∈ rest.head?, inside a = false) :
    (body ++ rest).takeWhile inside = body ∧ (body ++ rest).dropWhile inside = rest := by
  rw [List.takeWhile_append_of_pos each, List.dropWhile_append_of_pos each]
  cases rest with
  | nil => simp
  | cons a rest => simp [ends a rfl]

/-- What is left of a text after its start. -/
theorem dropStart?_eq_some_iff {start text rest : List Char} :
    dropStart? start text = some rest ↔ text = start ++ rest := by
  induction start generalizing text with
  | nil => simp [dropStart?]
  | cons first start ih =>
    cases text with
    | nil => simp [dropStart?]
    | cons c text =>
      by_cases same : first = c
      · simp [dropStart?, same, ih]
      · simp [dropStart?, same, Ne.symm same]

section Blanks

/-- A text that neither starts nor ends with a blank is trimmed already. -/
theorem trim_eq_self {text : List Char} (first : ∀ c ∈ text.head?, isBlank c = false)
    (last : ∀ c ∈ text.getLast?, isBlank c = false) : trim text = text := by
  have start : ∀ list : List Char, (∀ c ∈ list.head?, isBlank c = false) →
      list.dropWhile isBlank = list := fun list ends =>
    (@takeWhile_dropWhile_append _ _ [] list nofun ends).2
  rw [trim, trimStart, start text first, trimEnd, start text.reverse, List.reverse_reverse]
  rwa [List.head?_reverse]

/-- The characters that print something in ASCII are not blank. -/
theorem isBlank_of_visible {c : Char} (first : 0x21 ≤ c.toNat) (last : c.toNat ≤ 0x7e) :
    isBlank c = false := by
  simp only [isBlank, Bool.or_eq_false_iff, Bool.and_eq_false_iff, decide_eq_false_iff_not,
    beq_eq_false_iff_ne]
  omega

theorem isBlank_of_isDigit {c : Char} (isDigit : c.isDigit = true) : isBlank c = false := by
  rw [Char.isDigit, Bool.and_eq_true, decide_eq_true_eq, decide_eq_true_eq] at isDigit
  have low : 0x30 ≤ c.toNat := UInt32.le_iff_toNat_le.mp isDigit.1
  have high : c.toNat ≤ 0x39 := UInt32.le_iff_toNat_le.mp isDigit.2
  exact isBlank_of_visible (by omega) (by omega)

theorem isBlank_of_isAlphanum {c : Char} (isAlphanum : c.isAlphanum = true) :
    isBlank c = false := by
  rw [Char.isAlphanum, Bool.or_eq_true] at isAlphanum
  rcases isAlphanum with isAlpha | isDigit
  · have isLetter : (c.isUpper || c.isLower) = true := isAlpha
    rcases Bool.or_eq_true_iff.mp isLetter with upper | lower
    · obtain ⟨first, last⟩ : 'A'.val ≤ c.val ∧ c.val ≤ 'Z'.val := of_decide_eq_true upper
      exact isBlank_of_visible (Nat.le_trans (by decide) (UInt32.le_iff_toNat_le.mp first))
        (Nat.le_trans (UInt32.le_iff_toNat_le.mp last) (by decide))
    · obtain ⟨first, last⟩ := Bool.and_eq_true_iff.mp lower
      exact isBlank_of_visible
        (Nat.le_trans (by decide) (UInt32.le_iff_toNat_le.mp (of_decide_eq_true first)))
        (Nat.le_trans (UInt32.le_iff_toNat_le.mp (of_decide_eq_true last)) (by decide))
  · exact isBlank_of_isDigit isDigit

/-- A text that is read as one word. -/
structure IsWord (word : List Char) : Prop where
  some : word ≠ []
  solid : ∀ c ∈ word, isBlank c = false

variable {word rest : List Char}

theorem words_of_isWord (isWord : IsWord word) : words word = [word] := by
  rw [words, splitWhere_of_uncut isWord.solid]
  simp [isWord.some]

/-- A word ends at a blank. -/
theorem words_append {blank : Char} (isWord : IsWord word) (isBlank : isBlank blank = true) :
    words (word ++ blank :: rest) = word :: words rest := by
  rw [words, splitWhere_append_of_uncut isWord.solid isBlank]
  simp [words, isWord.some]

theorem words_cons_blank {blank : Char} (isBlank : isBlank blank = true) :
    words (blank :: rest) = words rest := by
  rw [words, splitWhere, if_pos isBlank]
  rfl

/-- Words with spaces between them. -/
def spaced (list : List (List Char)) (last : List Char) : List Char :=
  list.flatMap (· ++ [' ']) ++ last

variable {list : List (List Char)} {last : List Char}

theorem spaced_cons (word : List Char) (list : List (List Char)) (last : List Char) :
    spaced (word :: list) last = word ++ ' ' :: spaced list last := by
  simp [spaced]

theorem words_spaced (areWords : ∀ word ∈ list, IsWord word) (isLast : IsWord last) :
    words (spaced list last) = list ++ [last] := by
  induction list with
  | nil => exact words_of_isWord isLast
  | cons word list ih =>
    rw [spaced_cons, words_append (areWords word (List.mem_cons_self ..)) rfl,
      ih fun other member => areWords other (List.mem_cons_of_mem word member), List.cons_append]

/-- Between words there are no other blanks than spaces. -/
theorem eq_space_of_mem_spaced (areWords : ∀ word ∈ list, IsWord word) (isLast : IsWord last) :
    ∀ c ∈ spaced list last, c = ' ' ∨ isBlank c = false := by
  intro c member
  rcases List.mem_append.mp member with inList | inLast
  · obtain ⟨word, isListed, inside⟩ := List.mem_flatMap.mp inList
    rcases List.mem_append.mp inside with inWord | isSpace
    · exact .inr ((areWords word isListed).solid c inWord)
    · exact .inl (List.mem_singleton.mp isSpace)
  · exact .inr (isLast.solid c inLast)

theorem trim_spaced (areWords : ∀ word ∈ list, IsWord word) (isLast : IsWord last) :
    trim (spaced list last) = spaced list last := by
  refine trim_eq_self (fun c first => ?_) fun c final => ?_
  · cases list with
    | nil => exact isLast.solid c (List.mem_of_mem_head? first)
    | cons word list =>
      have isWord := areWords word (List.mem_cons_self ..)
      rw [spaced_cons, List.head?_append_of_ne_nil word isWord.some] at first
      exact isWord.solid c (List.mem_of_mem_head? first)
  · rw [spaced, List.getLast?_append_of_ne_nil _ isLast.some] at final
    exact isLast.solid c (List.mem_of_mem_getLast? final)

/-- Words joined by spaces are words with spaces between them. -/
theorem exists_spaced {list : List (List Char)} (some : list ≠ []) :
    ∃ init last, list = init ++ [last] ∧ [' '].intercalate list = spaced init last := by
  have joined : ∀ (init : List (List Char)) (last : List Char),
      [' '].intercalate (init ++ [last]) = spaced init last := by
    intro init last
    cases init with
    | nil => simp [spaced, List.intercalate]
    | cons first init =>
      rw [List.cons_append, intercalate_cons]
      induction init generalizing first with
      | nil => simp [spaced]
      | cons second init ih =>
        rw [List.cons_append, List.flatMap_cons, List.append_assoc, ih second, spaced_cons first]
        rfl
  refine ⟨list.dropLast, list.getLast some, (List.dropLast_append_getLast some).symm, ?_⟩
  rw [← joined, List.dropLast_append_getLast]

end Blanks

section Lines

/-- A text that is read as one line when a line feed ends it. -/
structure IsLine (line : List Char) : Prop where
  unbroken : '\n' ∉ line
  noReturn : line.getLast? ≠ some '\r'

theorem isLine_spaced {list : List (List Char)} {last : List Char}
    (areWords : ∀ word ∈ list, IsWord word) (isLast : IsWord last) : IsLine (spaced list last) where
  unbroken member := by
    rcases eq_space_of_mem_spaced areWords isLast _ member with isSpace | solid
    · cases isSpace
    · cases solid
  noReturn final := by
    have member := List.mem_of_mem_getLast? final
    rcases eq_space_of_mem_spaced areWords isLast _ member with isSpace | solid
    · cases isSpace
    · cases solid

theorem dropReturn_of_isLine {line : List Char} (isLine : IsLine line) :
    dropReturn line = line := by
  unfold dropReturn
  split
  · exact absurd ‹_› isLine.noReturn
  · rfl

theorem endLines_cons {line : List Char} {rest : List (List Char)} (more : rest ≠ []) :
    endLines (line :: rest) = dropReturn line :: endLines rest := by
  cases rest with
  | nil => exact absurd rfl more
  | cons next rest => rfl

/-- Lines that were ended by line feeds are the lines of their text. -/
theorem lines_ended {list : List (List Char)} (areLines : ∀ line ∈ list, IsLine line) :
    lines (list.flatMap (· ++ ['\n'])) = list := by
  have split : ∀ list : List (List Char), (∀ line ∈ list, IsLine line) →
      splitWhere (· == '\n') (list.flatMap (· ++ ['\n'])) = list ++ [[]] := by
    intro list areLines
    induction list with
    | nil => rfl
    | cons line list ih =>
      rw [List.flatMap_cons, List.append_assoc, List.singleton_append,
        splitWhere_append (areLines line (List.mem_cons_self ..)).unbroken,
        ih fun other member => areLines other (List.mem_cons_of_mem line member), List.cons_append]
  rw [lines, split list areLines]
  induction list with
  | nil => rfl
  | cons line list ih =>
    rw [List.cons_append, endLines_cons (by simp),
      dropReturn_of_isLine (areLines line (List.mem_cons_self ..)),
      ih fun other member => areLines other (List.mem_cons_of_mem line member)]

section Joined

variable {list : List (List Char)}

theorem words_joined (some : list ≠ []) (areWords : ∀ word ∈ list, IsWord word) :
    words ([' '].intercalate list) = list := by
  obtain ⟨init, last, rfl, joined⟩ := exists_spaced some
  obtain ⟨areInit, isLast⟩ := List.forall_mem_append.mp areWords
  rw [joined, words_spaced areInit (List.forall_mem_singleton.mp isLast)]

theorem trim_joined (some : list ≠ []) (areWords : ∀ word ∈ list, IsWord word) :
    trim ([' '].intercalate list) = [' '].intercalate list := by
  obtain ⟨init, last, rfl, joined⟩ := exists_spaced some
  obtain ⟨areInit, isLast⟩ := List.forall_mem_append.mp areWords
  rw [joined, trim_spaced areInit (List.forall_mem_singleton.mp isLast)]

theorem isLine_joined (some : list ≠ []) (areWords : ∀ word ∈ list, IsWord word) :
    IsLine ([' '].intercalate list) := by
  obtain ⟨init, last, rfl, joined⟩ := exists_spaced some
  obtain ⟨areInit, isLast⟩ := List.forall_mem_append.mp areWords
  rw [joined]
  exact isLine_spaced areInit (List.forall_mem_singleton.mp isLast)

end Joined

end Lines

section Digits

theorem digitValue?_digitChar : ∀ digit < 10, digitValue? digit.digitChar = some digit := by
  decide

theorem digitValue?_eq_none {c : Char} (other : c.isDigit = false) : digitValue? c = none := by
  rw [digitValue?, if_neg]
  rintro ⟨low, high⟩
  have isDigit : c.isDigit = true := by
    rw [Char.isDigit, Bool.and_eq_true]
    exact ⟨decide_eq_true low, decide_eq_true high⟩
  exact Bool.false_ne_true (other.symm.trans isDigit)

theorem toList_toString_nat (n : Nat) : (toString n).toList = Nat.toDigits 10 n := Nat.toList_repr

/-- A number is written with at least one digit, and with nothing but digits. -/
theorem exists_head_toString (n : Nat) :
    ∃ c rest, (toString n).toList = c :: rest ∧ c.isDigit = true := by
  have some : (toString n).toList ≠ [] := by
    rw [toList_toString_nat]
    exact List.ne_nil_of_length_pos Nat.length_toDigits_pos
  obtain ⟨c, rest, written⟩ := List.exists_cons_of_ne_nil some
  exact ⟨c, rest, written, isDigit_of_mem_toString (written ▸ List.mem_cons_self ..)⟩

theorem isWord_toString_nat (n : Nat) : IsWord (toString n).toList where
  some := by
    obtain ⟨c, rest, written, _⟩ := exists_head_toString n
    rw [written]
    exact List.cons_ne_nil c rest
  solid _ member := isBlank_of_isDigit (isDigit_of_mem_toString member)

/-- A negative number is written as its opposite after a sign. -/
theorem toList_toString_negSucc (n : Nat) :
    (toString (Int.negSucc n)).toList = '-' :: (toString (n + 1)).toList := by
  change (Int.repr (Int.negSucc n)).toList = _
  rw [Int.repr, String.toList_append]
  rfl

theorem isWord_toString_int (z : Int) : IsWord (toString z).toList := by
  cases z with
  | ofNat n => exact isWord_toString_nat n
  | negSucc n =>
    rw [toList_toString_negSucc]
    refine ⟨List.cons_ne_nil _ _, fun c member => ?_⟩
    rcases List.mem_cons.mp member with rfl | isDigit
    · decide
    · exact (isWord_toString_nat (n + 1)).solid c isDigit

/-- An integer is written with a sign or a digit first. -/
theorem exists_head_toString_int (z : Int) :
    ∃ c rest, (toString z).toList = c :: rest ∧ (c = '-' ∨ c.isDigit = true) := by
  cases z with
  | ofNat n =>
    obtain ⟨c, rest, written, isDigit⟩ := exists_head_toString n
    exact ⟨c, rest, written, .inr isDigit⟩
  | negSucc n => exact ⟨'-', _, toList_toString_negSucc n, .inl rfl⟩

variable {bound n : Nat}

/-- Digits are read one by one, and the number stays within a bound that it keeps at the end. -/
theorem readDigits_toDigits (small : n ≤ bound) (overflow : IntegerError) (rest : List Char) :
    readDigits bound overflow 0 (Nat.toDigits 10 n ++ rest) = readDigits bound overflow n rest := by
  induction n using Nat.strongRecOn generalizing rest with
  | ind n ih =>
    rw [Nat.toDigits_eq_if (by decide)]
    split
    · rename_i isDigit
      rw [List.singleton_append, readDigits, digitValue?_digitChar n isDigit]
      dsimp only
      rw [Nat.zero_mul, Nat.zero_add, if_neg (by omega)]
    · have digit := digitValue?_digitChar (n % 10) (Nat.mod_lt n (by decide))
      have whole : n / 10 * 10 + n % 10 = n := Nat.div_add_mod' n 10
      rw [List.append_assoc, ih (n / 10) (by omega) (by omega), List.singleton_append, readDigits,
        digit]
      dsimp only
      rw [whole, if_neg (by omega)]

theorem readDigits_toString (small : n ≤ bound) (overflow : IntegerError) :
    readDigits bound overflow 0 (toString n).toList = .ok n := by
  have digits := readDigits_toDigits small overflow []
  rwa [List.append_nil, ← toList_toString_nat] at digits

/-- What starts with a digit has no sign. -/
theorem readNat_of_isDigit {c : Char} {rest : List Char} (isDigit : c.isDigit = true) :
    readNat bound (c :: rest) = readDigits bound .tooLarge 0 (c :: rest) := by
  have unsigned : c ≠ '+' := by
    rintro rfl
    cases isDigit
  unfold readNat
  split
  · contradiction
  · exact absurd (List.cons.inj ‹_›).1 unsigned
  · exact absurd (List.cons.inj ‹_›).1 unsigned
  · rfl

theorem readInt_of_isDigit {c : Char} {rest : List Char} (isDigit : c.isDigit = true) :
    readInt bound (c :: rest) =
      (readDigits bound .tooLarge 0 (c :: rest)).map fun n => (n : Int) := by
  have unsigned : c ≠ '+' ∧ c ≠ '-' := by
    constructor <;> rintro rfl <;> cases isDigit
  unfold readInt
  split
  · contradiction
  · exact absurd (List.cons.inj ‹_›).1 unsigned.1
  · exact absurd (List.cons.inj ‹_›).1 unsigned.2
  · exact absurd (List.cons.inj ‹_›).1 unsigned.1
  · exact absurd (List.cons.inj ‹_›).1 unsigned.2
  · rfl

/-- A count is read back from its text. -/
theorem readNat_toString (small : n ≤ bound) : readNat bound (toString n).toList = .ok n := by
  have digits := readDigits_toString small .tooLarge
  obtain ⟨c, rest, written, isDigit⟩ := exists_head_toString n
  rw [written] at digits ⊢
  rw [readNat_of_isDigit isDigit, digits]

/-- An integer is read back from its text. -/
theorem readInt_toString {z : Int} (above : -(bound + 1 : Int) ≤ z) (below : z ≤ bound) :
    readInt bound (toString z).toList = .ok z := by
  cases z with
  | ofNat n =>
    have digits := readDigits_toString (Int.ofNat_le.mp below) .tooLarge
    obtain ⟨c, rest, written, isDigit⟩ := exists_head_toString n
    change readInt bound (toString n).toList = _
    rw [written] at digits ⊢
    rw [readInt_of_isDigit isDigit, digits]
    rfl
  | negSucc n =>
    have small : n + 1 ≤ bound + 1 := by omega
    have digits := readDigits_toString small .tooSmall
    obtain ⟨c, rest, written, _⟩ := exists_head_toString (n + 1)
    rw [toList_toString_negSucc]
    rw [written] at digits ⊢
    change (readDigits (bound + 1) .tooSmall 0 (c :: rest)).map (fun n => -(n : Int)) = _
    rw [digits]
    rfl

end Digits

end IsaLogic.Text
