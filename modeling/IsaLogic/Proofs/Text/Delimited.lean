import IsaLogic.Text.Blank
import IsaLogic.Text.Quoted

/-!
# Texts that end where they say

A way of writing is self-delimiting (`SelfDelimiting`) if, whatever follows, a text
determines what was written and where it ends. Texts with a closing sign of their own are
so, in particular quoted strings (`selfDelimiting_quoteString`). A text without one is cut
off by the first character that cannot belong to it (`append_inj_of_span`).

Nothing here reads a text; these are statements about writing only.
-/

namespace IsaLogic.Text

/-- Two texts whose characters are of one kind, each followed by a character of another kind or
by nothing, are equal if they are so together with what follows. -/
theorem append_inj_of_span {α : Type} (inside : α → Prop) {left right rest other : List α}
    (leftInside : ∀ c ∈ left, inside c) (rightInside : ∀ c ∈ right, inside c)
    (restOutside : ∀ c ∈ rest.head?, ¬ inside c) (otherOutside : ∀ c ∈ other.head?, ¬ inside c)
    (same : left ++ rest = right ++ other) : left = right ∧ rest = other := by
  induction left generalizing right with
  | nil =>
    cases right with
    | nil => exact ⟨rfl, same⟩
    | cons c right =>
      have first : c ∈ rest.head? := by rw [← List.nil_append rest, same]; rfl
      exact absurd (rightInside c (List.mem_cons_self ..)) (restOutside c first)
  | cons c left ih =>
    cases right with
    | nil =>
      have first : c ∈ other.head? := by rw [← List.nil_append other, ← same]; rfl
      exact absurd (leftInside c (List.mem_cons_self ..)) (otherOutside c first)
    | cons d right =>
      obtain ⟨rfl, later⟩ := List.cons.inj same
      obtain ⟨rfl, rests⟩ := ih (fun c member => leftInside c (List.mem_cons_of_mem _ member))
        (fun c member => rightInside c (List.mem_cons_of_mem _ member)) later
      exact ⟨rfl, rests⟩

/-- Two texts without a sign, each followed by the sign, are cut off there. -/
theorem append_inj_of_sign {α : Type} {sign : α} {left right rest other : List α}
    (notLeft : sign ∉ left) (notRight : sign ∉ right)
    (same : left ++ sign :: rest = right ++ sign :: other) : left = right ∧ rest = other := by
  obtain ⟨parts, rests⟩ := append_inj_of_span (· ≠ sign)
    (fun _ member is => notLeft (is ▸ member)) (fun _ member is => notRight (is ▸ member))
    (by simp) (by simp) same
  exact ⟨parts, List.cons.inj rests |>.2⟩

section Delimiting

variable {α : Type} {write : α → List Char}

/-- Whatever follows, the text of a value is the text of no other value and ends in one place. -/
def Delimits (write : α → List Char) (a : α) : Prop :=
  ∀ ⦃b : α⦄ ⦃rest other : List Char⦄, write a ++ rest = write b ++ other → a = b ∧ rest = other

/-- A way of writing whose texts determine, whatever follows them, what was written and where it
ends. -/
def SelfDelimiting (write : α → List Char) : Prop := ∀ a : α, Delimits write a

theorem SelfDelimiting.injective (delimiting : SelfDelimiting write) :
    Function.Injective write := by
  intro a b same
  have followed : write a ++ [] = write b ++ [] := by rw [same]
  exact (delimiting a followed).1

/-- What is delimited by itself is delimited by a sign. -/
theorem Delimits.sign {a : α} (delimits : Delimits write a) (sign : Char) :
    Delimits (fun a => write a ++ [sign]) a := by
  intro b rest other same
  simp only [List.append_assoc, List.singleton_append] at same
  obtain ⟨values, rests⟩ := delimits same
  exact ⟨values, (List.cons.inj rests).2⟩

/-- Texts that may be followed by one sign only, and do not contain it. -/
theorem selfDelimiting_of_sign {sign : Char} (injective : Function.Injective write)
    (free : ∀ a, sign ∉ write a) : SelfDelimiting fun a => write a ++ [sign] := by
  intro a b rest other same
  simp only [List.append_assoc, List.singleton_append] at same
  obtain ⟨texts, rests⟩ := append_inj_of_sign (free a) (free b) same
  exact ⟨injective texts, rests⟩

theorem intercalate_cons (separator first : List α) (others : List (List α)) :
    separator.intercalate (first :: others) = first ++ others.flatMap (separator ++ ·) := by
  induction others generalizing first with
  | nil => simp [List.intercalate]
  | cons second others ih =>
    have unfolded : separator.intercalate (first :: second :: others) =
        first ++ separator ++ separator.intercalate (second :: others) := by
      simp [List.intercalate]
    rw [unfolded, ih, List.flatMap_cons, List.append_assoc, List.append_assoc]

/-- A list between brackets is delimited if its items are and none looks like the end. -/
theorem delimits_list {items : List α} (each : ∀ a ∈ items, Delimits write a)
    (starts : ∀ a rest, (write a ++ rest).head? ≠ some ']') :
    Delimits (fun items => [',', ' '].intercalate (items.map write) ++ [']']) items := by
  have further : ∀ (others : List α) (rest other : List Char), ∀ items : List α,
      (∀ a ∈ items, Delimits write a) →
      (items.map write).flatMap ([',', ' '] ++ ·) ++ ']' :: rest =
        (others.map write).flatMap ([',', ' '] ++ ·) ++ ']' :: other →
      items = others ∧ rest = other := by
    intro others rest other items
    induction items generalizing others with
    | nil =>
      intro _ same
      cases others with
      | nil => simpa using same
      | cons b others => simp at same
    | cons a items ih =>
      intro each same
      cases others with
      | nil => simp at same
      | cons b others =>
        simp only [List.map_cons, List.flatMap_cons, List.cons_append, List.nil_append,
          List.append_assoc, List.cons.injEq, true_and] at same
        obtain ⟨rfl, later⟩ := each a (List.mem_cons_self ..) same
        obtain ⟨rfl, rests⟩ := ih others
          (fun a member => each a (List.mem_cons_of_mem _ member)) later
        exact ⟨rfl, rests⟩
  intro others rest other same
  cases items with
  | nil =>
    cases others with
    | nil => simpa using same
    | cons b others =>
      simp only [List.map_cons, intercalate_cons, List.append_assoc] at same
      exact absurd (congrArg List.head? same).symm (starts b _)
  | cons a items =>
    cases others with
    | nil =>
      simp only [List.map_cons, intercalate_cons, List.append_assoc] at same
      exact absurd (congrArg List.head? same) (starts a _)
    | cons b others =>
      simp only [List.map_cons, intercalate_cons, List.append_assoc, List.singleton_append] at same
      obtain ⟨rfl, later⟩ := each a (List.mem_cons_self ..) same
      obtain ⟨rfl, rests⟩ := further others rest other items
        (fun a member => each a (List.mem_cons_of_mem _ member)) later
      exact ⟨rfl, rests⟩

end Delimiting

section Splitting

/-- Nothing is cut where no element is to be cut at. -/
theorem splitWhere_of_uncut {α : Type} {cut : α → Bool} {part : List α}
    (uncut : ∀ a ∈ part, cut a = false) : splitWhere cut part = [part] := by
  induction part with
  | nil => rfl
  | cons a part ih =>
    have kept : ¬ cut a = true := by simp [uncut a (List.mem_cons_self ..)]
    rw [splitWhere, if_neg kept, ih fun b member => uncut b (List.mem_cons_of_mem a member)]

/-- The first part ends at the first element that is cut at. -/
theorem splitWhere_append_of_uncut {α : Type} {cut : α → Bool} {part rest : List α} {sign : α}
    (uncut : ∀ a ∈ part, cut a = false) (isCut : cut sign = true) :
    splitWhere cut (part ++ sign :: rest) = part :: splitWhere cut rest := by
  induction part with
  | nil => rw [List.nil_append, splitWhere, if_pos isCut]
  | cons a part ih =>
    have kept : ¬ cut a = true := by simp [uncut a (List.mem_cons_self ..)]
    rw [List.cons_append, splitWhere, if_neg kept,
      ih fun b member => uncut b (List.mem_cons_of_mem a member)]

/-- The parts have no elements but those that are cut. -/
theorem mem_of_mem_splitWhere {α : Type} {cut : α → Bool} {text part : List α} {a : α}
    (isPart : part ∈ splitWhere cut text) (member : a ∈ part) : a ∈ text := by
  induction text generalizing part with
  | nil =>
    rw [splitWhere, List.mem_singleton] at isPart
    rwa [← isPart]
  | cons b rest ih =>
    rw [splitWhere] at isPart
    split at isPart
    · rcases List.mem_cons.mp isPart with rfl | later
      · cases member
      · exact List.mem_cons_of_mem b (ih later member)
    · split at isPart
      · rw [List.mem_singleton] at isPart
        exact List.mem_cons.mpr (.inl (List.mem_singleton.mp (isPart ▸ member)))
      · rename_i first others parts
        rw [parts] at ih
        rcases List.mem_cons.mp isPart with rfl | later
        · rcases List.mem_cons.mp member with rfl | inFirst
          · exact List.mem_cons_self ..
          · exact List.mem_cons_of_mem b (ih (List.mem_cons_self ..) inFirst)
        · exact List.mem_cons_of_mem b (ih (List.mem_cons_of_mem first later) member)

variable {sign : Char} {part rest : List Char}

theorem uncut_of_not_mem (free : sign ∉ part) : ∀ c ∈ part, (c == sign) = false := by
  intro c member
  refine beq_eq_false_iff_ne.mpr ?_
  rintro rfl
  exact free member

theorem splitWhere_of_not_mem (free : sign ∉ part) : splitWhere (· == sign) part = [part] :=
  splitWhere_of_uncut (uncut_of_not_mem free)

theorem splitWhere_append (free : sign ∉ part) :
    splitWhere (· == sign) (part ++ sign :: rest) = part :: splitWhere (· == sign) rest :=
  splitWhere_append_of_uncut (uncut_of_not_mem free) (beq_self_eq_true sign)

/-- Cutting takes apart what a sign holds together. -/
theorem splitWhere_intercalate {parts : List (List Char)} (nonempty : parts ≠ [])
    (free : ∀ part ∈ parts, sign ∉ part) :
    splitWhere (· == sign) ([sign].intercalate parts) = parts := by
  induction parts with
  | nil => exact absurd rfl nonempty
  | cons part parts ih =>
    have freePart := free part (List.mem_cons_self ..)
    cases parts with
    | nil => simpa [List.intercalate] using splitWhere_of_not_mem freePart
    | cons next parts =>
      have later := ih (List.cons_ne_nil _ _) fun other member =>
        free other (List.mem_cons_of_mem _ member)
      rw [intercalate_cons, List.flatMap_cons, List.append_assoc, List.singleton_append,
        ← intercalate_cons, splitWhere_append freePart, later]

end Splitting

section Numbers

/-- The digits of a number determine it, in any base that has a character for each digit. -/
theorem toDigits_injective {base : Nat} (large : 1 < base) (small : base ≤ 16) :
    Function.Injective (Nat.toDigits base) := by
  have digit : ∀ {m n : Nat}, m < base → n < base → m.digitChar = n.digitChar → m = n := by
    have each : ∀ m < 16, ∀ n < 16, m.digitChar = n.digitChar → m = n := by decide
    intro m n isDigitM isDigitN same
    exact each m (by omega) n (by omega) same
  intro m
  induction m using Nat.strongRecOn with
  | ind m ih =>
    intro n same
    have positive : ∀ k, 0 < (Nat.toDigits base k).length := fun _ => Nat.length_toDigits_pos
    have mDigits := positive (m / base)
    have nDigits := positive (n / base)
    rw [Nat.toDigits_eq_if (n := m) large, Nat.toDigits_eq_if (n := n) large] at same
    split at same <;> split at same
    · exact digit ‹_› ‹_› (List.singleton_inj.mp same)
    · have lengths := congrArg List.length same
      simp only [List.length_append, List.length_cons, List.length_nil] at lengths
      omega
    · have lengths := congrArg List.length same
      simp only [List.length_append, List.length_cons, List.length_nil] at lengths
      omega
    · obtain ⟨leading, last⟩ := List.append_inj' same rfl
      have quotients : m / base = n / base := by
        refine ih (m / base) (Nat.div_lt_self ?_ large) leading
        omega
      have remainders : m % base = n % base :=
        digit (Nat.mod_lt _ (by omega)) (Nat.mod_lt _ (by omega)) (List.singleton_inj.mp last)
      rw [← Nat.div_add_mod m base, ← Nat.div_add_mod n base, quotients, remainders]

theorem exists_digit_of_mem_toDigits {base n : Nat} {c : Char} (large : 1 < base)
    (member : c ∈ Nat.toDigits base n) : ∃ digit < base, c = digit.digitChar := by
  induction n using Nat.strongRecOn with
  | ind n ih =>
    rw [Nat.toDigits_eq_if large] at member
    split at member
    · exact ⟨n, ‹_›, List.mem_singleton.mp member⟩
    · rcases List.mem_append.mp member with leading | last
      · exact ih (n / base) (Nat.div_lt_self (by omega) large) leading
      · exact ⟨n % base, Nat.mod_lt n (by omega), List.mem_singleton.mp last⟩

theorem isDigit_of_mem_toString {n : Nat} {c : Char} (member : c ∈ (toString n).toList) :
    c.isDigit = true := by
  change c ∈ n.repr.toList at member
  rw [Nat.toList_repr] at member
  exact Nat.isDigit_of_mem_toDigits (by decide) (by decide) member

end Numbers

section Quotation

/-- The characters that are escaped by one letter each, and the letters. -/
def shortEscapes (quote : Char) : List (Char × Char) :=
  [(quote, quote), ('\\', '\\'), ('\n', 'n'), ('\r', 'r'), ('\t', 't'), ('\x00', '0')]

/-- The ways in which a character is written inside quotes. -/
inductive Escaped (quote c : Char) : List Char → Prop where
  | plain (notQuote : c ≠ quote) (notEscape : c ≠ '\\') : Escaped quote c [c]
  | short {letter : Char} (named : (c, letter) ∈ shortEscapes quote) :
    Escaped quote c ['\\', letter]
  | byNumber : Escaped quote c (['\\', 'u', '\x7b'] ++ hexDigits c.toNat ++ ['\x7d'])

theorem escaped_escapeChar (quote c : Char) : Escaped quote c (escapeChar quote c) := by
  unfold escapeChar
  split
  · rename_i isQuote
    exact .short (by simp [shortEscapes, isQuote])
  split
  · exact .short (by simp [shortEscapes, *])
  split
  · exact .short (by simp [shortEscapes, *])
  split
  · exact .short (by simp [shortEscapes, *])
  split
  · exact .short (by simp [shortEscapes, *])
  split
  · rename_i isZero
    have isNull : c = '\x00' := Char.toNat_inj.mp isZero
    exact .short (by simp [shortEscapes, isNull])
  split
  · exact .plain ‹_› ‹_›
  split
  · exact .byNumber
  · exact .plain ‹_› ‹_›

theorem hexDigits_append_inj {m n : Nat} {rest other : List Char}
    (same : hexDigits m ++ '\x7d' :: rest = hexDigits n ++ '\x7d' :: other) :
    m = n ∧ rest = other := by
  have noBrace : ∀ k, '\x7d' ∉ hexDigits k := by
    intro k member
    obtain ⟨digit, isDigit, isBrace⟩ := exists_digit_of_mem_toDigits (by decide) member
    exact absurd isBrace ((by decide : ∀ digit < 16, '\x7d' ≠ digit.digitChar) digit isDigit)
  obtain ⟨digits, rests⟩ := append_inj_of_sign (noBrace m) (noBrace n) same
  exact ⟨toDigits_injective (by decide) (by decide) digits, rests⟩

/-- Between double quotes, each character is self-delimiting. -/
theorem selfDelimiting_escapeChar : SelfDelimiting (escapeChar '"') := by
  intro c d rest other same
  have letters : ∀ entry ∈ shortEscapes '"', entry.2 ≠ 'u' ∧
      ∀ entry' ∈ shortEscapes '"', entry.2 = entry'.2 → entry.1 = entry'.1 := by decide
  have escapedC := escaped_escapeChar '"' c
  have escapedD := escaped_escapeChar '"' d
  generalize escapeChar '"' c = left at escapedC same
  generalize escapeChar '"' d = right at escapedD same
  cases escapedC with
  | plain notQuote notEscape =>
    cases escapedD with
    | plain _ _ => simpa using same
    | short _ => exact absurd (List.cons.inj same).1 notEscape
    | byNumber => exact absurd (List.cons.inj same).1 notEscape
  | @short letter named =>
    cases escapedD with
    | plain _ notEscape => exact absurd (List.cons.inj same).1.symm notEscape
    | @short letter' named' =>
      simp only [List.cons_append, List.nil_append, List.cons.injEq, true_and] at same
      exact ⟨(letters _ named).2 _ named' same.1, same.2⟩
    | byNumber =>
      simp only [List.cons_append, List.nil_append, List.cons.injEq, true_and] at same
      exact absurd same.1 (letters _ named).1
  | byNumber =>
    cases escapedD with
    | plain _ notEscape => exact absurd (List.cons.inj same).1.symm notEscape
    | short named =>
      simp only [List.cons_append, List.nil_append, List.cons.injEq, true_and] at same
      exact absurd same.1.symm (letters _ named).1
    | byNumber =>
      simp only [List.cons_append, List.nil_append, List.append_assoc, List.cons.injEq,
        true_and] at same
      obtain ⟨numbers, rests⟩ := hexDigits_append_inj same
      exact ⟨Char.toNat_inj.mp numbers, rests⟩

/-- No character is written in such a way that the quotation seems to end. -/
theorem head?_escapeChar_ne (c : Char) (rest : List Char) :
    (escapeChar '"' c ++ rest).head? ≠ some '"' := by
  have escaped := escaped_escapeChar '"' c
  generalize escapeChar '"' c = written at escaped ⊢
  cases escaped with
  | plain notQuote _ => simpa using notQuote
  | short _ => simp
  | byNumber => simp

/-- Quoted strings are self-delimiting. -/
theorem selfDelimiting_quoteString : SelfDelimiting fun s : String => (quoteString s).toList := by
  have inner : ∀ (cs ds rest other : List Char),
      cs.flatMap (escapeChar '"') ++ '"' :: rest = ds.flatMap (escapeChar '"') ++ '"' :: other →
      cs = ds ∧ rest = other := by
    intro cs
    induction cs with
    | nil =>
      intro ds rest other same
      cases ds with
      | nil => exact ⟨rfl, (List.cons.inj same).2⟩
      | cons d ds =>
        rw [List.flatMap_cons, List.append_assoc] at same
        exact absurd (congrArg List.head? same).symm (head?_escapeChar_ne d _)
    | cons c cs ih =>
      intro ds rest other same
      cases ds with
      | nil =>
        rw [List.flatMap_cons, List.append_assoc] at same
        exact absurd (congrArg List.head? same) (head?_escapeChar_ne c _)
      | cons d ds =>
        rw [List.flatMap_cons, List.flatMap_cons, List.append_assoc, List.append_assoc] at same
        obtain ⟨rfl, later⟩ := selfDelimiting_escapeChar c same
        obtain ⟨rfl, rests⟩ := ih ds rest other later
        exact ⟨rfl, rests⟩
  intro s t rest other same
  simp only [quoteString, String.toList_ofList, List.cons_append, List.append_assoc,
    List.nil_append, List.cons.injEq, true_and] at same
  obtain ⟨characters, rests⟩ := inner _ _ _ _ same
  exact ⟨String.toList_inj.mp characters, rests⟩

end Quotation

end IsaLogic.Text
