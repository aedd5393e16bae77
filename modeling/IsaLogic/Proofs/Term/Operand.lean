import Mathlib
import IsaLogic.Proofs.Term.Sanitized

/-!
# Operands in identifiers

Truth values and numbers are bare words in an identifier, a negative number with a low line for its
sign. Quotes become low lines, and so do the brackets of an array and what is between its elements.
So a text tells by its end whether the value is bare (`getLast?_sanitized`), but
strings and arrays may look the same.

An array is read off element by element (`further_injective`). A low line in front of an element is
a sign or a quote; which of them it is shows behind the element, as long as strings have no low
lines but single ones inside, and no bare value comes after a string (`bare_append_ne`).
-/

namespace IsaLogic

open Text

namespace ParamValue

/-- Whether a value is written without quotes and brackets. -/
def isBare : ParamValue → Bool
  | bool _ | int _ => true
  | str _ | array _ => false

/-- Whether low lines stand singly, and none of them at the end. -/
def isSparse : List Char → Bool
  | [] => true
  | c :: rest => (c != '_' || rest.head?.any (· != '_')) && isSparse rest

/-- Whether identifiers tell an element of a list from its neighbours. -/
def isItem : ParamValue → Bool
  | str s => isPlain s && s.toList.head? != some '_' && isSparse s.toList
  | array _ => false
  | _ => true

/-- Whether values without quotes and brackets come before all others. -/
def bareFirst (items : List ParamValue) : Bool :=
  (items.dropWhile isBare).all fun item => !item.isBare

/-- Whether identifiers tell an array from others of its kind. -/
def isLegible (items : List ParamValue) : Bool := items.all isItem && bareFirst items

/-- Whether identifiers tell two values apart if they are different. Nothing else looks like a value
without quotes and brackets. -/
def distinguishable : ParamValue → ParamValue → Bool
  | str s, str t => s == t || sanitized s != sanitized t
  | array items, array others => items == others || isLegible items && isLegible others
  | str _, array _ | array _, str _ => false
  | _, _ => true

theorem sanitized_str {s : String} (plain : isPlain s = true) :
    sanitized (str s).text = '_' :: (s.toList ++ ['_']) := by
  have quote : sanitized "'" = ['_'] := rfl
  simp [text, quote, sanitized_of_isPlain plain]

theorem sanitized_bool (value : Bool) : sanitized (bool value).text = (toString value).toList := by
  cases value <;> decide

theorem sanitized_ofNat (n : Nat) : sanitized (toString (Int.ofNat n)) = (toString n).toList :=
  sanitized_toString n

theorem sanitized_negSucc (n : Nat) :
    sanitized (toString (Int.negSucc n)) = '_' :: (toString (n + 1)).toList := by
  rw [sanitized, toList_toString_negSucc, List.map_cons]
  exact congrArg ('_' :: ·) (sanitized_toString (n + 1))

theorem sanitized_int (value : Int64) :
    sanitized (int value).text = sanitized (toString value.toInt) := by
  rw [text]
  rfl

/-- What is written without quotes and brackets is a word, with a sign or without. -/
theorem exists_word {v : ParamValue} (bare : v.isBare = true) :
    ∃ word, word ≠ [] ∧ (∀ c ∈ word, c.isAlphanum = true) ∧
      (sanitized v.text = word ∨ sanitized v.text = '_' :: word) := by
  have nonempty : ∀ n : Nat, (toString n).toList ≠ [] := fun n => by
    obtain ⟨c, rest, isCons, -⟩ := exists_head_toString n
    exact isCons ▸ List.cons_ne_nil c rest
  cases v with
  | bool value =>
    refine ⟨_, ?_, List.all_eq_true.mp ?_, .inl (sanitized_bool value)⟩ <;>
      cases value <;> decide
  | int value =>
    rw [sanitized_int]
    cases value.toInt with
    | ofNat n =>
      rw [sanitized_ofNat]
      exact ⟨_, nonempty n, isAlphanum_of_mem_toString, .inl rfl⟩
    | negSucc n =>
      rw [sanitized_negSucc]
      exact ⟨_, nonempty (n + 1), isAlphanum_of_mem_toString, .inr rfl⟩
  | str => cases bare
  | array => cases bare

theorem eq_of_sanitized_toString {m n : Int}
    (same : sanitized (toString m) = sanitized (toString n)) : m = n := by
  have digits : ∀ {m n : Nat}, (toString m).toList = (toString n).toList → m = n := fun same =>
    Nat.repr_injective (String.toList_inj.mp same)
  have unsigned : ∀ n : Nat, '_' ∉ (toString n).toList := fun n =>
    low_notMem_of_isAlphanum isAlphanum_of_mem_toString
  cases m with
  | ofNat m =>
    cases n with
    | ofNat n =>
      rw [sanitized_ofNat, sanitized_ofNat] at same
      rw [digits same]
    | negSucc n =>
      rw [sanitized_ofNat, sanitized_negSucc] at same
      exact absurd (same ▸ List.mem_cons_self ..) (unsigned m)
  | negSucc m =>
    cases n with
    | ofNat n =>
      rw [sanitized_ofNat, sanitized_negSucc] at same
      exact absurd (same ▸ List.mem_cons_self ..) (unsigned n)
    | negSucc n =>
      rw [sanitized_negSucc, sanitized_negSucc] at same
      rw [Nat.succ.inj (digits (List.cons.inj same).2)]

/-- A truth value is not written as a number. -/
theorem sanitized_bool_ne (value : Bool) (n : Int) :
    sanitized (bool value).text ≠ sanitized (toString n) := by
  have noLetter : ∀ n : Nat, 'e' ∉ (toString n).toList := fun n member => by
    cases isDigit_of_mem_toString member
  intro same
  rw [sanitized_bool] at same
  have letter : 'e' ∈ (toString value).toList := by cases value <;> decide
  rw [same] at letter
  cases n with
  | ofNat n => exact noLetter n (sanitized_ofNat n ▸ letter)
  | negSucc n =>
    rw [sanitized_negSucc, List.mem_cons] at letter
    exact letter.elim (by decide) (noLetter (n + 1))

theorem eq_of_sanitized_bare {v w : ParamValue} (bare : v.isBare = true) (bare' : w.isBare = true)
    (same : sanitized v.text = sanitized w.text) : v = w := by
  cases v with
  | bool a =>
    cases w with
    | bool b =>
      rw [sanitized_bool, sanitized_bool] at same
      revert same
      cases a <;> cases b <;> decide
    | int n => exact absurd (same.trans (sanitized_int n)) (sanitized_bool_ne a _)
    | str => cases bare'
    | array => cases bare'
  | int m =>
    cases w with
    | bool b => exact absurd (same.symm.trans (sanitized_int m)) (sanitized_bool_ne b _)
    | int n =>
      rw [sanitized_int, sanitized_int] at same
      rw [Int64.toInt_inj.mp (eq_of_sanitized_toString same)]
    | str => cases bare'
    | array => cases bare'
  | str => cases bare
  | array => cases bare

/-- What follows an element of a list. -/
def further (items : List ParamValue) : List Char :=
  items.flatMap (fun item => '_' :: '_' :: sanitized item.text) ++ ['_']

theorem further_cons (item : ParamValue) (items : List ParamValue) :
    further (item :: items) = '_' :: '_' :: (sanitized item.text ++ further items) := by
  simp [further]

theorem exists_further (items : List ParamValue) : ∃ rest, further items = '_' :: rest := by
  cases items with
  | nil => exact ⟨[], rfl⟩
  | cons item items => exact ⟨_, further_cons item items⟩

theorem textItems_eq_map (items : List ParamValue) : textItems items = items.map text := by
  induction items with
  | nil => rfl
  | cons item items ih => rw [textItems, ih, List.map_cons]

theorem further_eq (item : ParamValue) (items : List ParamValue) :
    further (item :: items) = '_' :: sanitized (array (item :: items)).text := by
  have opening : sanitized "[" = ['_'] := rfl
  have closing : sanitized "]" = ['_'] := rfl
  have joined : sanitized (String.intercalate ", " ((item :: items).map text)) =
      sanitized item.text ++ items.flatMap fun item => '_' :: '_' :: sanitized item.text := by
    rw [sanitized, String.toList_intercalate, List.map_cons, List.map_cons, intercalate_cons,
      List.map_append, List.map_flatMap, List.map_map, List.flatMap_map]
    rfl
  rw [text, textItems_eq_map, sanitized_append, sanitized_append, joined, opening, closing,
    further_cons]
  simp [further]

/-- Bare values are cut off by what cannot go on a word. -/
theorem bare_append_inj {v w : ParamValue} {rest rest' : List Char} (bare : v.isBare = true)
    (bare' : w.isBare = true)
    (same : sanitized v.text ++ '_' :: rest = sanitized w.text ++ '_' :: rest') :
    v = w ∧ rest = rest' := by
  obtain ⟨word, some, alnum, spelled⟩ := exists_word bare
  obtain ⟨word', some', alnum', spelled'⟩ := exists_word bare'
  have free := low_notMem_of_isAlphanum alnum
  have free' := low_notMem_of_isAlphanum alnum'
  obtain ⟨c, cs, rfl⟩ := List.exists_cons_of_ne_nil some
  obtain ⟨c', cs', rfl⟩ := List.exists_cons_of_ne_nil some'
  have texts : sanitized v.text = sanitized w.text ∧ rest = rest' := by
    rcases spelled with spelled | spelled <;> rcases spelled' with spelled' | spelled' <;>
      rw [spelled, spelled'] at same ⊢
    · exact append_inj_of_sign free free' same
    · exact absurd ((List.cons.inj same).1 ▸ List.mem_cons_self ..) free
    · exact absurd ((List.cons.inj same).1 ▸ List.mem_cons_self ..) free'
    · obtain ⟨words, rests⟩ := append_inj_of_sign free free' (List.cons.inj same).2
      exact ⟨congrArg _ words, rests⟩
  exact ⟨eq_of_sanitized_bare bare bare' texts.1, texts.2⟩

theorem bareFirst_cons {item : ParamValue} {items : List ParamValue} :
    bareFirst (item :: items) = true ↔
      bareFirst items = true ∧ (item.isBare = false → ∀ other ∈ items, other.isBare = false) := by
  cases bare : item.isBare with
  | true => simp [bareFirst, bare]
  | false =>
    have dropped : (∀ other ∈ items, other.isBare = false) → bareFirst items = true :=
      fun each => List.all_eq_true.mpr fun other member => by
        simp [each other (List.dropWhile_subset _ member)]
    simpa [bareFirst, bare] using dropped

/-- The alternatives of a comparison are in order, so their bare values come first. -/
theorem bareFirst_ascending (items : List ParamValue) : bareFirst (ascending items) = true := by
  have sorted := pairwise_ascending items
  generalize ascending items = list at sorted ⊢
  induction list with
  | nil => rfl
  | cons item list ih =>
    obtain ⟨before, sorted⟩ := List.pairwise_cons.mp sorted
    refine bareFirst_cons.mpr ⟨ih sorted, fun quoted other member => ?_⟩
    have isLt := before other member
    cases item with
    | bool => cases quoted
    | int => cases quoted
    | str => cases other <;> first | rfl | cases isLt
    | array => cases other <;> first | rfl | cases isLt

theorem isSparse_of_not_mem {text : List Char} (free : '_' ∉ text) : isSparse text = true := by
  induction text with
  | nil => rfl
  | cons c text ih =>
    rw [List.mem_cons, not_or] at free
    rw [isSparse, ih free.2, bne_iff_ne.mpr (Ne.symm free.1)]
    rfl

theorem sparse_append_inj {left right rest rest' : List Char} (sparse : isSparse left = true)
    (sparse' : isSparse right = true)
    (same : left ++ '_' :: '_' :: rest = right ++ '_' :: '_' :: rest') :
    left = right ∧ rest = rest' := by
  have short : ∀ {text rest rest' : List Char}, isSparse text = true →
      '_' :: '_' :: rest = text ++ '_' :: '_' :: rest' → text = [] := by
    intro text rest rest' sparse same
    match text with
    | [] => rfl
    | [c] =>
      obtain ⟨rfl, -⟩ := List.cons.inj same
      cases sparse
    | c :: d :: text =>
      obtain ⟨rfl, later⟩ := List.cons.inj same
      obtain ⟨rfl, -⟩ := List.cons.inj later
      cases sparse
  induction left generalizing right with
  | nil =>
    obtain rfl := short sparse' same
    simpa using same
  | cons c left ih =>
    cases right with
    | nil => cases short sparse same.symm
    | cons d right =>
      obtain ⟨rfl, later⟩ := List.cons.inj same
      rw [isSparse, Bool.and_eq_true] at sparse sparse'
      obtain ⟨texts, rests⟩ := ih sparse.2 sparse'.2 later
      exact ⟨congrArg _ texts, rests⟩

/-- What an element of a list is: a bare value or a string. -/
theorem isItem_cases {v : ParamValue} (item : v.isItem = true) :
    v.isBare = true ∨ ∃ s, v = str s ∧ sanitized v.text = '_' :: (s.toList ++ ['_']) ∧
      s.toList.head? ≠ some '_' ∧ isSparse s.toList = true := by
  cases v with
  | bool => exact .inl rfl
  | int => exact .inl rfl
  | str s =>
    simp only [isItem, Bool.and_eq_true, bne_iff_ne] at item
    exact .inr ⟨s, rfl, sanitized_str item.1.1, item.1.2, item.2⟩
  | array => cases item

/-- Only the empty string is written with two low lines at the start. -/
theorem sanitized_eq_of_low {v : ParamValue} (item : v.isItem = true) {more rest : List Char}
    (same : sanitized v.text ++ more = '_' :: '_' :: rest) : sanitized v.text = ['_', '_'] := by
  rcases isItem_cases item with bare | ⟨s, -, spelled, start, -⟩
  · obtain ⟨word, some, alnum, spelled⟩ := exists_word bare
    obtain ⟨c, cs, rfl⟩ := List.exists_cons_of_ne_nil some
    have isLow : c = '_' := by
      rcases spelled with spelled | spelled
      · exact (List.cons.inj (spelled ▸ same)).1
      · exact (List.cons.inj (List.cons.inj (spelled ▸ same)).2).1
    exact absurd (isLow ▸ List.mem_cons_self ..) (low_notMem_of_isAlphanum alnum)
  · cases isList : s.toList with
    | nil => rw [spelled, isList, List.nil_append]
    | cons c cs =>
      rw [spelled, isList] at same
      rw [isList, (List.cons.inj (List.cons.inj same).2).1] at start
      exact absurd rfl start

/-- Behind quoted elements no list goes on as behind a sign. -/
theorem further_ne_of_quoted {items others : List ParamValue}
    (each : ∀ item ∈ items, item.isItem = true) (each' : ∀ item ∈ others, item.isItem = true)
    (quoted : ∀ item ∈ others, item.isBare = false) :
    further items ≠ '_' :: further others := by
  intro same
  induction others generalizing items with
  | nil =>
    cases items with
    | nil => cases same
    | cons item items =>
      rw [further_cons] at same
      simp [further] at same
  | cons other others ih =>
    cases items with
    | nil => cases same
    | cons item items =>
      obtain ⟨here, later⟩ := List.forall_mem_cons.mp each
      obtain ⟨here', later'⟩ := List.forall_mem_cons.mp each'
      obtain ⟨isQuoted, laterQuoted⟩ := List.forall_mem_cons.mp quoted
      obtain ⟨t, -, spelled, start, -⟩ := (isItem_cases here').resolve_left (by simp [isQuoted])
      obtain ⟨rest, isFurther⟩ := exists_further items
      rw [further_cons, further_cons, spelled] at same
      have inner : sanitized item.text ++ further items =
          '_' :: '_' :: (t.toList ++ '_' :: further others) := by simpa using same
      rw [sanitized_eq_of_low here inner, isFurther] at inner
      have tails : '_' :: rest = t.toList ++ '_' :: further others := by simpa using inner
      cases isList : t.toList with
      | nil =>
        rw [isList, List.nil_append] at tails
        exact ih later later' laterQuoted (isFurther.trans tails)
      | cons c cs =>
        rw [isList] at tails start
        exact start (congrArg some (List.cons.inj tails).1.symm)

/-- A bare element is not taken for a quoted one that has quoted elements only behind it. -/
theorem bare_append_ne {v : ParamValue} {s : String} {items others : List ParamValue}
    (bare : v.isBare = true) (sparse : isSparse s.toList = true)
    (each : ∀ item ∈ items, item.isItem = true) (each' : ∀ item ∈ others, item.isItem = true)
    (quoted : ∀ item ∈ others, item.isBare = false) :
    sanitized v.text ++ further items ≠ '_' :: (s.toList ++ '_' :: further others) := by
  intro same
  obtain ⟨word, some, alnum, spelled⟩ := exists_word bare
  have free := low_notMem_of_isAlphanum alnum
  obtain ⟨rest, isFurther⟩ := exists_further others
  rcases spelled with spelled | spelled
  · obtain ⟨c, cs, rfl⟩ := List.exists_cons_of_ne_nil some
    rw [spelled] at same
    exact free ((List.cons.inj same).1 ▸ List.mem_cons_self ..)
  · rw [spelled] at same
    have inner : word ++ further items = s.toList ++ '_' :: further others := by simpa using same
    cases items with
    | nil =>
      -- Behind the sign there is one low line only.
      have lows := congrArg (List.count '_') inner
      simp only [further, List.flatMap_nil, List.nil_append, List.count_append,
        List.count_cons_self, List.count_nil, List.count_eq_zero_of_not_mem free] at lows
      omega
    | cons item items =>
      rw [isFurther, further_cons] at inner
      have rests := (sparse_append_inj (isSparse_of_not_mem free) sparse inner).2
      refine further_ne_of_quoted each each' quoted ?_
      rw [further_cons, rests, isFurther]

theorem further_injective {items others : List ParamValue}
    (each : ∀ item ∈ items, item.isItem = true) (each' : ∀ item ∈ others, item.isItem = true)
    (ordered : bareFirst items = true) (ordered' : bareFirst others = true)
    (same : further items = further others) : items = others := by
  induction items generalizing others with
  | nil =>
    cases others with
    | nil => rfl
    | cons other others => simp [further] at same
  | cons item items ih =>
    cases others with
    | nil => simp [further] at same
    | cons other others =>
      obtain ⟨here, later⟩ := List.forall_mem_cons.mp each
      obtain ⟨here', later'⟩ := List.forall_mem_cons.mp each'
      obtain ⟨ordered, quoted⟩ := bareFirst_cons.mp ordered
      obtain ⟨ordered', quoted'⟩ := bareFirst_cons.mp ordered'
      rw [further_cons, further_cons] at same
      have inner := (List.cons.inj (List.cons.inj same).2).2
      have step : item = other ∧ further items = further others := by
        obtain ⟨rest, isFurther⟩ := exists_further items
        obtain ⟨rest', isFurther'⟩ := exists_further others
        rcases isItem_cases here with bare | ⟨s, isString, spelled, -, sparse⟩ <;>
          rcases isItem_cases here' with bare' | ⟨t, isString', spelled', -, sparse'⟩
        · rw [isFurther, isFurther'] at inner ⊢
          obtain ⟨values, rests⟩ := bare_append_inj bare bare' inner
          exact ⟨values, congrArg _ rests⟩
        · have isQuoted := quoted' (by rw [isString']; rfl)
          refine absurd ?_ (bare_append_ne bare sparse' later later' isQuoted)
          simpa [spelled'] using inner
        · have isQuoted := quoted (by rw [isString]; rfl)
          refine absurd ?_ (bare_append_ne bare' sparse later' later isQuoted)
          simpa [spelled] using inner.symm
        · rw [spelled, spelled', isFurther, isFurther'] at inner
          have inner : s.toList ++ '_' :: '_' :: rest = t.toList ++ '_' :: '_' :: rest' := by
            simpa using inner
          obtain ⟨texts, rests⟩ := sparse_append_inj sparse sparse' inner
          rw [isString, isString', String.toList_inj.mp texts, isFurther, isFurther', rests]
          exact ⟨rfl, rfl⟩
      rw [step.1, ih later later' ordered ordered' step.2]

/-- Quotes and brackets leave a low line at the end, and nothing else does. -/
theorem getLast?_sanitized (v : ParamValue) :
    (sanitized v.text).getLast? = some '_' ↔ v.isBare = false := by
  cases bare : v.isBare with
  | false =>
    have quote : sanitized "'" = ['_'] := rfl
    have closing : sanitized "]" = ['_'] := rfl
    cases v with
    | str => simp only [text, sanitized_append, quote, List.getLast?_concat]
    | array => simp only [text, sanitized_append, closing, List.getLast?_concat]
    | bool => cases bare
    | int => cases bare
  | true =>
    obtain ⟨word, some, alnum, spelled⟩ := exists_word bare
    have last : (sanitized v.text).getLast? = word.getLast? := by
      rcases spelled with spelled | spelled
      · rw [spelled]
      · rw [spelled, List.getLast?_cons_of_ne_nil some]
    simp only [last, Bool.true_eq_false, iff_false]
    exact fun low => low_notMem_of_isAlphanum alnum (List.mem_of_getLast? low)

theorem sanitized_ne_nil (v : ParamValue) : sanitized v.text ≠ [] := by
  intro isNil
  have last := getLast?_sanitized v
  cases bare : v.isBare with
  | false =>
    rw [isNil] at last
    cases last.mpr bare
  | true =>
    obtain ⟨word, some, -, spelled⟩ := exists_word bare
    rcases spelled with spelled | spelled
    · exact some (spelled.symm.trans isNil)
    · cases spelled.symm.trans isNil

theorem sanitized_array_nil_ne (item : ParamValue) (items : List ParamValue) :
    sanitized (array []).text ≠ sanitized (array (item :: items)).text := by
  intro same
  have short : sanitized (array []).text = ['_', '_'] := rfl
  obtain ⟨c, rest, isCons⟩ := List.exists_cons_of_ne_nil (sanitized_ne_nil item)
  obtain ⟨later, isFurther⟩ := exists_further items
  have long := further_eq item items
  rw [← same, short, further_cons, isCons, isFurther] at long
  simp at long

theorem eq_of_sanitized_array {items others : List ParamValue} (legible : isLegible items = true)
    (legible' : isLegible others = true)
    (same : sanitized (array items).text = sanitized (array others).text) : items = others := by
  obtain ⟨each, ordered⟩ := Bool.and_eq_true_iff.mp legible
  obtain ⟨each', ordered'⟩ := Bool.and_eq_true_iff.mp legible'
  rw [List.all_eq_true] at each each'
  cases items with
  | nil =>
    cases others with
    | nil => rfl
    | cons other others => exact absurd same (sanitized_array_nil_ne other others)
  | cons item items =>
    cases others with
    | nil => exact absurd same.symm (sanitized_array_nil_ne item items)
    | cons other others =>
      have tails : further (item :: items) = further (other :: others) := by
        rw [further_eq, further_eq, same]
      exact further_injective each each' ordered ordered' tails

theorem eq_of_sanitized {v w : ParamValue} (apart : v.distinguishable w = true)
    (same : sanitized v.text = sanitized w.text) : v = w := by
  have bares : v.isBare = w.isBare := by
    have ends := getLast?_sanitized v
    rw [same, getLast?_sanitized w] at ends
    exact (Bool.eq_iff_iff.mpr (by simpa using not_congr ends)).symm
  cases bare : v.isBare with
  | true => exact eq_of_sanitized_bare bare (bares ▸ bare) same
  | false =>
    have bare' : w.isBare = false := bares ▸ bare
    cases v with
    | bool => cases bare
    | int => cases bare
    | str s =>
      cases w with
      | bool => cases bare'
      | int => cases bare'
      | str t =>
        have texts : sanitized s = sanitized t := by simpa [text] using same
        have equal : s = t := by simpa [distinguishable, texts] using apart
        rw [equal]
      | array => cases apart
    | array items =>
      cases w with
      | bool => cases bare'
      | int => cases bare'
      | str => cases apart
      | array others =>
        rcases Bool.or_eq_true_iff.mp apart with equal | legible
        · rw [beq_iff_eq.mp equal]
        · obtain ⟨legible, legible'⟩ := Bool.and_eq_true_iff.mp legible
          rw [eq_of_sanitized_array legible legible' same]

end ParamValue

end IsaLogic
