import IsaLogic.Formula.Basic
import IsaLogic.Proofs.Ascending

/-!
# The order of terms

Everything that terms are made of has a total order that agrees with equality, so
ascending lists of terms and of literals repeat nothing. Records compare by their
fields in turn; where an order asks for the kind of its operands first, it is written
as such a comparison too. Only parameter values need an induction, since arrays nest.
-/

namespace IsaLogic

open Std

/-- A reflexive comparison of keys that tell elements apart agrees with equality. -/
theorem lawfulEqCmp_of_key {α : Type} {order : α → α → Ordering} (total : TransCmp order)
    (apart : ∀ a b, order a b = .eq → a = b) : LawfulEqCmp order where
  compare_self := ReflCmp.compare_self
  eq_of_compare := apart _ _

/-- Comparing by a key is total where comparing keys is. -/
theorem transCmp_on {α β : Type} {order : β → β → Ordering} [TransCmp order] (key : α → β) :
    TransCmp fun a b => order (key a) (key b) where
  eq_swap := OrientedCmp.eq_swap
  isLE_trans := TransCmp.isLE_trans

namespace Version

/-- A number comes before a name, so the kind of a segment is compared first. -/
theorem comparePreSegment_eq (left right : List Char) :
    comparePreSegment left right =
      (compare (!allDigits left) (!allDigits right)).then
        ((compare (if allDigits left then left.length else 0)
          (if allDigits right then right.length else 0)).then (compare left right)) := by
  unfold comparePreSegment compareNumerals
  cases allDigits left <;> cases allDigits right <;> simp <;> rfl

instance : TransCmp comparePreSegment := by
  have keys : comparePreSegment = compareLex (compareOn fun segment => !allDigits segment)
      (compareLex (compareOn fun segment => if allDigits segment then segment.length else 0)
        (compareOn id)) := by
    funext left right
    exact comparePreSegment_eq left right
  rw [keys]
  infer_instance

instance : LawfulEqCmp comparePreSegment := by
  refine lawfulEqCmp_of_key inferInstance fun left right same => ?_
  rw [comparePreSegment_eq, Ordering.then_eq_eq, Ordering.then_eq_eq] at same
  exact LawfulEqOrd.eq_of_compare same.2.2

/-- The digits of a number after its leading zeros; a name has nothing to leave out. -/
def significant (segment : List Char) : List Char :=
  if allDigits segment then segment.dropWhile (· == '0') else segment

/-- The number of digits that a comparison by value looks at; names are compared by text. -/
def magnitude (segment : List Char) : Nat :=
  if allDigits segment then (significant segment).length else 0

theorem compareBuildSegment_eq (left right : List Char) :
    compareBuildSegment left right =
      (compare (!allDigits left) (!allDigits right)).then
        ((compare (magnitude left) (magnitude right)).then
          ((compare (significant left) (significant right)).then
            (compare (if allDigits left then left.length else 0)
              (if allDigits right then right.length else 0)))) := by
  unfold compareBuildSegment compareNumerals magnitude significant
  cases allDigits left <;> cases allDigits right <;> simp [Ordering.then_assoc] <;> rfl

/-- A text is known from what follows its leading zeros and from its length. -/
theorem eq_of_dropWhile_zero {left right : List Char}
    (same : left.dropWhile (· == '0') = right.dropWhile (· == '0'))
    (sameLength : left.length = right.length) : left = right := by
  have zeros : ∀ text : List Char, text = List.replicate
      (text.length - (text.dropWhile (· == '0')).length) '0' ++ text.dropWhile (· == '0') := by
    intro text
    induction text with
    | nil => rfl
    | cons c rest ih =>
      by_cases isZero : c = '0'
      · subst isZero
        have shorter := (List.dropWhile_sublist (l := rest) (· == '0')).length_le
        have count : (('0' :: rest).length - (('0' :: rest).dropWhile (· == '0')).length) =
            (rest.length - (rest.dropWhile (· == '0')).length) + 1 := by
          simp only [List.length_cons, List.dropWhile_cons, beq_self_eq_true, if_true]
          omega
        rw [count, List.replicate_succ, List.cons_append, List.dropWhile_cons,
          if_pos (beq_self_eq_true _), ← ih]
      · have kept : (c :: rest).dropWhile (· == '0') = c :: rest := by
          simp [isZero]
        simp [kept]
  rw [zeros left, zeros right, same, sameLength]

instance : TransCmp compareBuildSegment := by
  have keys : compareBuildSegment = compareLex (compareOn fun segment => !allDigits segment)
      (compareLex (compareOn magnitude) (compareLex (compareOn significant)
        (compareOn fun segment => if allDigits segment then segment.length else 0))) := by
    funext left right
    exact compareBuildSegment_eq left right
  rw [keys]
  infer_instance

instance : LawfulEqCmp compareBuildSegment := by
  refine lawfulEqCmp_of_key inferInstance fun left right same => ?_
  rw [compareBuildSegment_eq] at same
  simp only [Ordering.then_eq_eq, LawfulEqOrd.compare_eq_iff_eq] at same
  obtain ⟨sameKind, -, sameText, sameLength⟩ := same
  have sameKind : allDigits left = allDigits right := by simpa using sameKind
  unfold significant at sameText
  rw [← sameKind] at sameText sameLength
  split at sameText
  · rename_i digits
    rw [if_pos digits, if_pos digits] at sameLength
    exact eq_of_dropWhile_zero sameText sameLength
  · exact sameText

theorem compareSegments_eq (segment : List Char → List Char → Ordering)
    (left right : List (List Char)) :
    compareSegments segment left right = List.compareLex segment left right := by
  induction left generalizing right with
  | nil => cases right <;> rfl
  | cons first left ih =>
    cases right with
    | nil => rfl
    | cons other right => rw [compareSegments, ih, List.compareLex_cons_cons]

instance {segment : List Char → List Char → Ordering} [TransCmp segment] :
    TransCmp (compareSegments segment) := by
  have lists : compareSegments segment = List.compareLex segment := by
    funext left right
    exact compareSegments_eq segment left right
  rw [lists]
  infer_instance

instance {segment : List Char → List Char → Ordering} [LawfulEqCmp segment] :
    LawfulEqCmp (compareSegments segment) := by
  have lists : compareSegments segment = List.compareLex segment := by
    funext left right
    exact compareSegments_eq segment left right
  rw [lists]
  infer_instance

theorem comparePre_eq (left right : List (List Char)) :
    comparePre left right =
      (compare left.isEmpty right.isEmpty).then
        (compareSegments comparePreSegment left right) := by
  cases left <;> cases right <;> rfl

instance : TransCmp comparePre := by
  have keys : comparePre =
      compareLex (compareOn List.isEmpty) (compareSegments comparePreSegment) := by
    funext left right
    exact comparePre_eq left right
  rw [keys]
  infer_instance

instance : LawfulEqCmp comparePre := by
  refine lawfulEqCmp_of_key inferInstance fun left right same => ?_
  rw [comparePre_eq, Ordering.then_eq_eq] at same
  exact LawfulEqCmp.eq_of_compare same.2

theorem eq_of_texts {valid : List Char → Bool} {left right : List { s // valid s = true }}
    (same : left.map Subtype.val = right.map Subtype.val) : left = right :=
  List.map_inj_right (fun _ _ => Subtype.ext) |>.mp same

instance : TransOrd Version :=
  have : TransCmp fun left right : Version =>
      comparePre (left.pre.map Subtype.val) (right.pre.map Subtype.val) :=
    transCmp_on fun version : Version => version.pre.map Subtype.val
  have : TransCmp fun left right : Version => compareSegments compareBuildSegment
      (left.build.map Subtype.val) (right.build.map Subtype.val) :=
    transCmp_on fun version : Version => version.build.map Subtype.val
  inferInstanceAs (TransCmp (compareLex (compareOn Version.major) <|
    compareLex (compareOn Version.minor) <| compareLex (compareOn Version.patch) <|
    compareLex (fun left right => comparePre (left.pre.map Subtype.val) (right.pre.map Subtype.val))
      fun left right => compareSegments compareBuildSegment (left.build.map Subtype.val)
        (right.build.map Subtype.val)))

instance : LawfulEqOrd Version := by
  refine lawfulEqCmp_of_key inferInstance fun left right same => ?_
  change order left right = .eq at same
  simp only [order, Ordering.then_eq_eq, LawfulEqCmp.compare_eq_iff_eq] at same
  obtain ⟨major, minor, patch, pre, build⟩ := same
  cases left
  cases right
  cases major
  cases minor
  cases patch
  cases eq_of_texts pre
  cases eq_of_texts build
  rfl

end Version

namespace VersionOp

theorem eq_of_rank {left right : VersionOp} (same : left.rank = right.rank) : left = right := by
  cases left <;> cases right <;> first | rfl | cases same

instance : TransOrd VersionOp := inferInstanceAs (TransCmp (compareOn VersionOp.rank))

instance : LawfulEqOrd VersionOp :=
  lawfulEqCmp_of_key inferInstance fun _ _ same => eq_of_rank (LawfulEqOrd.eq_of_compare same)

end VersionOp

namespace ParamValue

/-- The place of a value's kind in the order of kinds. -/
def kind : ParamValue → Nat
  | bool _ => 0
  | int _ => 1
  | str _ => 2
  | array _ => 3

/-- The boolean a value is. -/
def bool? : ParamValue → Option Bool
  | bool value => some value
  | _ => none

/-- The string a value is. -/
def str? : ParamValue → Option String
  | str value => some value
  | _ => none

/-- The items of an array; nothing else has items. -/
def items : ParamValue → List ParamValue
  | array items => items
  | _ => []

/-- What is known of a value if it is known of its items holds of all values. -/
@[elab_as_elim]
theorem induct {motive : ParamValue → Prop}
    (step : ∀ a, (∀ item ∈ a.items, motive item) → motive a) : ∀ a, motive a := by
  intro a
  refine @ParamValue.rec motive (fun items => ∀ item ∈ items, motive item)
    (fun value => step (bool value) nofun) (fun value => step (int value) nofun)
    (fun value => step (str value) nofun) (fun items => step (array items)) nofun (fun _ _ => ?_) a
  intro first rest item member
  rcases List.mem_cons.mp member with rfl | later
  · exact first
  · exact rest item later

/-- What decides between two values before their items do. -/
def compareScalars : ParamValue → ParamValue → Ordering :=
  compareLex (compareOn kind) <| compareLex (compareOn bool?) <|
    compareLex (compareOn int?) (compareOn str?)

instance : TransCmp compareScalars :=
  inferInstanceAs (TransCmp (compareLex (compareOn kind) <| compareLex (compareOn bool?) <|
    compareLex (compareOn int?) (compareOn str?)))

theorem order_eq (a b : ParamValue) :
    order a b = (compareScalars a b).then (orderItems a.items b.items) := by
  cases a <;> cases b <;>
    simp [order, compareScalars, compareLex, compareOn, kind, bool?, int?, str?, items,
      orderItems] <;> rfl

theorem eq_of_scalars {a b : ParamValue} (scalars : compareScalars a b = .eq)
    (sameItems : a.items = b.items) : a = b := by
  simp only [compareScalars, compareLex, compareOn, Ordering.then_eq_eq,
    LawfulEqOrd.compare_eq_iff_eq] at scalars
  obtain ⟨sameKind, sameBool, sameInt, sameStr⟩ := scalars
  cases a <;> cases b <;> simp_all [kind, bool?, int?, str?, items]

theorem orderItems_swap {as : List ParamValue}
    (swaps : ∀ a ∈ as, ∀ b, order a b = (order b a).swap) (bs : List ParamValue) :
    orderItems as bs = (orderItems bs as).swap := by
  induction as generalizing bs with
  | nil => cases bs <;> rfl
  | cons a as ih =>
    cases bs with
    | nil => rfl
    | cons b bs =>
      rw [orderItems, orderItems, swaps a (List.mem_cons_self ..),
        ih (fun other member => swaps other (List.mem_cons_of_mem _ member)), Ordering.swap_then]

theorem order_swap (a b : ParamValue) : order a b = (order b a).swap := by
  induction a using induct generalizing b with
  | step a ih =>
    rw [order_eq, order_eq, orderItems_swap ih, Ordering.swap_then]
    exact congrArg (Ordering.then · _) OrientedCmp.eq_swap

theorem eq_of_orderItems {as : List ParamValue} (apart : ∀ a ∈ as, ∀ b, order a b = .eq → a = b)
    {bs : List ParamValue} (same : orderItems as bs = .eq) : as = bs := by
  induction as generalizing bs with
  | nil =>
    cases bs with
    | nil => rfl
    | cons b bs => cases same
  | cons a as ih =>
    cases bs with
    | nil => cases same
    | cons b bs =>
      obtain ⟨first, rest⟩ := Ordering.then_eq_eq.mp same
      rw [apart a (List.mem_cons_self ..) b first,
        ih (fun other member => apart other (List.mem_cons_of_mem _ member)) rest]

theorem eq_of_order (a b : ParamValue) (same : order a b = .eq) : a = b := by
  induction a using induct generalizing b with
  | step a ih =>
    rw [order_eq, Ordering.then_eq_eq] at same
    exact eq_of_scalars same.1 (eq_of_orderItems ih same.2)

theorem orderItems_trans {as : List ParamValue}
    (trans : ∀ a ∈ as, ∀ b c, order a b = .lt → order b c = .lt → order a c = .lt)
    {bs cs : List ParamValue} (first : orderItems as bs = .lt) (second : orderItems bs cs = .lt) :
    orderItems as cs = .lt := by
  induction as generalizing bs cs with
  | nil =>
    cases cs with
    | nil => cases bs <;> cases second
    | cons c cs => rfl
  | cons a as ih =>
    obtain _ | ⟨b, bs⟩ := bs
    · cases first
    obtain _ | ⟨c, cs⟩ := cs
    · cases second
    rw [orderItems, Ordering.then_eq_lt] at first second ⊢
    rcases first with before | ⟨same, beforeRest⟩
    · rcases second with after | ⟨same, -⟩
      · exact .inl (trans a (List.mem_cons_self ..) b c before after)
      · exact .inl (eq_of_order b c same ▸ before)
    · cases eq_of_order a b same
      rcases second with after | ⟨sameAfter, afterRest⟩
      · exact .inl after
      · refine .inr ⟨sameAfter, ih (fun other member => ?_) beforeRest afterRest⟩
        exact trans other (List.mem_cons_of_mem _ member)

theorem order_trans (a b c : ParamValue) (first : order a b = .lt) (second : order b c = .lt) :
    order a c = .lt := by
  induction a using induct generalizing b c with
  | step a ih =>
    rw [order_eq, Ordering.then_eq_lt] at first second ⊢
    rcases first with before | ⟨same, beforeItems⟩
    · rcases second with after | ⟨same, -⟩
      · exact .inl (TransCmp.lt_trans before after)
      · exact .inl (TransCmp.lt_of_lt_of_eq before same)
    · rcases second with after | ⟨sameAfter, afterItems⟩
      · exact .inl (TransCmp.lt_of_eq_of_lt same after)
      · exact .inr ⟨TransCmp.eq_trans same sameAfter, orderItems_trans ih beforeItems afterItems⟩

instance : TransOrd ParamValue where
  eq_swap {a b} := order_swap a b
  isLE_trans {a b c} first second := by
    change (order a b).isLE = true at first
    change (order b c).isLE = true at second
    change (order a c).isLE = true
    cases before : order a b with
    | lt =>
      cases after : order b c with
      | lt => rw [order_trans a b c before after]; rfl
      | eq => rw [← eq_of_order b c after, before]; rfl
      | gt => rw [after] at second; cases second
    | eq => rwa [eq_of_order a b before]
    | gt => rw [before] at first; cases first

instance : LawfulEqOrd ParamValue := lawfulEqCmp_of_key inferInstance eq_of_order

end ParamValue

namespace Comparison

instance : TransOrd Comparison :=
  inferInstanceAs (TransCmp (compareLex (compareOn Comparison.rank) (compareOn Comparison.operand)))

instance : LawfulEqOrd Comparison := by
  refine lawfulEqCmp_of_key inferInstance fun left right same => ?_
  obtain ⟨rank, operand⟩ := Ordering.then_eq_eq.mp same
  replace rank := LawfulEqOrd.eq_of_compare rank
  replace operand := LawfulEqOrd.eq_of_compare operand
  cases left <;> cases right <;> cases rank <;> cases operand <;> rfl

end Comparison

namespace ParamScope

instance : TransOrd ParamScope :=
  inferInstanceAs (TransCmp (compareLex (compareOn ParamScope.rank) (compareOn ParamScope.position)))

instance : LawfulEqOrd ParamScope := by
  refine lawfulEqCmp_of_key inferInstance fun left right same => ?_
  obtain ⟨rank, position⟩ := Ordering.then_eq_eq.mp same
  replace rank := LawfulEqOrd.eq_of_compare rank
  replace position := LawfulEqOrd.eq_of_compare position
  cases left <;> cases right <;> cases rank <;> cases position <;> rfl

end ParamScope

instance : TransOrd ParamTerm :=
  inferInstanceAs (TransCmp (compareLex (compareOn ParamTerm.name) <|
    compareLex (compareOn ParamTerm.scope) (compareOn ParamTerm.comparison)))

instance : LawfulEqOrd ParamTerm := by
  refine lawfulEqCmp_of_key inferInstance fun left right same => ?_
  obtain ⟨name, rest⟩ := Ordering.then_eq_eq.mp same
  obtain ⟨scope, comparison⟩ := Ordering.then_eq_eq.mp rest
  cases left
  cases right
  cases LawfulEqOrd.eq_of_compare name
  cases LawfulEqOrd.eq_of_compare scope
  cases LawfulEqOrd.eq_of_compare comparison
  rfl

instance : TransOrd ExtensionTerm :=
  inferInstanceAs (TransCmp (compareLex (compareOn ExtensionTerm.name) <|
    compareLex (compareOn ExtensionTerm.op) (compareOn ExtensionTerm.version)))

instance : LawfulEqOrd ExtensionTerm := by
  refine lawfulEqCmp_of_key inferInstance fun left right same => ?_
  obtain ⟨name, rest⟩ := Ordering.then_eq_eq.mp same
  obtain ⟨op, version⟩ := Ordering.then_eq_eq.mp rest
  cases left
  cases right
  cases LawfulEqOrd.eq_of_compare name
  cases LawfulEqOrd.eq_of_compare op
  cases LawfulEqOrd.eq_of_compare version
  rfl

instance : TransOrd Xlen := inferInstanceAs (TransCmp (compareOn Xlen.bits))

instance : LawfulEqOrd Xlen := by
  refine lawfulEqCmp_of_key inferInstance fun left right same => ?_
  have bits : left.bits = right.bits := LawfulEqOrd.eq_of_compare same
  cases left <;> cases right <;> first | rfl | cases bits

namespace Term

/-- The place of a term's kind in the order of kinds. -/
def kind : Term → Nat
  | extension _ => 0
  | parameter _ => 1
  | xlen _ => 2
  | free _ => 3

/-- The register width a term is about. -/
def width? : Term → Option Xlen
  | xlen width => some width
  | _ => none

/-- The number of a synthetic variable. -/
def number? : Term → Option Nat
  | free id => some id
  | _ => none

theorem order_eq : order = compareLex (compareOn kind) (compareLex (compareOn extension?) <|
    compareLex (compareOn parameter?) <| compareLex (compareOn width?) (compareOn number?)) := by
  funext a b
  cases a <;> cases b <;>
    simp [order, compareLex, compareOn, kind, extension?, parameter?, width?, number?] <;> rfl

instance : TransOrd Term := by
  change TransCmp order
  rw [order_eq]
  infer_instance

instance : LawfulEqOrd Term := by
  refine lawfulEqCmp_of_key inferInstance fun a b same => ?_
  change order a b = .eq at same
  simp only [order_eq, compareLex, compareOn, Ordering.then_eq_eq,
    LawfulEqOrd.compare_eq_iff_eq] at same
  obtain ⟨sameKind, sameExtension, sameParameter, sameWidth, sameNumber⟩ := same
  cases a <;> cases b <;> simp_all [kind, extension?, parameter?, width?, number?]

end Term

instance : TransOrd Literal :=
  inferInstanceAs (TransCmp (compareLex (compareOn Literal.term) (compareOn Literal.positive)))

instance : LawfulEqOrd Literal := by
  refine lawfulEqCmp_of_key inferInstance fun left right same => ?_
  obtain ⟨term, positive⟩ := Ordering.then_eq_eq.mp same
  cases left
  cases right
  cases LawfulEqOrd.eq_of_compare term
  cases LawfulEqOrd.eq_of_compare positive
  rfl

/-- A formula lists each of its terms once. -/
theorem Formula.nodup_terms (f : Formula) : f.terms.Nodup := distinct_ascending f.occurrences

end IsaLogic
