import IsaLogic.Json.Basic
import IsaLogic.Proofs.Ascending

/-!
# Canonical JSON values

In a canonical value the fields of every object are strictly ascending, so no key is repeated
and objects with the same fields are equal. `Json.canonical` gives such values, at every depth.
Of entries that are put in one after another, the last of each key is what is found.
-/

namespace IsaLogic

section Entries

variable {κ α : Type} [Ord κ]

/-- The keys are strictly ascending. -/
def AscendingKeys (entries : List (κ × α)) : Prop :=
  entries.Pairwise fun first second => compare first.1 second.1 = .lt

theorem eq_or_mem_of_mem_insertEntry {key : κ} {value : α} {entries : List (κ × α)}
    {entry : κ × α} (member : entry ∈ insertEntry key value entries) :
    entry = (key, value) ∨ entry ∈ entries := by
  induction entries with
  | nil => exact .inl (List.mem_singleton.mp member)
  | cons first rest ih =>
    rw [insertEntry] at member
    split at member
    · exact List.mem_cons.mp member
    · exact (List.mem_cons.mp member).imp_right (List.mem_cons_of_mem first)
    · rcases List.mem_cons.mp member with rfl | later
      · exact .inr (List.mem_cons_self ..)
      · exact (ih later).imp_right (List.mem_cons_of_mem first)

variable [Std.TransOrd κ]

theorem ne_of_compare_lt {a b : κ} (before : compare a b = .lt) : a ≠ b := by
  rintro rfl
  rw [Std.ReflOrd.compare_self] at before
  cases before

theorem AscendingKeys.nodup {entries : List (κ × α)} (ascending : AscendingKeys entries) :
    (entries.map Prod.fst).Nodup :=
  List.pairwise_map.mpr (ascending.imp ne_of_compare_lt)

/-- Ascending entries are determined up to their order. -/
theorem AscendingKeys.eq_of_perm {left right : List (κ × α)} (ascendingLeft : AscendingKeys left)
    (ascendingRight : AscendingKeys right) (order : left.Perm right) : left = right := by
  refine List.Perm.eq_of_pairwise ?_ ascendingLeft ascendingRight order
  intro a b _ _ before after
  rw [Std.OrientedOrd.eq_swap, after] at before
  cases before

variable [Std.LawfulEqOrd κ]

/-- Ascending entries stay so when one is put in. -/
theorem AscendingKeys.insertEntry {entries : List (κ × α)} (ascending : AscendingKeys entries)
    (key : κ) (value : α) : AscendingKeys (insertEntry key value entries) := by
  induction entries with
  | nil => exact List.pairwise_singleton _ _
  | cons first rest ih =>
    obtain ⟨below, later⟩ := List.pairwise_cons.mp ascending
    rw [IsaLogic.insertEntry]
    split
    · rename_i before
      refine List.pairwise_cons.mpr ⟨fun entry member => ?_, ascending⟩
      rcases List.mem_cons.mp member with rfl | inRest
      · exact before
      · exact Std.TransCmp.lt_trans before (below entry inRest)
    · rename_i same
      obtain rfl : key = first.1 := Std.LawfulEqOrd.eq_of_compare same
      exact List.pairwise_cons.mpr ⟨below, later⟩
    · rename_i after
      refine List.pairwise_cons.mpr ⟨fun entry member => ?_, ih later⟩
      rcases eq_or_mem_of_mem_insertEntry member with rfl | inRest
      · exact Std.OrientedCmp.gt_iff_lt.mp after
      · exact below entry inRest

end Entries

section Found

variable {κ α : Type} [Ord κ] [Std.LawfulEqOrd κ] [DecidableEq κ]

/-- Putting an entry in changes what is found for its key, and for no other. -/
theorem lookup?_insertEntry (key other : κ) (value : α) (entries : List (κ × α)) :
    lookup? other (insertEntry key value entries) =
      if key = other then some value else lookup? other entries := by
  induction entries with
  | nil => rw [insertEntry, lookup?_cons]
  | cons first rest ih =>
    rw [insertEntry]
    split
    · rw [lookup?_cons]
    · rename_i same
      obtain rfl : key = first.1 := Std.LawfulEqOrd.eq_of_compare same
      rw [lookup?_cons, lookup?_cons]
      split <;> rfl
    · rename_i after
      have differ : first.1 ≠ key := by
        rintro rfl
        rw [Std.ReflOrd.compare_self] at after
        cases after
      rw [lookup?_cons, ih, lookup?_cons]
      by_cases same : first.1 = other
      · rw [if_pos same, if_pos same, if_neg fun isKey => differ (same.trans isKey.symm)]
      · rw [if_neg same, if_neg same]

/-- Of entries put in one after another, the last of a key is found. -/
theorem lookup?_foldl_insertEntry (key : κ) (later sorted : List (κ × α)) :
    lookup? key (later.foldl (fun sorted entry => insertEntry entry.1 entry.2 sorted) sorted) =
      lookup? key (later.reverse ++ sorted) := by
  induction later generalizing sorted with
  | nil => rfl
  | cons entry later ih =>
    rw [List.foldl_cons, ih, List.reverse_cons, List.append_assoc, lookup?_append, lookup?_append,
      lookup?_insertEntry, List.singleton_append, lookup?_cons]

end Found

/-- Where no key is repeated, an entry and the entries of the other keys are all. -/
theorem perm_of_lookup? {κ α : Type} [DecidableEq κ] {entries : List (κ × α)} {key : κ} {value : α}
    (distinct : (entries.map Prod.fst).Nodup) (found : lookup? key entries = some value) :
    entries.Perm ((key, value) :: entries.filter fun entry => entry.1 != key) := by
  induction entries with
  | nil => cases found
  | cons first rest ih =>
    obtain ⟨new, later⟩ := List.nodup_cons.mp distinct
    rw [lookup?_cons] at found
    by_cases same : first.1 = key
    · rw [if_pos same] at found
      cases found
      have others : rest.filter (fun entry => entry.1 != key) = rest := by
        refine List.filter_eq_self.mpr fun entry member => bne_iff_ne.mpr fun repeats => ?_
        exact new (same.trans repeats.symm ▸ List.mem_map_of_mem member)
      rw [List.filter_cons_of_neg (by simpa using same), others, ← same]
    · rw [if_neg same] at found
      rw [List.filter_cons_of_pos (by simpa using same)]
      exact ((ih later found).cons first).trans (.swap ..)

/-- Ascending entries of two keys are read off by looking both up. -/
theorem AscendingKeys.eq_of_lookup? {κ α : Type} [Ord κ] [Std.TransOrd κ] [DecidableEq κ]
    {entries : List (κ × α)} {first second : κ} {value : α} (ascending : AscendingKeys entries)
    (before : compare first second = .lt)
    (known : ∀ entry ∈ entries, entry.1 = first ∨ entry.1 = second)
    (found : lookup? first entries = some value) :
    entries = (first, value) :: ((lookup? second entries).map (second, ·)).toList := by
  rcases entries with _ | ⟨entry, rest⟩
  · cases found
  obtain ⟨below, later⟩ := List.pairwise_cons.mp ascending
  obtain ⟨isKnown, restKnown⟩ := List.forall_mem_cons.mp known
  have isFirst : entry.1 = first := by
    refine isKnown.resolve_right fun isSecond => ?_
    rw [lookup?_cons, if_neg (isSecond ▸ (ne_of_compare_lt before).symm)] at found
    have after := below _ (mem_of_lookup? found)
    rw [isSecond, Std.OrientedOrd.eq_swap, before] at after
    cases after
  have isSecond : ∀ other ∈ rest, other.1 = second := fun other member =>
    (restKnown other member).resolve_left fun same =>
      ne_of_compare_lt (below other member) (isFirst.trans same.symm)
  rw [lookup?_cons, if_pos isFirst] at found
  cases found
  rw [lookup?_cons, if_neg (isFirst ▸ ne_of_compare_lt before)]
  match rest with
  | [] => exact congrArg (fun key => [(key, entry.2)]) isFirst
  | [other] =>
    have same := isSecond other (List.mem_singleton.mpr rfl)
    rw [lookup?_cons, if_pos same, ← isFirst, ← same]
    rfl
  | other :: another :: rest =>
    have same := isSecond other (List.mem_cons_self ..)
    have alsoSame := isSecond another (List.mem_cons_of_mem other (List.mem_cons_self ..))
    have differ := (List.pairwise_cons.mp later).1 another (List.mem_cons_self ..)
    exact absurd (same.trans alsoSame.symm) (ne_of_compare_lt differ)

namespace Json

section SortFields

variable {α : Type} {fields : List (String × α)}

theorem ascendingKeys_sortFields (fields : List (String × α)) :
    AscendingKeys (sortFields fields) := by
  have each : ∀ (later sorted : List (String × α)), AscendingKeys sorted → AscendingKeys
      (later.foldl (fun sorted field => insertEntry field.1 field.2 sorted) sorted) := by
    intro later
    induction later with
    | nil => exact fun sorted ascending => ascending
    | cons field later ih =>
      exact fun sorted ascending => ih _ (ascending.insertEntry field.1 field.2)
  exact each fields [] List.Pairwise.nil

theorem mem_of_mem_sortFields {field : String × α} (member : field ∈ sortFields fields) :
    field ∈ fields := by
  have each : ∀ (later sorted : List (String × α)),
      field ∈ later.foldl (fun sorted field => insertEntry field.1 field.2 sorted) sorted →
      field ∈ sorted ∨ field ∈ later := by
    intro later
    induction later with
    | nil => exact fun sorted member => .inl member
    | cons first later ih =>
      intro sorted member
      rcases ih _ member with inserted | inLater
      · rcases eq_or_mem_of_mem_insertEntry inserted with rfl | old
        · exact .inr (List.mem_cons_self ..)
        · exact .inl old
      · exact .inr (List.mem_cons_of_mem first inLater)
  exact (each fields [] member).resolve_left List.not_mem_nil

end SortFields

/-- The fields of every object in the value are ascending. -/
inductive IsCanonical : Json → Prop where
  | null : IsCanonical .null
  | bool (value : Bool) : IsCanonical (.bool value)
  | int (value : Int) : IsCanonical (.int value)
  | float (bits : UInt64) : IsCanonical (.float bits)
  | str (value : String) : IsCanonical (.str value)
  | arr {items : List Json} (each : ∀ item ∈ items, IsCanonical item) : IsCanonical (.arr items)
  | obj {fields : List (String × Json)} (ascending : AscendingKeys fields)
      (values : ∀ field ∈ fields, IsCanonical field.2) : IsCanonical (.obj fields)

mutual

/-- Canonical values are canonical at every depth. -/
theorem isCanonical_canonical : ∀ json : Json, json.canonical.IsCanonical
  | .null => .null
  | .bool value => .bool value
  | .int value => .int value
  | .float bits => .float bits
  | .str value => .str value
  | .arr items => .arr (isCanonical_canonicalItems items)
  | .obj fields => .obj (ascendingKeys_sortFields _) fun field member =>
      isCanonical_canonicalFields fields field (mem_of_mem_sortFields member)

theorem isCanonical_canonicalItems : ∀ items : List Json,
    ∀ item ∈ canonicalItems items, item.IsCanonical
  | [] => nofun
  | item :: rest => List.forall_mem_cons.mpr
      ⟨isCanonical_canonical item, isCanonical_canonicalItems rest⟩

theorem isCanonical_canonicalFields : ∀ fields : List (String × Json),
    ∀ field ∈ canonicalFields fields, field.2.IsCanonical
  | [] => nofun
  | (_, value) :: rest => List.forall_mem_cons.mpr
      ⟨isCanonical_canonical value, isCanonical_canonicalFields rest⟩

end

theorem IsCanonical.items {items : List Json} (canonical : (Json.arr items).IsCanonical) :
    ∀ item ∈ items, item.IsCanonical := by
  cases canonical
  assumption

theorem IsCanonical.ascending {fields : List (String × Json)}
    (canonical : (Json.obj fields).IsCanonical) : AscendingKeys fields := by
  cases canonical
  assumption

theorem IsCanonical.values {fields : List (String × Json)}
    (canonical : (Json.obj fields).IsCanonical) : ∀ field ∈ fields, field.2.IsCanonical := by
  cases canonical
  assumption

end Json

end IsaLogic
