import IsaLogic.Ascending

/-!
# Ascending lists

`ascending` keeps the elements of a list, drops repetitions, and gives strictly
ascending lists wherever the order is a lawful one. `lookup?` has one lemma for each
way in which entries are built.
-/

namespace IsaLogic

section EraseReps

variable {α : Type} [BEq α]

theorem eraseReps_loop (first : α) (rest kept : List α) :
    List.eraseRepsBy.loop (· == ·) first rest kept =
      kept.reverse ++ List.eraseRepsBy.loop (· == ·) first rest [] := by
  induction rest generalizing first kept with
  | nil => simp [List.eraseRepsBy.loop]
  | cons next rest ih =>
    simp only [List.eraseRepsBy.loop]
    split
    · exact ih first kept
    · rw [ih next (first :: kept), ih next [first], List.reverse_cons, List.reverse_singleton,
        List.append_assoc]

theorem eraseReps_cons_cons (a b : α) (rest : List α) :
    (a :: b :: rest).eraseReps =
      if a == b then (a :: rest).eraseReps else a :: (b :: rest).eraseReps := by
  change List.eraseRepsBy.loop _ a (b :: rest) [] = _
  rw [List.eraseRepsBy.loop]
  cases a == b with
  | true => rfl
  | false => exact eraseReps_loop b rest [a]

theorem eraseReps_sublist (list : List α) : list.eraseReps.Sublist list := by
  match list with
  | [] => exact List.Sublist.slnil
  | [a] => exact List.Sublist.refl _
  | a :: b :: rest =>
    rw [eraseReps_cons_cons]
    split
    · exact (eraseReps_sublist (a :: rest)).trans (.cons_cons a (.cons b (List.Sublist.refl rest)))
    · exact (eraseReps_sublist (b :: rest)).cons_cons a
termination_by list.length

theorem mem_eraseReps [LawfulBEq α] {list : List α} {a : α} : a ∈ list.eraseReps ↔ a ∈ list := by
  refine ⟨fun member => (eraseReps_sublist list).mem member, fun member => ?_⟩
  match list with
  | [] => exact member
  | [b] => exact member
  | b :: c :: rest =>
    rw [eraseReps_cons_cons]
    split
    · rename_i same
      obtain rfl : b = c := eq_of_beq same
      refine mem_eraseReps.mpr ?_
      rcases List.mem_cons.mp member with isFirst | later
      · exact isFirst ▸ List.mem_cons_self ..
      · exact later
    · rcases List.mem_cons.mp member with isFirst | later
      · exact isFirst ▸ List.mem_cons_self ..
      · exact List.mem_cons_of_mem _ (mem_eraseReps.mpr later)
termination_by list.length

theorem eraseReps_of_nodup [LawfulBEq α] {list : List α} (distinct : list.Nodup) :
    list.eraseReps = list := by
  match list with
  | [] => rfl
  | [a] => rfl
  | a :: b :: rest =>
    obtain ⟨differs, later⟩ := List.nodup_cons.mp distinct
    have differ : ¬ (a == b) = true := fun same => differs (by simp [eq_of_beq same])
    rw [eraseReps_cons_cons, if_neg differ, eraseReps_of_nodup later]

/-- In a list in order, dropping repetitions leaves every element before the next. -/
theorem pairwise_lt_eraseReps [LawfulBEq α] [Ord α] [Std.TransOrd α] [Std.LawfulEqOrd α]
    {list : List α} (sorted : list.Pairwise fun a b => (compare a b).isLE = true) :
    list.eraseReps.Pairwise fun a b => compare a b = .lt := by
  match list with
  | [] => exact List.Pairwise.nil
  | [a] => exact List.pairwise_singleton _ a
  | a :: b :: rest =>
    rw [eraseReps_cons_cons]
    obtain ⟨first, later⟩ := List.pairwise_cons.mp sorted
    split
    · exact pairwise_lt_eraseReps (sorted.sublist (.cons_cons a (.cons b (List.Sublist.refl rest))))
    · rename_i differs
      refine List.pairwise_cons.mpr ⟨fun c member => ?_, pairwise_lt_eraseReps later⟩
      have before : compare a b = .lt := by
        have notAfter := first b (List.mem_cons_self ..)
        cases order : compare a b with
        | lt => rfl
        | eq => exact absurd (beq_iff_eq.mpr (Std.LawfulEqOrd.eq_of_compare order)) differs
        | gt => rw [order] at notAfter; cases notAfter
      rcases List.mem_cons.mp (mem_eraseReps.mp member) with rfl | inRest
      · exact before
      · exact Std.TransCmp.lt_of_lt_of_isLE before ((List.pairwise_cons.mp later).1 c inRest)
termination_by list.length

end EraseReps

section Ascending

variable {α : Type} [Ord α] [BEq α] {list : List α}

/-- Sorting and dropping repetitions keeps the elements. -/
@[simp] theorem mem_ascending [LawfulBEq α] {a : α} : a ∈ ascending list ↔ a ∈ list := by
  rw [ascending, mem_eraseReps]
  exact List.mem_mergeSort

theorem nodup_ascending (distinct : list.Nodup) : (ascending list).Nodup :=
  ((List.mergeSort_perm list _).symm.nodup distinct).sublist (eraseReps_sublist _)

/-- Under a lawful order the result is strictly ascending. -/
theorem pairwise_ascending [LawfulBEq α] [Std.TransOrd α] [Std.LawfulEqOrd α] (list : List α) :
    (ascending list).Pairwise fun a b => compare a b = .lt := by
  refine pairwise_lt_eraseReps (List.pairwise_mergeSort ?_ ?_ list)
  · exact fun a b c => Std.TransCmp.isLE_trans
  · intro a b
    rw [Bool.or_eq_true]
    cases order : compare a b with
    | lt | eq => exact .inl rfl
    | gt =>
      refine .inr ?_
      rw [Std.OrientedOrd.eq_swap, order]
      rfl

omit [BEq α] in
theorem nodup_of_pairwise_lt [Std.TransOrd α] [Std.LawfulEqOrd α]
    (sorted : list.Pairwise fun a b => compare a b = .lt) : list.Nodup := by
  refine sorted.imp ?_
  rintro a b before rfl
  rw [Std.ReflOrd.compare_self] at before
  cases before

/-- Under a lawful order nothing is listed twice, whatever the list. -/
theorem distinct_ascending [LawfulBEq α] [Std.TransOrd α] [Std.LawfulEqOrd α] (list : List α) :
    (ascending list).Nodup :=
  nodup_of_pairwise_lt (pairwise_ascending list)

/-- A list without repetitions is only sorted. -/
theorem mergeSort_eq_ascending [LawfulBEq α] (distinct : list.Nodup) :
    (list.mergeSort fun a b => (compare a b).isLE) = ascending list :=
  (eraseReps_of_nodup ((List.mergeSort_perm list _).symm.nodup distinct)).symm

/-- Sorting again changes nothing. -/
theorem ascending_ascending [LawfulBEq α] [Std.TransOrd α] [Std.LawfulEqOrd α] (list : List α) :
    ascending (ascending list) = ascending list := by
  have sorted := pairwise_ascending list
  generalize ascending list = result at sorted ⊢
  rw [ascending, List.mergeSort_of_pairwise (sorted.imp fun before => by rw [before]; rfl),
    eraseReps_of_nodup (nodup_of_pairwise_lt sorted)]

/-- A list that loses nothing repeats nothing. -/
theorem nodup_of_length_ascending [LawfulBEq α] [Std.TransOrd α] [Std.LawfulEqOrd α]
    (same : (ascending list).length = list.length) : list.Nodup := by
  have whole : ascending list = list.mergeSort fun a b => (compare a b).isLE :=
    (eraseReps_sublist _).eq_of_length (by rw [List.length_mergeSort]; exact same)
  have distinct := distinct_ascending list
  rw [whole] at distinct
  exact (List.mergeSort_perm list _).nodup distinct

end Ascending

section Lookup

variable {κ α : Type} [BEq κ] [LawfulBEq κ]

theorem mem_of_lookup? {key : κ} {entries : List (κ × α)} {value : α}
    (found : lookup? key entries = some value) : (key, value) ∈ entries := by
  obtain ⟨entry, first, rfl⟩ := Option.map_eq_some_iff.mp found
  have same : entry.1 = key := by simpa using List.find?_some first
  exact same ▸ List.mem_of_find?_eq_some first

theorem lookup?_cons [DecidableEq κ] (key : κ) (entry : κ × α) (entries : List (κ × α)) :
    lookup? key (entry :: entries) = if entry.1 = key then some entry.2 else lookup? key entries := by
  unfold lookup?
  rw [List.find?_cons]
  split
  · rename_i same
    rw [if_pos (by simpa using same), Option.map_some]
  · rename_i other
    rw [if_neg (by simpa using other)]

theorem lookup?_ne_none {key : κ} {entries : List (κ × α)} :
    lookup? key entries ≠ none ↔ key ∈ entries.map Prod.fst := by
  simp [lookup?]

omit [LawfulBEq κ] in
theorem lookup?_append (key : κ) (first later : List (κ × α)) :
    lookup? key (first ++ later) = (lookup? key first).or (lookup? key later) := by
  rw [lookup?, List.find?_append, Option.map_or]
  rfl

/-- Where no key is repeated, every entry is found. -/
theorem lookup?_of_mem [DecidableEq κ] {key : κ} {value : α} {entries : List (κ × α)}
    (distinct : (entries.map Prod.fst).Nodup) (member : (key, value) ∈ entries) :
    lookup? key entries = some value := by
  induction entries with
  | nil => cases member
  | cons first rest ih =>
    obtain ⟨new, later⟩ := List.nodup_cons.mp distinct
    rw [lookup?_cons]
    rcases List.mem_cons.mp member with rfl | inRest
    · exact if_pos rfl
    · rw [if_neg fun same : first.1 = key => new (same ▸ List.mem_map_of_mem inRest), ih later inRest]

theorem lookup?_filter_ne {key other : κ} (differs : other ≠ key) (entries : List (κ × α)) :
    lookup? other (entries.filter fun entry => entry.1 != key) = lookup? other entries := by
  unfold lookup?
  congr 1
  rw [List.find?_filter]
  congr 1
  funext entry
  by_cases same : entry.1 = other
  · subst same
    simp [differs]
  · simp [same]

/-- Looking up an entry that a function makes of its key. -/
theorem lookup?_filterMap [DecidableEq κ] {keys : List κ} {value? : κ → Option α} {key : κ}
    (member : value? key ≠ none → key ∈ keys) :
    lookup? key (keys.filterMap fun other => (value? other).map (other, ·)) = value? key := by
  induction keys with
  | nil =>
    cases result : value? key with
    | none => rfl
    | some value => cases member (by rw [result]; nofun)
  | cons first rest ih =>
    have later : first ≠ key → value? key ≠ none → key ∈ rest := fun differs isSome =>
      (List.mem_cons.mp (member isSome)).resolve_left (Ne.symm differs)
    cases result : value? first with
    | none =>
      rw [List.filterMap_cons_none (by rw [result]; rfl)]
      refine ih fun isSome => later ?_ isSome
      rintro rfl
      exact isSome result
    | some value =>
      rw [List.filterMap_cons_some (by rw [result]; rfl), lookup?_cons]
      split
      · rename_i same
        rw [← same, result]
      · rename_i differs
        exact ih (later differs)

end Lookup

theorem nodup_eraseDups {α : Type} [BEq α] [LawfulBEq α] (list : List α) :
    list.eraseDups.Nodup := by
  match list with
  | [] => exact List.nodup_nil
  | first :: rest =>
    rw [List.eraseDups_cons, List.nodup_cons, List.mem_eraseDups, List.mem_filter]
    exact ⟨fun ⟨_, differs⟩ => by simp at differs, nodup_eraseDups _⟩
termination_by list.length
decreasing_by exact Nat.lt_succ_of_le (List.length_filter_le _ rest)

theorem eraseDups_of_nodup {α : Type} [BEq α] [LawfulBEq α] {list : List α}
    (distinct : list.Nodup) : list.eraseDups = list := by
  induction list with
  | nil => rfl
  | cons first rest ih =>
    obtain ⟨new, later⟩ := List.nodup_cons.mp distinct
    have others : rest.filter (fun a => !a == first) = rest := by
      refine List.filter_eq_self.mpr fun a member => ?_
      simpa using fun same : a = first => new (same ▸ member)
    rw [List.eraseDups_cons, others, ih later]

end IsaLogic
