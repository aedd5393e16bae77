import IsaLogic.Json.Record
import IsaLogic.Proofs.Json.Canonical

/-!
# Structures and maps as they are read

`Json.part?` and `Json.lastField?` say where a part of a structure and the value of a key stand in a
document, whichever way the structure is written and however often the key is repeated. Reading a
structure gives its parts (`parts_of_closedRecord?`), and reading a map gives what is read from
the value of each key (`lookup?_map?`).
-/

namespace IsaLogic.Json

/-- The value of a field of an object; a repeated key stands for its last value. -/
def lastField? (key : String) : Json → Option Json
  | obj fields => lookup? key fields.reverse
  | _ => none

/-- A part of a structure, which is written as an object or as the array of its parts. -/
def part? (name : String) (place : Nat) : Json → Option Json
  | arr items => items[place]?
  | json => json.lastField? name

theorem lookup?_reverse {α : Type} (key : String) (fields : List (String × α)) :
    lookup? key fields.reverse =
      ((fields.filter fun field => field.1 == key).getLast?).map Prod.snd := by
  rw [lookup?, ← List.head?_filter, List.filter_reverse, List.head?_reverse]

theorem parts_of_named? {names : List String} {fields : List (String × Json)}
    {parts : List (Option Json)} (read : named? names fields = some parts) :
    parts = names.map fun name => (obj fields).lastField? name := by
  induction names generalizing parts with
  | nil =>
    cases read
    rfl
  | cons name rest ih =>
    rw [named?, List.mapM_cons] at read
    obtain ⟨part, isPart, further⟩ := Option.bind_eq_some_iff.mp read
    obtain ⟨others, areOthers, whole⟩ := Option.bind_eq_some_iff.mp further
    cases whole
    rw [ih areOthers, List.map_cons, List.cons.injEq]
    refine ⟨?_, rfl⟩
    rw [lastField?, lookup?_reverse]
    split at isPart
    · rename_i absent
      cases isPart
      rw [absent]
      rfl
    · rename_i field single
      cases isPart
      rw [single]
      rfl
    · cases isPart

theorem parts_of_positional? {count : Nat} {items : List Json} {parts : List (Option Json)}
    (read : positional? count items = some parts) :
    parts = (List.range count).map fun place => items[place]? := by
  induction count generalizing items parts with
  | zero =>
    cases items with
    | nil => cases read; rfl
    | cons => cases read
  | succ count ih =>
    rw [List.range_succ_eq_map, List.map_cons, List.map_map]
    cases items with
    | nil =>
      obtain ⟨others, areOthers, rfl⟩ := Option.map_eq_some_iff.mp read
      rw [ih areOthers]
      rfl
    | cons item rest =>
      obtain ⟨others, areOthers, rfl⟩ := Option.map_eq_some_iff.mp read
      rw [ih areOthers]
      rfl

/-- A structure is read by its parts. -/
theorem parts_of_closedRecord? {names : List String} {json : Json} {parts : List (Option Json)}
    (read : json.closedRecord? names = some parts) :
    parts = names.zipIdx.map fun named => json.part? named.1 named.2 := by
  cases json with
  | obj fields =>
    have known : named? names fields = some parts := by
      rw [closedRecord?] at read
      split at read
      · exact read
      · cases read
    calc
      parts = names.map fun name => (obj fields).lastField? name := parts_of_named? known
      _ = (names.zipIdx.map Prod.fst).map fun name => (obj fields).lastField? name := by
        rw [List.zipIdx_map_fst]
      _ = names.zipIdx.map fun named => (obj fields).part? named.1 named.2 := List.map_map ..
  | arr items =>
    rw [parts_of_positional? read, List.range_eq_range', ← List.zipIdx_map_snd 0 names,
      List.map_map]
    rfl
  | null | bool | int | float | str => cases read

section Map

variable {α : Type} {read : Json → Option α} {json : Json} {entries : List (String × α)}

theorem ascendingKeys_map? (isMap : json.map? read = some entries) : AscendingKeys entries := by
  cases json with
  | obj fields =>
    obtain ⟨found, _, whole⟩ := Option.bind_eq_some_iff.mp isMap
    cases whole
    exact ascendingKeys_sortFields found
  | null | bool | int | float | str | arr => cases isMap

/-- A map has the keys that are written, each with what is read from its value. -/
theorem lookup?_map? (isMap : json.map? read = some entries) (key : String) :
    (lookup? key entries).map some = (json.lastField? key).map read := by
  cases json with
  | null | bool | int | float | str | arr => cases isMap
  | obj fields =>
    obtain ⟨found, areFound, whole⟩ := Option.bind_eq_some_iff.mp isMap
    cases whole
    rw [sortFields, lookup?_foldl_insertEntry, List.append_nil, lastField?]
    clear isMap
    induction fields generalizing found with
    | nil =>
      cases areFound
      rfl
    | cons field rest ih =>
      rw [List.mapM_cons] at areFound
      obtain ⟨entry, isEntry, further⟩ := Option.bind_eq_some_iff.mp areFound
      obtain ⟨others, areOthers, whole⟩ := Option.bind_eq_some_iff.mp further
      obtain ⟨value, isValue, rfl⟩ := Option.map_eq_some_iff.mp isEntry
      cases whole
      rw [List.reverse_cons, List.reverse_cons, lookup?_append, lookup?_append, Option.map_or,
        Option.map_or, ih others areOthers, lookup?_cons, lookup?_cons]
      by_cases same : field.1 = key
      · rw [if_pos same, if_pos same, Option.map_some, Option.map_some, isValue]
      · rw [if_neg same, if_neg same]
        rfl

end Map

end IsaLogic.Json
