import Mathlib
import IsaLogic.Cnf.Core
import IsaLogic.Proofs.Ascending
import IsaLogic.Proofs.Cnf.Core
import IsaLogic.Proofs.Computation
import IsaLogic.Proofs.Formula.Fingerprint
import IsaLogic.Proofs.Text.Reading
import IsaLogic.Tool.Adapter

/-!
# Subsets that an extractor lists

An extractor writes each subset as a clause list of its own, and repeats the clauses in its own
way: literals in another order, some of them twice. Its result is cut at the lines that start a
clause list (`Divides`), and the places of a subset are those of clauses with the sets of literals
that its block has (`Locates`). Where clauses of the query have the same set, the first of them
stands for all.

The reader gives exactly these subsets (`readSubsets_eq_ok_iff`). What it refuses is a block that
is no clause list, or a clause that the query does not have (`error_of_readSubset`). It does not
ask whether the subsets are unsatisfiable.

Nothing is assumed of the host that runs the extractor. Whether it can start it, how long it takes
and what it writes are the host's; only what is made of the text is not (`run_ne_toolOutput`).
-/

namespace IsaLogic

namespace Cnf

/-- The sets of literals of some clauses. -/
def literalSets (clauses : List (List Int)) : Finset (Finset Int) :=
  (clauses.map List.toFinset).toFinset

theorem mem_literalSets {clauses : List (List Int)} {literals : Finset Int} :
    literals ∈ literalSets clauses ↔ ∃ clause ∈ clauses, clause.toFinset = literals := by
  rw [literalSets, List.mem_toFinset, List.mem_map]

theorem pairwise_lt_ascending (literals : List Int) : (ascending literals).Pairwise (· < ·) :=
  (pairwise_ascending literals).imp Int.compare_eq_lt.mp

/-- Two clauses have the same ascending literals if they have the same set of literals. -/
theorem ascending_eq_iff {clause other : List Int} :
    ascending clause = ascending other ↔ clause.toFinset = other.toFinset := by
  constructor
  · intro same
    ext literal
    rw [List.mem_toFinset, List.mem_toFinset, ← mem_ascending, same, mem_ascending]
  · intro same
    refine (pairwise_lt_ascending clause).eq_of_mem_iff (pairwise_lt_ascending other) ?_
    intro literal
    rw [mem_ascending, mem_ascending, ← List.mem_toFinset, same, List.mem_toFinset]

section Failures

variable {line : Nat} {state : Partial} {failure : QueryError}

theorem exists_dimacs_of_readProblem {fields : List (List Char)}
    (fails : readProblem line fields = .error failure) :
    ∃ detail, failure = .dimacs line detail := by
  unfold readProblem at fails
  split at fails
  · split at fails
    · split at fails <;> cases fails <;> exact ⟨_, rfl⟩
    · cases fails
      exact ⟨_, rfl⟩
  · cases fails
    exact ⟨_, rfl⟩

theorem exists_dimacs_of_readLiterals {numVars : Nat} {words : List (List Char)}
    (fails : readLiterals line numVars state words = .error failure) :
    ∃ detail, failure = .dimacs line detail := by
  induction words generalizing state with
  | nil => cases fails
  | cons word rest ih =>
    rw [readLiterals] at fails
    split at fails
    · cases fails
      exact ⟨_, rfl⟩
    · split at fails
      · exact ih fails
      · split at fails
        · cases fails
          exact ⟨_, rfl⟩
        · exact ih fails

theorem exists_dimacs_of_readLine {raw : List Char}
    (fails : readLine line state raw = .error failure) :
    ∃ detail, failure = .dimacs line detail := by
  unfold readLine at fails
  split at fails
  · cases fails
  · cases fails
  · cases fails
  · exact exists_dimacs_of_readProblem (error_of_map fails)
  · split at fails
    · cases fails
      exact ⟨_, rfl⟩
    · exact exists_dimacs_of_readLiterals (error_of_map fails)

theorem exists_dimacs_of_readLines {raws : List (List Char)}
    (fails : readLines line state raws = .error failure) :
    ∃ line detail, failure = .dimacs line detail := by
  induction raws generalizing line state with
  | nil => cases fails
  | cons raw rest ih =>
    rw [readLines] at fails
    split at fails
    · rename_i here
      cases fails
      exact ⟨line, exists_dimacs_of_readLine here⟩
    · cases fails
    · exact ih fails

/-- Reading a clause list fails at a line, for a reason of its own. -/
theorem exists_dimacs_of_parse {text : List Char} (fails : parse text = .error failure) :
    ∃ line detail, failure = .dimacs line detail := by
  rcases error_of_bind fails with atLine | ⟨state, atEnd⟩
  · exact exists_dimacs_of_readLines atLine
  · dsimp only at atEnd
    split at atEnd
    · cases atEnd
      exact ⟨0, _, rfl⟩
    · cases atEnd

end Failures

end Cnf

namespace Tool

section Blocks

variable {line : List Char} {lines : List (List Char)} {blocks : List (List (List Char))}

/-- A line that starts a block: after any blanks, `p` and a space. -/
def Heading (line : List Char) : Prop :=
  ∃ blanks rest, line = blanks ++ 'p' :: ' ' :: rest ∧ ∀ c ∈ blanks, Text.isBlank c = true

/-- Lines that go on with the block they stand in. -/
def Continue (lines : List (List Char)) : Prop := ∀ line ∈ lines, ¬ Heading line

/-- A heading and the lines up to the next one. -/
def IsBlock (block : List (List Char)) : Prop :=
  ∃ heading rest, block = heading :: rest ∧ Heading heading ∧ Continue rest

/-- Lines are cut into blocks at the headings. What stands before the first is in no block. -/
structure Divides (lines : List (List Char)) (blocks : List (List (List Char))) : Prop where
  whole : ∃ before, Continue before ∧ lines = before ++ blocks.flatten
  each : ∀ block ∈ blocks, IsBlock block

theorem startsBlock_iff : startsBlock line = true ↔ Heading line := by
  rw [startsBlock, Option.isSome_iff_exists]
  constructor
  · rintro ⟨rest, start⟩
    refine ⟨line.takeWhile Text.isBlank, rest, ?_, fun c => List.mem_takeWhile_imp⟩
    have parted := (List.takeWhile_append_dropWhile (p := Text.isBlank) (l := line)).symm
    rwa [← Text.trimStart, Text.dropStart?_eq_some_iff.mp start] at parted
  · rintro ⟨blanks, rest, rfl, blank⟩
    refine ⟨rest, Text.dropStart?_eq_some_iff.mpr ?_⟩
    rw [Text.trimStart, List.dropWhile_append_of_pos blank]
    exact List.dropWhile_cons_of_neg (by decide)

theorem splitBlocks_cons_of_heading (starts : Heading line) :
    splitBlocks (line :: lines) =
      ([], (line :: (splitBlocks lines).1) :: (splitBlocks lines).2) :=
  if_pos (startsBlock_iff.mpr starts)

theorem splitBlocks_cons (goesOn : ¬ Heading line) :
    splitBlocks (line :: lines) = (line :: (splitBlocks lines).1, (splitBlocks lines).2) :=
  if_neg (mt startsBlock_iff.mp goesOn)

/-- Lines before the next heading are cut off as they are. -/
theorem splitBlocks_append {before : List (List Char)} (goesOn : Continue before) :
    splitBlocks (before ++ lines) =
      (before ++ (splitBlocks lines).1, (splitBlocks lines).2) := by
  induction before with
  | nil => rfl
  | cons line before ih =>
    obtain ⟨noHeading, later⟩ := List.forall_mem_cons.mp goesOn
    rw [List.cons_append, splitBlocks_cons noHeading, ih later, List.cons_append]

theorem splitBlocks_flatten (each : ∀ block ∈ blocks, IsBlock block) :
    splitBlocks blocks.flatten = ([], blocks) := by
  induction blocks with
  | nil => rfl
  | cons block blocks ih =>
    obtain ⟨⟨heading, rest, rfl, starts, goesOn⟩, later⟩ := List.forall_mem_cons.mp each
    rw [List.flatten_cons, List.cons_append, splitBlocks_cons_of_heading starts,
      splitBlocks_append goesOn, ih later, List.append_nil]

theorem splitBlocks_spec (lines : List (List Char)) :
    Continue (splitBlocks lines).1 ∧ (∀ block ∈ (splitBlocks lines).2, IsBlock block) ∧
      lines = (splitBlocks lines).1 ++ (splitBlocks lines).2.flatten := by
  induction lines with
  | nil => exact ⟨nofun, nofun, rfl⟩
  | cons line lines ih =>
    obtain ⟨goesOn, each, whole⟩ := ih
    by_cases starts : Heading line
    · rw [splitBlocks_cons_of_heading starts]
      refine ⟨nofun, List.forall_mem_cons.mpr ⟨⟨line, _, rfl, starts, goesOn⟩, each⟩, ?_⟩
      exact congrArg (line :: ·) whole
    · rw [splitBlocks_cons starts]
      exact ⟨List.forall_mem_cons.mpr ⟨starts, goesOn⟩, each, congrArg (line :: ·) whole⟩

/-- Lines are cut into blocks in one way. -/
theorem divides_iff : Divides lines blocks ↔ blocks = (splitBlocks lines).2 := by
  constructor
  · rintro ⟨⟨before, goesOn, rfl⟩, each⟩
    rw [splitBlocks_append goesOn, splitBlocks_flatten each]
  · rintro rfl
    obtain ⟨goesOn, each, whole⟩ := splitBlocks_spec lines
    exact ⟨⟨_, goesOn, whole⟩, each⟩

/-- The text of a block. -/
def blockText (block : List (List Char)) : List Char := block.flatMap (· ++ ['\n'])

theorem blocks_eq_map (text : List Char) :
    Tool.blocks text = (splitBlocks (Text.lines text)).2.map blockText := rfl

end Blocks

section Places

open Cnf (literalSets mem_literalSets ascending_eq_iff)

variable {clauses listed : List (List Int)} {clause : List Int} {literals : Finset Int}
  {place : Nat} {subset : List Nat}

/-- The set of literals of the clause at a place. -/
def literalsAt? (clauses : List (List Int)) (place : Nat) : Option (Finset Int) :=
  (clauses[place]?).map List.toFinset

/-- The place is that of the first clause with the set of literals. -/
def IsFirst (clauses : List (List Int)) (literals : Finset Int) (place : Nat) : Prop :=
  literalsAt? clauses place = some literals ∧
    ∀ earlier < place, literalsAt? clauses earlier ≠ some literals

theorem literalsAt?_eq_some (inside : place < clauses.length) :
    literalsAt? clauses place = some literals ↔ clauses[place].toFinset = literals := by
  rw [literalsAt?, List.getElem?_eq_getElem inside, Option.map_some, Option.some_inj]

theorem exists_literalsAt? (inside : place < clauses.length) :
    ∃ literals, literalsAt? clauses place = some literals :=
  ⟨_, (literalsAt?_eq_some inside).mpr rfl⟩

theorem lt_of_literalsAt? (isSet : literalsAt? clauses place = some literals) :
    place < clauses.length := by
  obtain ⟨clause, isClause, _⟩ := Option.map_eq_some_iff.mp isSet
  exact (List.getElem?_eq_some_iff.mp isClause).1

theorem IsFirst.unique {other : Nat} (first : IsFirst clauses literals place)
    (otherFirst : IsFirst clauses literals other) : place = other := by
  rcases Nat.lt_trichotomy place other with before | same | after
  · exact absurd first.1 (otherFirst.2 place before)
  · exact same
  · exact absurd otherFirst.1 (first.2 other after)

theorem mem_literalSets_clausesAt : literals ∈ literalSets (Core.clausesAt clauses subset) ↔
    ∃ place ∈ subset, literalsAt? clauses place = some literals := by
  simp only [mem_literalSets, Core.mem_clausesAt, literalsAt?, Option.map_eq_some_iff]
  constructor
  · rintro ⟨clause, ⟨place, member, isClause⟩, isSet⟩
    exact ⟨place, member, clause, isClause, isSet⟩
  · rintro ⟨place, member, clause, isClause, isSet⟩
    exact ⟨clause, ⟨place, member, isClause⟩, isSet⟩

/-- Ascending places of clauses, none of which has a set of literals that an earlier clause has, and
which together have the sets of literals of the block. -/
structure Locates (clauses : List (List Int)) (block : List (List Char)) (subset : List Nat) :
    Prop where
  ascending : subset.Pairwise (· < ·)
  within : ∀ place ∈ subset, place < clauses.length
  first : ∀ place ∈ subset, ∀ earlier < place,
    literalsAt? clauses earlier ≠ literalsAt? clauses place
  sameSets : ∃ listed, Cnf.parse (blockText block) = .ok listed ∧
    literalSets (Core.clausesAt clauses subset) = literalSets listed.clauses

variable {tool : Tool} {cnf : Cnf}

/-- The clause with the same ascending literals is the first one with the same set. -/
theorem findIdx?_eq_some_iff :
    (clauses.findIdx? fun other => ascending other == ascending clause) = some place ↔
      IsFirst clauses clause.toFinset place := by
  rw [List.findIdx?_eq_some_iff_getElem]
  simp only [beq_iff_eq, ascending_eq_iff]
  constructor
  · rintro ⟨inside, here, before⟩
    refine ⟨(literalsAt?_eq_some inside).mpr here, fun earlier isEarlier same => ?_⟩
    exact before earlier isEarlier ((literalsAt?_eq_some (isEarlier.trans inside)).mp same)
  · rintro ⟨here, before⟩
    have inside := lt_of_literalsAt? here
    refine ⟨inside, (literalsAt?_eq_some inside).mp here, fun earlier isEarlier same => ?_⟩
    exact before earlier isEarlier ((literalsAt?_eq_some (isEarlier.trans inside)).mpr same)

theorem findClause_eq_ok_iff :
    tool.findClause cnf clause = .ok place ↔ IsFirst cnf.clauses clause.toFinset place := by
  rw [← findIdx?_eq_some_iff, findClause]
  split
  · rename_i first isFirst
    rw [isFirst, Except.ok.injEq, Option.some_inj]
  · rename_i noPlace
    simp [noPlace]

/-- What is said of a clause that the query does not have. -/
def unlisted (tool : Tool) (clause : List Int) : QueryError :=
  .toolOutput tool.program
    ("clause [" ++ String.intercalate ", " (clause.map toString) ++ "] is not in the input")

theorem error_of_findClause {failure : QueryError}
    (fails : tool.findClause cnf clause = .error failure) :
    clause.toFinset ∉ literalSets cnf.clauses ∧ failure = tool.unlisted clause := by
  rw [findClause] at fails
  split at fails
  · cases fails
  · rename_i noPlace
    cases fails
    refine ⟨fun isSet => ?_, rfl⟩
    obtain ⟨other, member, same⟩ := mem_literalSets.mp isSet
    have differs := List.findIdx?_eq_none_iff.mp noPlace other member
    rw [ascending_eq_iff.mpr same, BEq.rfl] at differs
    cases differs

/-- A block is found at the places that stand for its clauses. -/
theorem readSubset_of_mapM {block : List (List Char)} {listed : Cnf} {places : List Nat}
    (read : Cnf.parse (blockText block) = .ok listed)
    (found : listed.clauses.mapM (tool.findClause cnf) = .ok places) :
    tool.readSubset cnf (blockText block) = .ok (ascending places) := by
  rw [readSubset, read]
  change (listed.clauses.mapM (tool.findClause cnf) >>= _) = _
  rw [found]
  rfl

theorem mem_ascending_places {places : List Nat}
    (found : listed.mapM (tool.findClause cnf) = .ok places) :
    place ∈ ascending places ↔ ∃ clause ∈ listed, IsFirst cnf.clauses clause.toFinset place := by
  simp only [mem_ascending, mem_of_mapM found, findClause_eq_ok_iff]

/-- Where a block is found, its clauses have the sets of literals that the places have. -/
theorem locates_of_readSubset {block : List (List Char)}
    (reads : tool.readSubset cnf (blockText block) = .ok subset) :
    Locates cnf.clauses block subset := by
  obtain ⟨listed, read, finds⟩ := exists_ok_of_bind reads
  obtain ⟨places, found, whole⟩ := exists_ok_of_bind finds
  cases whole
  have placed : ∀ place, place ∈ ascending places ↔
      ∃ clause ∈ listed.clauses, IsFirst cnf.clauses clause.toFinset place :=
    fun _ => mem_ascending_places found
  refine ⟨?ascending, ?within, ?first, listed, read, ?sameSets⟩
  case ascending => exact (pairwise_ascending places).imp Nat.compare_eq_lt.mp
  case within =>
    intro place member
    obtain ⟨clause, _, isFirst⟩ := (placed place).mp member
    exact lt_of_literalsAt? isFirst.1
  case first =>
    intro place member earlier before
    obtain ⟨clause, _, isFirst⟩ := (placed place).mp member
    rw [isFirst.1]
    exact isFirst.2 earlier before
  case sameSets =>
    ext literals
    rw [mem_literalSets_clausesAt, mem_literalSets]
    constructor
    · rintro ⟨place, member, isSet⟩
      obtain ⟨clause, isListed, isFirst⟩ := (placed place).mp member
      exact ⟨clause, isListed, Option.some_inj.mp (isFirst.1.symm.trans isSet)⟩
    · rintro ⟨clause, isListed, rfl⟩
      obtain ⟨place, isFound⟩ := exists_ok_of_mapM found clause isListed
      have isFirst := findClause_eq_ok_iff.mp isFound
      exact ⟨place, (placed place).mpr ⟨clause, isListed, isFirst⟩, isFirst.1⟩

theorem Locates.isFirst {block : List (List Char)} (locates : Locates clauses block subset)
    (member : place ∈ subset) (isSet : literalsAt? clauses place = some literals) :
    IsFirst clauses literals place :=
  ⟨isSet, fun earlier before => isSet ▸ locates.first place member earlier before⟩

/-- There is one list of places at which a block is found. -/
theorem readSubset_of_locates {block : List (List Char)}
    (locates : Locates cnf.clauses block subset) :
    tool.readSubset cnf (blockText block) = .ok subset := by
  obtain ⟨listed, read, sameSets⟩ := locates.sameSets
  have stands : ∀ clause ∈ listed.clauses, ∃ place ∈ subset,
      IsFirst cnf.clauses clause.toFinset place := by
    intro clause isListed
    have isSet := sameSets ▸ mem_literalSets.mpr ⟨clause, isListed, rfl⟩
    obtain ⟨place, member, here⟩ := mem_literalSets_clausesAt.mp isSet
    exact ⟨place, member, locates.isFirst member here⟩
  have finds : ∀ clause ∈ listed.clauses, ∃ place, tool.findClause cnf clause = .ok place :=
    fun clause isListed =>
      (stands clause isListed).imp fun _ isPlace => findClause_eq_ok_iff.mpr isPlace.2
  obtain ⟨places, found⟩ := exists_mapM finds
  have same : ∀ place, place ∈ ascending places ↔ place ∈ subset := by
    intro place
    rw [mem_ascending_places found]
    constructor
    · rintro ⟨clause, isListed, isPlace⟩
      obtain ⟨other, member, isOther⟩ := stands clause isListed
      rwa [isPlace.unique isOther]
    · intro member
      obtain ⟨literals, isSet⟩ := exists_literalsAt? (locates.within place member)
      obtain ⟨clause, isListed, rfl⟩ := mem_literalSets.mp
        (sameSets ▸ mem_literalSets_clausesAt.mpr ⟨place, member, isSet⟩)
      exact ⟨clause, isListed, locates.isFirst member isSet⟩
  rw [readSubset_of_mapM read found]
  refine congrArg Except.ok (List.Pairwise.eq_of_mem_iff ?_ locates.ascending same)
  exact (pairwise_ascending places).imp Nat.compare_eq_lt.mp

theorem readSubset_eq_ok_iff {block : List (List Char)} :
    tool.readSubset cnf (blockText block) = .ok subset ↔ Locates cnf.clauses block subset :=
  ⟨locates_of_readSubset, readSubset_of_locates⟩

/-- A block is refused if it is no clause list, or for a clause that the query does not have. -/
theorem error_of_readSubset {text : List Char} {failure : QueryError}
    (fails : tool.readSubset cnf text = .error failure) :
    (∃ line detail, failure = .dimacs line detail) ∨
      ∃ listed, Cnf.parse text = .ok listed ∧ ∃ clause ∈ listed.clauses,
        clause.toFinset ∉ literalSets cnf.clauses ∧ failure = tool.unlisted clause := by
  cases read : Cnf.parse text with
  | error other =>
    rw [readSubset, read] at fails
    cases fails
    exact .inl (Cnf.exists_dimacs_of_parse read)
  | ok listed =>
    rw [readSubset, read] at fails
    obtain ⟨clause, isListed, failsHere⟩ := error_of_mapM (error_of_bind_pure fails)
    exact .inr ⟨listed, rfl, clause, isListed, error_of_findClause failsHere⟩

end Places

section Extraction

open Cnf (literalSets)

variable {host : Host} {tool : Tool} {cnf : Cnf} {text : List Char}

/-- The subsets are those that a text lists, one for each of its blocks and in their order. -/
def Lists (clauses : List (List Int)) (text : List Char) (subsets : List (List Nat)) : Prop :=
  ∃ blocks, Divides (Text.lines text) blocks ∧ List.Forall₂ (Locates clauses) blocks subsets

/-- Some block of a text has a clause whose set of literals is that of none of the clauses. -/
def Strays (clauses : List (List Int)) (text : List Char) : Prop :=
  ∃ blocks, Divides (Text.lines text) blocks ∧ ∃ block ∈ blocks, ∃ listed,
    Cnf.parse (blockText block) = .ok listed ∧
      ∃ clause ∈ listed.clauses, clause.toFinset ∉ literalSets clauses

theorem readSubsets_eq_ok_iff {subsets : List (List Nat)} :
    tool.readSubsets cnf text = .ok subsets ↔ Lists cnf.clauses text subsets := by
  simp only [Lists, divides_iff, exists_eq_left, readSubsets, blocks_eq_map, mapM_eq_ok_iff,
    List.forall₂_map_left_iff, readSubset_eq_ok_iff]

theorem strays_of_readSubsets {program detail : String}
    (fails : tool.readSubsets cnf text = .error (.toolOutput program detail)) :
    Strays cnf.clauses text := by
  obtain ⟨blockText, isBlock, failsHere⟩ := error_of_mapM fails
  obtain ⟨block, member, rfl⟩ := List.mem_map.mp (blocks_eq_map text ▸ isBlock)
  rcases error_of_readSubset failsHere with ⟨line, cause, isOther⟩ | ⟨listed, read, stray⟩
  · cases isOther
  · obtain ⟨clause, isListed, unknown, _⟩ := stray
    exact ⟨_, divides_iff.mpr rfl, block, member, listed, read, clause, isListed, unknown⟩

theorem exists_io_of_decode {bytes : Bytes} {failure : QueryError}
    (fails : decode bytes = .error failure) : ∃ detail, failure = .io detail := by
  rw [decode] at fails
  split at fails
  · cases fails
  · cases fails
    exact ⟨_, rfl⟩

theorem decode_textBytes (text : String) : decode (Digest.textBytes text) = .ok text.toList := by
  rw [decode, Digest.fromUTF8?_textBytes]

/-- A run of a tool says nothing about the meaning of what was written, whatever the host does. -/
theorem run_ne_toolOutput (host : Host) (tool : Tool) (suffix query program detail : String) :
    host.run tool suffix query ≠ .error (.toolOutput program detail) := by
  intro fails
  have decoded : ∀ bytes : Bytes, decode bytes ≠ .error (.toolOutput program detail) := by
    intro bytes failsHere
    obtain ⟨_, isOther⟩ := exists_io_of_decode failsHere
    cases isOther
  unfold Host.run at fails
  dsimp only at fails
  split at fails
  · cases fails
  · cases fails
  · split at fails
    · cases fails
    · rcases error_of_bind fails with stdout | ⟨_, fails⟩
      · exact decoded _ stdout
      rcases error_of_bind fails with stderr | ⟨_, fails⟩
      · exact decoded _ stderr
      rcases error_of_bind fails with output | ⟨_, fails⟩
      · exact decoded _ output
      · cases fails

theorem extract_of_run {run : ToolRun} (ran : host.run tool "cnf" cnf.text = .ok run)
    (succeeded : run.status = .code 0) :
    host.extract tool cnf = tool.readSubsets cnf run.result := by
  rw [Host.extract, ran]
  exact if_neg (not_not_intro succeeded)

/-- Subsets and what is said of their meaning come from a run that ended well. -/
theorem exists_run_of_extract {answer : Except QueryError (List (List Nat))}
    (answers : host.extract tool cnf = answer)
    (complains : ∀ failure, answer = .error failure →
      ∃ program detail, failure = .toolOutput program detail) :
    ∃ run, host.run tool "cnf" cnf.text = .ok run ∧ run.status = .code 0 ∧
      tool.readSubsets cnf run.result = answer := by
  cases ran : host.run tool "cnf" cnf.text with
  | error failure =>
    have fails : host.extract tool cnf = .error failure := by
      rw [Host.extract, ran]
      rfl
    obtain ⟨program, detail, rfl⟩ := complains failure (answers.symm.trans fails)
    exact absurd ran (run_ne_toolOutput host tool "cnf" cnf.text program detail)
  | ok run =>
    by_cases succeeded : run.status = .code 0
    · exact ⟨run, rfl, succeeded, (extract_of_run ran succeeded).symm.trans answers⟩
    · have fails : host.extract tool cnf = .error (tool.failed cnf.text run) := by
        rw [Host.extract, ran]
        exact if_pos succeeded
      obtain ⟨_, _, isOther⟩ := complains _ (answers.symm.trans fails)
      cases isOther

/-- An extractor's result is mapped back faithfully. Any text is cut into blocks in one way, and is
read as just those subsets that it lists: one for each block in order, each of ascending places that
together have the sets of literals of the clauses of the block. The one complaint about the meaning
of a text is that some block has a clause whose set of literals no clause of the query has. Whatever
programs the host has, an extraction that is answered, or meets with this complaint, comes from a
run that ended well, and its text lists these subsets or has such a clause. -/
theorem extract_faithful (host : Host) (tool : Tool) (cnf : Cnf) :
    (∀ text, (∃! blocks, Divides (Text.lines text) blocks) ∧
      (∀ subsets, tool.readSubsets cnf text = .ok subsets ↔ Lists cnf.clauses text subsets) ∧
      ∀ program detail, tool.readSubsets cnf text = .error (.toolOutput program detail) →
        Strays cnf.clauses text) ∧
    (∀ subsets, host.extract tool cnf = .ok subsets ↔
      ∃ run, host.run tool "cnf" cnf.text = .ok run ∧ run.status = .code 0 ∧
        Lists cnf.clauses run.result subsets) ∧
    ∀ program detail, host.extract tool cnf = .error (.toolOutput program detail) →
      ∃ run, host.run tool "cnf" cnf.text = .ok run ∧ run.status = .code 0 ∧
        Strays cnf.clauses run.result := by
  refine ⟨fun text => ⟨⟨_, divides_iff.mpr rfl, fun _ => divides_iff.mp⟩,
    fun _ => readSubsets_eq_ok_iff, fun _ _ => strays_of_readSubsets⟩, fun subsets => ⟨?_, ?_⟩, ?_⟩
  · intro answers
    obtain ⟨run, ran, succeeded, reads⟩ := exists_run_of_extract answers nofun
    exact ⟨run, ran, succeeded, readSubsets_eq_ok_iff.mp reads⟩
  · rintro ⟨run, ran, succeeded, lists⟩
    rw [extract_of_run ran succeeded, readSubsets_eq_ok_iff.mpr lists]
  · intro program detail fails
    obtain ⟨run, ran, succeeded, reads⟩ := exists_run_of_extract fails
      fun _ same => ⟨program, detail, (Except.error.inj same).symm⟩
    exact ⟨run, ran, succeeded, strays_of_readSubsets reads⟩

/-- A host with one program, which writes a text to the file for the result and ends well. -/
def writing (program text : String) : Host where
  scratch := "/tmp/scratch"
  launch name _ _ _ :=
    if name = program then .ran { status := .code 0, result := some (Digest.textBytes text) }
    else .refused "No such file or directory (os error 2)"

theorem run_writing (tool : Tool) (text suffix query : String) :
    (writing tool.program text).run tool suffix query =
      .ok { status := .code 0, stdout := [], stderr := [], output := text.toList } := by
  have inTime : timesOut tool.timeout none = none := by
    cases tool.timeout <;> rfl
  have nothing : decode [] = .ok [] := by
    have empty : Digest.textBytes "" = [] := Digest.byteArray_toList _
    rw [← empty]
    exact decode_textBytes ""
  simp only [Host.run, writing, if_true, inTime, nothing, Option.getD_some, decode_textBytes]
  rfl

/-- Two blocks after a line of comment. Literals come in another order and twice, and a repeated
clause stands at its first place. A block with a clause of its own is complained about. -/
theorem extract_faithful_reordered :
    let cnf : Cnf := ⟨2, [[1, 2], [-1], [2, 1], [-2]]⟩
    let must : Tool :=
      { program := "must", args := ["-o", "\x7boutput\x7d", "\x7binput\x7d"], timeout := some 60 }
    let listing := "c two\n p cnf 2 3\n-2 0 2 2 1 0\n-1 0\np cnf 2 1\n2 1 0"
    let straying := "p cnf 2 1\n1 0"
    Lists cnf.clauses listing.toList [[0, 1, 3], [0]] ∧ Strays cnf.clauses straying.toList ∧
      (writing "must" listing).extract must cnf = .ok [[0, 1, 3], [0]] ∧
      ∃ run, (writing "must" straying).run must "cnf" cnf.text = .ok run ∧ run.status = .code 0 ∧
        Strays cnf.clauses run.result := by
  intro cnf must listing straying
  have ran : ∀ text, (writing "must" text).run must "cnf" cnf.text =
      .ok { status := .code 0, stdout := [], stderr := [], output := text.toList } :=
    fun text => run_writing must text "cnf" cnf.text
  have resultListing : ToolRun.result ⟨.code 0, [], [], listing.toList⟩ = listing.toList := by cbv
  have resultStraying : ToolRun.result ⟨.code 0, [], [], straying.toList⟩ = straying.toList := by cbv
  have reads : must.readSubsets cnf listing.toList = .ok [[0, 1, 3], [0]] := by cbv
  have stray : must.readSubsets cnf straying.toList =
      .error (.toolOutput "must" "clause [1] is not in the input") := by cbv
  obtain ⟨reading, extracts, _⟩ := extract_faithful (writing "must" listing) must cnf
  have lists := ((reading listing.toList).2.1 _).mp reads
  have strays := (reading straying.toList).2.2 _ _ stray
  have extracted := (extracts _).mpr ⟨_, ran listing, rfl, resultListing.symm ▸ lists⟩
  have complained : (writing "must" straying).extract must cnf =
      .error (.toolOutput "must" "clause [1] is not in the input") := by
    rw [extract_of_run (ran straying) rfl, resultStraying, stray]
  obtain ⟨_, _, complains⟩ := extract_faithful (writing "must" straying) must cnf
  exact ⟨lists, strays, extracted, complains _ _ complained⟩

end Extraction

end Tool

end IsaLogic
