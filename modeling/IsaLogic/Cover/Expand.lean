import IsaLogic.Cover.Cube

/-!
# Expanding and thinning a cover

Heuristic two-level minimization. Each cube drops every literal it can while it
stays inside the union of the given cover; then cubes that the others cover are
dropped, the most specific first. Containment is decided on cubes alone: a cube
lies in a cover if the cover, seen from inside the cube, is everything.
-/

namespace IsaLogic.Cube

/-- A cube seen from inside another: the inputs that the other fixes are no
longer mentioned. `none` if the two share no point. -/
def cofactor? : Cube → Cube → Option Cube
  | some b :: cube, some f :: inside =>
    if b = f then (cofactor? cube inside).map (none :: ·) else none
  | none :: cube, some _ :: inside => (cofactor? cube inside).map (none :: ·)
  | b :: cube, none :: inside => (cofactor? cube inside).map (b :: ·)
  | _, _ => some []

/-- The entry of a cube for an input. -/
def entry (cube : Cube) (input : Nat) : Option Bool := (cube[input]?).join

/-- A cube seen from where an input has a value. `none` if it is not there. -/
def restrict? (input : Nat) (value : Bool) (cube : Cube) : Option Cube :=
  if cube.entry input = some !value then none else some (cube.set input none)

/-- How often a cover mentions an input. -/
def mentions (cover : List Cube) (input : Nat) : Nat :=
  cover.countP fun cube => (cube.entry input).isSome

/-- Whether a cover mentions an input in both senses. -/
def isBinate (cover : List Cube) (input : Nat) : Bool :=
  cover.any (fun cube => cube.entry input == some true) &&
    cover.any (fun cube => cube.entry input == some false)

/-- The input to split on: of those mentioned in both senses, the first of the
most mentioned. -/
def splitInput? (cover : List Cube) : Option Nat :=
  let width := match cover with
    | [] => 0
    | cube :: _ => cube.length
  let counted := ((List.range width).filter (isBinate cover)).map fun i => (i, mentions cover i)
  (firstBest? (fun a b => b.2 < a.2) counted).map Prod.fst

/-- The literals of all cubes of a cover. -/
def totalLiterals : List Cube → Nat
  | [] => 0
  | cube :: cover => literals cube + totalLiterals cover

theorem literals_set_none_le (cube : Cube) (input : Nat) :
    literals (cube.set input none) ≤ literals cube := by
  induction cube generalizing input with
  | nil => simp
  | cons b cube ih =>
    cases input with
    | zero =>
      simp only [literals, List.set_cons_zero, List.countP_cons, Option.isSome_none,
        Bool.false_eq_true, if_false]
      omega
    | succ input =>
      have := ih input
      simp only [literals, List.set_cons_succ, List.countP_cons] at this ⊢
      omega

theorem literals_set_none_lt (cube : Cube) (input : Nat) (mentioned : (cube.entry input).isSome) :
    literals (cube.set input none) < literals cube := by
  induction cube generalizing input with
  | nil => simp [entry] at mentioned
  | cons b cube ih =>
    cases input with
    | zero =>
      have some_b : b.isSome = true := by simpa [entry] using mentioned
      simp [literals, some_b]
    | succ input =>
      have := ih input (by simpa [entry] using mentioned)
      simp only [literals, List.set_cons_succ, List.countP_cons] at this ⊢
      omega

theorem totalLiterals_cons (cube : Cube) (cover : List Cube) :
    totalLiterals (cube :: cover) = literals cube + totalLiterals cover :=
  rfl

theorem totalLiterals_restrict_cons (cube : Cube) (cover : List Cube) (input : Nat)
    (value : Bool) :
    totalLiterals ((cube :: cover).filterMap (restrict? input value)) =
      (if cube.entry input = some !value then 0 else literals (cube.set input none)) +
        totalLiterals (cover.filterMap (restrict? input value)) := by
  by_cases dropped : cube.entry input = some !value
  · rw [List.filterMap_cons_none (by simp [restrict?, dropped])]
    simp [dropped]
  · rw [List.filterMap_cons_some (b := cube.set input none) (by simp [restrict?, dropped]),
      totalLiterals_cons]
    simp [dropped]

theorem totalLiterals_restrict_le (cover : List Cube) (input : Nat) (value : Bool) :
    totalLiterals (cover.filterMap (restrict? input value)) ≤ totalLiterals cover := by
  induction cover with
  | nil => simp
  | cons cube cover ih =>
    have := literals_set_none_le cube input
    rw [totalLiterals_restrict_cons, totalLiterals_cons]
    split <;> omega

theorem literals_pos (cube : Cube) (input : Nat) (mentioned : (cube.entry input).isSome) :
    0 < literals cube := by
  have := literals_set_none_lt cube input mentioned
  omega

theorem totalLiterals_restrict_lt {cover : List Cube} {input : Nat} (value : Bool)
    (mentioned : ∃ cube ∈ cover, (cube.entry input).isSome) :
    totalLiterals (cover.filterMap (restrict? input value)) < totalLiterals cover := by
  induction cover with
  | nil => simp at mentioned
  | cons cube cover ih =>
    have rest := totalLiterals_restrict_le cover input value
    have atMost := literals_set_none_le cube input
    have here : (cube.entry input).isSome ∨ ∃ cube ∈ cover, (cube.entry input).isSome := by
      simpa using mentioned
    rw [totalLiterals_restrict_cons, totalLiterals_cons]
    split
    · rename_i dropped
      have := literals_pos cube input (by simp [dropped])
      omega
    · rcases here with here | later
      · have := literals_set_none_lt cube input here
        omega
      · have := ih later
        omega

theorem isBinate_of_splitInput? {cover : List Cube} {input : Nat}
    (found : splitInput? cover = some input) : isBinate cover input = true := by
  simp only [splitInput?, Option.map_eq_some_iff] at found
  obtain ⟨⟨i, count⟩, best, rfl⟩ := found
  have member := mem_of_firstBest? best
  simp only [List.mem_map, List.mem_filter, Prod.mk.injEq] at member
  obtain ⟨j, ⟨_, binate⟩, rfl, _⟩ := member
  exact binate

theorem mentioned_of_splitInput? {cover : List Cube} {input : Nat}
    (found : splitInput? cover = some input) :
    ∃ cube ∈ cover, (cube.entry input).isSome := by
  have binate := isBinate_of_splitInput? found
  simp only [isBinate, Bool.and_eq_true, List.any_eq_true, beq_iff_eq] at binate
  obtain ⟨⟨cube, member, positive⟩, _⟩ := binate
  exact ⟨cube, member, by simp [positive]⟩

/-- Whether the cubes of a cover, all of one width, cover every point. A cover
that mentions no input in both senses does so only by a cube without literals. -/
def isTautology (cover : List Cube) : Bool :=
  if cover.any fun cube => cube.all Option.isNone then true
  else
    match found : splitInput? cover with
    | none => false
    | some input =>
      have := totalLiterals_restrict_lt true (mentioned_of_splitInput? found)
      have := totalLiterals_restrict_lt false (mentioned_of_splitInput? found)
      isTautology (cover.filterMap (restrict? input true)) &&
        isTautology (cover.filterMap (restrict? input false))
termination_by totalLiterals cover

/-- Whether a cube lies inside the union of a cover. -/
def covered (cube : Cube) (cover : List Cube) : Bool :=
  isTautology (cover.filterMap fun other => cofactor? other cube)

/-- Drop the literals of a cube from left to right, each where the cube stays
inside the cover. `done` holds the inputs decided so far. -/
def expand (cover : List Cube) (done : Cube) : Cube → Cube
  | [] => done
  | none :: rest => expand cover (done ++ [none]) rest
  | some value :: rest =>
    if covered (done ++ none :: rest) cover then expand cover (done ++ [none]) rest
    else expand cover (done ++ [some value]) rest

/-- Add the expansion of a cube to a list of expanded cubes, unless it lies in
one of them already; cubes inside the expansion make way for it. -/
def addExpanded (cover found : List Cube) (cube : Cube) : List Cube :=
  if found.any (cube.within ·) then found
  else
    let grown := expand cover [] cube
    found.filter (!·.within grown) ++ [grown]

/-- Drop each cube that the cubes kept before it and those after it cover. -/
def irredundant (kept : List Cube) : List Cube → List Cube
  | [] => kept
  | cube :: rest =>
    if covered cube (kept ++ rest) then irredundant kept rest
    else irredundant (kept ++ [cube]) rest

/-- An irredundant cover by prime cubes of the points that a cover covers. -/
def minimizeCover (cover : List Cube) : List Cube :=
  let expanded := cover.foldl (addExpanded cover) []
  let specificFirst := expanded.mergeSort fun a b => b.literals ≤ a.literals
  (irredundant [] specificFirst).mergeSort fun a b => (compare a b).isLE

end IsaLogic.Cube
