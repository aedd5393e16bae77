import IsaLogic.Proofs.Cover.Containment
import IsaLogic.Proofs.Term.Order

/-!
# Prime cubes

A cube is prime in a region if it lies inside and none of its literals can be dropped
(`Prime`). Containment is decided exactly, so everything that expanding and thinning leaves
is prime. Where a cube without literals is prime no other cube is, so different primes make
a flat formula (`isFlat_coverFormula`).

A cover by primes has no other way to say that a literal follows from a formula than
the clause of that literal alone (`mem_of_entailed`): where the literal is the only
thing that changes, a covering cube must mention it, and needs nothing else.
-/

namespace IsaLogic

namespace Cube

/-- Without its literal at the input, the cube has a point outside of the region. -/
def Needs (width : Nat) (region : List Bool → Prop) (cube : Cube) (input : Nat) : Prop :=
  ∃ point : List Bool, point.length = width ∧ covers (cube.set input none) point = true ∧
    ¬ region point

/-- A cube inside a region that needs all of its literals. -/
structure Prime (width : Nat) (region : List Bool → Prop) (cube : Cube) : Prop where
  inside : ∀ point : List Bool, point.length = width → cube.covers point = true → region point
  needs : ∀ input value, cube.entry input = some value → Needs width region cube input

section Primes

variable {width : Nat} {region other : List Bool → Prop} {cube : Cube}

theorem Prime.congr (prime : Prime width region cube)
    (same : ∀ point : List Bool, point.length = width → (region point ↔ other point)) :
    Prime width other cube where
  inside point isPoint lies := (same point isPoint).mp (prime.inside point isPoint lies)
  needs input value isEntry := by
    obtain ⟨point, isPoint, lies, outside⟩ := prime.needs input value isEntry
    exact ⟨point, isPoint, lies, fun inside => outside ((same point isPoint).mpr inside)⟩

/-- A literal is needed still when others are dropped. -/
theorem Needs.drop {input : Nat} (needs : Needs width region cube input)
    (isWidth : cube.length = width) (dropped : Nat) :
    Needs width region (cube.set dropped none) input := by
  obtain ⟨point, isPoint, lies, outside⟩ := needs
  refine ⟨point, isPoint, ?_, outside⟩
  have grown : (cube.set dropped none).set input none = (cube.set input none).set dropped none := by
    by_cases same : dropped = input
    · rw [same]
    · exact List.set_comm none none same
  rw [grown]
  exact covers_drop (by simp [isPoint, isWidth]) dropped lies

variable {cover : List Cube}

theorem needs_of_not_covered (widths : OfWidth width cover) (isWidth : cube.length = width)
    {input : Nat} (notCovered : ¬ covered (cube.set input none) cover = true) :
    Needs width (Union cover) cube input := by
  rw [covered_iff (by simpa using isWidth) widths, Inside] at notCovered
  simp only [Classical.not_forall] at notCovered
  obtain ⟨point, isPoint, lies, outside⟩ := notCovered
  exact ⟨point, isPoint, lies, outside⟩

/-- Expanding a cube inside the cover makes it prime: a literal that was needed when its turn
came is needed in the end. -/
theorem prime_expand (widths : OfWidth width cover) (done rest : Cube)
    (isWidth : (done ++ rest).length = width) (inside : Inside width (done ++ rest) cover)
    (decided : ∀ input < done.length, ∀ value, entry (done ++ rest) input = some value →
      Needs width (Union cover) (done ++ rest) input) :
    Prime width (Union cover) (expand cover done rest) := by
  induction rest generalizing done with
  | nil =>
    rw [List.append_nil] at isWidth inside decided
    rw [expand]
    refine ⟨inside, fun input value isEntry => ?_⟩
    exact decided input (input_lt_of_entry (by rw [isEntry]; rfl)) value isEntry
  | cons first rest ih =>
    -- The inputs decided after this step are those before it and the one at this place.
    have next : ∀ entry : Option Bool, (done ++ entry :: rest).length = width →
        Inside width (done ++ entry :: rest) cover →
        (∀ input ≤ done.length, ∀ value, Cube.entry (done ++ entry :: rest) input = some value →
          Needs width (Union cover) (done ++ entry :: rest) input) →
        Prime width (Union cover) (expand cover (done ++ [entry]) rest) := by
      intro entry isWidth inside decided
      refine ih (done ++ [entry]) (by simpa using isWidth) (by simpa using inside) ?_
      intro input isDecided value isEntry
      rw [← List.append_cons] at isEntry ⊢
      exact decided input (by simpa [Nat.lt_succ_iff] using isDecided) value isEntry
    have unmentioned : entry (done ++ none :: rest) done.length = none := by simp [entry]
    have dropped : ∀ value, (done ++ some value :: rest).set done.length none =
        done ++ none :: rest := by simp
    cases first with
    | none =>
      rw [expand]
      refine next none isWidth inside fun input isDecided value isEntry => ?_
      rcases Nat.lt_or_eq_of_le isDecided with before | rfl
      · exact decided input before value isEntry
      · rw [unmentioned] at isEntry
        cases isEntry
    | some value =>
      rw [expand]
      split
      · rename_i isCovered
        have droppedWidth : (done ++ none :: rest).length = width := by simpa using isWidth
        refine next none droppedWidth (inside_of_covered droppedWidth widths isCovered) ?_
        intro input isDecided sign isEntry
        rcases Nat.lt_or_eq_of_le isDecided with before | rfl
        · rw [← dropped value]
          refine (decided input before sign ?_).drop isWidth done.length
          rwa [← dropped value, entry_set_ne (by omega)] at isEntry
        · rw [unmentioned] at isEntry
          cases isEntry
      · rename_i notCovered
        refine next (some value) isWidth inside fun input isDecided sign isEntry => ?_
        rcases Nat.lt_or_eq_of_le isDecided with before | rfl
        · exact decided input before sign isEntry
        · exact needs_of_not_covered widths isWidth (by rwa [dropped value])

theorem mem_foldl_addExpanded {given found : List Cube}
    (member : cube ∈ given.foldl (addExpanded cover) found) :
    cube ∈ found ∨ ∃ origin ∈ given, cube = expand cover [] origin := by
  induction given generalizing found with
  | nil => exact .inl member
  | cons first given ih =>
    rcases ih member with early | ⟨origin, isGiven, rfl⟩
    · unfold addExpanded at early
      split at early
      · exact .inl early
      · rcases List.mem_append.mp early with kept | isGrown
        · exact .inl (List.mem_filter.mp kept).1
        · exact .inr ⟨first, List.mem_cons_self .., List.mem_singleton.mp isGrown⟩
    · exact .inr ⟨origin, List.mem_cons_of_mem _ isGiven, rfl⟩

theorem mem_of_mem_irredundant {kept rest : List Cube} (member : cube ∈ irredundant kept rest) :
    cube ∈ kept ++ rest := by
  induction rest generalizing kept with
  | nil => rwa [List.append_nil]
  | cons first rest ih =>
    rw [irredundant] at member
    split at member
    · have earlier := ih member
      simp only [List.mem_append, List.mem_cons] at earlier ⊢
      exact earlier.imp_right .inr
    · simpa using ih member

/-- Every cube of a minimized cover is prime. -/
theorem prime_of_mem_minimizeCover (widths : OfWidth width cover)
    (member : cube ∈ minimizeCover cover) : Prime width (Union cover) cube := by
  have isExpanded : cube ∈ cover.foldl (addExpanded cover) [] := by
    have thinned := mem_of_mem_irredundant (List.mem_mergeSort.mp member)
    simpa using thinned
  rcases mem_foldl_addExpanded isExpanded with none | ⟨origin, isGiven, rfl⟩
  · cases none
  · refine prime_expand widths [] origin (widths origin isGiven) ?_
      (fun _ outside => nomatch outside)
    exact fun point _ lies => ⟨origin, isGiven, lies⟩

end Primes

section Literals

variable {terms : List Term} {cube : Cube}

theorem toLiterals_of_all_none (complement : Bool) (free : ∀ input, cube.entry input = none) :
    toLiterals terms complement cube = [] := by
  induction cube generalizing terms with
  | nil => rfl
  | cons entry cube ih =>
    cases terms with
    | nil => rfl
    | cons term terms =>
      have here : entry = none := by simpa [Cube.entry] using free 0
      subst here
      exact ih fun input => free (input + 1)

theorem eq_replicate_of_toLiterals_eq_nil {complement : Bool} (isWidth : cube.length = terms.length)
    (noLiterals : toLiterals terms complement cube = []) :
    cube = List.replicate terms.length none := by
  induction cube generalizing terms with
  | nil => rw [← isWidth]; rfl
  | cons entry cube ih =>
    obtain _ | ⟨term, terms⟩ := terms
    · cases isWidth
    cases entry with
    | none => exact congrArg (none :: ·) (ih (by simpa using isWidth) noLiterals)
    | some value => cases noLiterals

/-- A cube with one literal. -/
theorem toLiterals_of_alone (complement : Bool) {input : Nat} {term : Term} {value : Bool}
    (isTerm : terms[input]? = some term) (isEntry : cube.entry input = some value)
    (alone : ∀ other, other ≠ input → cube.entry other = none) :
    toLiterals terms complement cube = [{ term, positive := value != complement }] := by
  induction cube generalizing terms input with
  | nil => cases isEntry
  | cons entry cube ih =>
    obtain _ | ⟨first, terms⟩ := terms
    · cases isTerm
    cases input with
    | zero =>
      have here : entry = some value := by simpa [Cube.entry] using isEntry
      have rest : toLiterals terms complement cube = [] :=
        toLiterals_of_all_none complement fun other => alone (other + 1) (by omega)
      cases isTerm
      subst here
      exact congrArg (_ :: ·) rest
    | succ input =>
      have here : entry = none := by simpa [Cube.entry] using alone 0 (by omega)
      subst here
      exact ih isTerm isEntry fun other differs => alone (other + 1) (by omega)

end Literals

theorem covers_replicate (width : Nat) (point : List Bool) :
    covers (List.replicate width none) point = true := by
  rw [covers, List.all_eq_true]
  rintro ⟨entry, value⟩ member
  rw [List.eq_of_mem_replicate (List.of_mem_zip member).1]
  rfl

/-- A prime cube of a region of all points has no literals. -/
theorem Prime.eq_replicate {width : Nat} {region : List Bool → Prop} {cube : Cube}
    (prime : Prime width region cube) (isWidth : cube.length = width)
    (everywhere : ∀ point : List Bool, point.length = width → region point) :
    cube = List.replicate width none := by
  refine List.eq_replicate_iff.mpr ⟨isWidth, fun entry isEntry => ?_⟩
  obtain ⟨input, inside, here⟩ := List.mem_iff_getElem.mp isEntry
  cases entry with
  | none => rfl
  | some value =>
    obtain ⟨point, isPoint, _, outside⟩ := prime.needs input value (by simp [entry, inside, here])
    exact absurd (everywhere point isPoint) outside

/-- The formula of a cover by different prime cubes is flat. -/
theorem isFlat_coverFormula {terms : List Term} {form : TwoLevel} {cubes : List Cube}
    (widths : OfWidth terms.length cubes) (distinct : cubes.Nodup)
    (primes : ∀ cube ∈ cubes, Prime terms.length (Union cubes) cube) :
    (coverFormula terms form cubes).isFlat form = true := by
  -- A cube without literals covers all points, and no prime other than it has none.
  have alone : ∀ complement, [] ∈ cubes.map (toLiterals terms complement) →
      cubes.map (toLiterals terms complement) = [[]] := by
    intro complement empty
    obtain ⟨cube, member, noLiterals⟩ := List.mem_map.mp empty
    have isFree := eq_replicate_of_toLiterals_eq_nil (widths cube member) noLiterals
    have everywhere : ∀ point : List Bool, point.length = terms.length → Union cubes point :=
      fun point _ => ⟨cube, member, isFree ▸ covers_replicate terms.length point⟩
    have allFree : ∀ other ∈ cubes, other = cube := fun other isOther =>
      ((primes other isOther).eq_replicate (widths other isOther) everywhere).trans isFree.symm
    have single : cubes = [cube] := by
      obtain ⟨first, rest, rfl⟩ := List.exists_cons_of_ne_nil (List.ne_nil_of_mem member)
      have sameFirst := allFree first (List.mem_cons_self ..)
      cases rest with
      | nil => rw [sameFirst]
      | cons second rest =>
        have sameSecond := allFree second (by simp)
        exact absurd distinct (by simp [sameFirst, sameSecond])
    rw [single, List.map_singleton, noLiterals]
  cases form with
  | conjunctive => exact Formula.isFlat_ofGroups_of_alone .conjunctive (alone true)
  | disjunctive => exact Formula.isFlat_ofGroups_of_alone .disjunctive (alone false)

end Cube

/-- Every point is that of a valuation if no term has two inputs. -/
theorem exists_valuation {terms : List Term} (distinct : terms.Nodup) {point : List Bool}
    (isPoint : point.length = terms.length) : ∃ valuation : Term → Bool,
      terms.map valuation = point := by
  induction terms generalizing point with
  | nil => exact ⟨fun _ => false, (List.eq_nil_of_length_eq_zero isPoint).symm⟩
  | cons term terms ih =>
    obtain _ | ⟨value, point⟩ := point
    · simp at isPoint
    obtain ⟨notLater, distinct⟩ := List.nodup_cons.mp distinct
    obtain ⟨valuation, agrees⟩ := ih distinct (by simpa using isPoint)
    refine ⟨fun other => if other = term then value else valuation other, ?_⟩
    rw [List.map_cons, if_pos rfl, ← agrees]
    refine congrArg (value :: ·) (List.map_congr_left fun other member => if_neg ?_)
    rintro rfl
    exact notLater member

/-- A cover by prime cubes has the clause of every literal that follows from the formula. -/
theorem Describes.mem_of_entailed {f : Formula} {cubes : List Cube}
    (describes : Describes .conjunctive f cubes)
    (primes : ∀ cube ∈ cubes, Cube.Prime f.terms.length (Cube.Union cubes) cube)
    (satisfiable : f.Satisfiable) {literal : Literal} (entailed : f.Entails literal.toFormula) :
    [literal] ∈ cubes.map (Cube.toLiterals f.terms true) := by
  have fails : ∀ valuation, literal.holds valuation = false →
      Cube.Union cubes (f.terms.map valuation) := by
    intro valuation opposite
    refine (describes.points valuation).mpr (Bool.eq_false_iff.mpr fun truth => ?_)
    have holds := entailed valuation truth
    rw [Formula.holds_toFormula, opposite] at holds
    cases holds
  obtain ⟨valuation, truth⟩ := satisfiable
  -- Against the literal and otherwise as where the formula holds.
  let opposite : Term → Bool := fun term =>
    if term = literal.term then !literal.positive else valuation term
  have oppositeFails : literal.holds opposite = false := by simp [Literal.holds, opposite]
  obtain ⟨cube, member, covers⟩ := fails opposite oppositeFails
  have width := describes.width cube member
  have notCovers : ¬ cube.covers (f.terms.map valuation) = true := by
    intro lies
    have atTruth := (describes.points valuation).mp ⟨cube, member, lies⟩
    rw [truth] at atTruth
    cases atTruth
  rw [Cube.covers_iff (by simp [width])] at covers notCovers
  simp only [Classical.not_forall] at notCovers
  obtain ⟨input, value, isEntry, differs⟩ := notCovers
  have here := covers input value isEntry
  simp only [List.getElem?_map, Option.map_eq_some_iff] at here differs
  obtain ⟨term, isTerm, atTerm⟩ := here
  have isLiteral : term = literal.term := by
    refine Decidable.byContradiction fun other => differs ⟨term, isTerm, ?_⟩
    simpa [opposite, other] using atTerm
  have isOpposite : value = !literal.positive := by simpa [opposite, isLiteral] using atTerm.symm
  have alone : ∀ other, other ≠ input → cube.entry other = none := by
    intro other isOther
    cases isMentioned : cube.entry other with
    | none => rfl
    | some sign =>
      obtain ⟨point, isPoint, lies, outside⟩ := (primes cube member).needs other sign isMentioned
      obtain ⟨atPoint, rfl⟩ := exists_valuation f.nodup_terms isPoint
      rw [Cube.covers_iff (by simp [width])] at lies
      have kept := lies input value (by rw [Cube.entry_set_ne isOther, isEntry])
      rw [List.getElem?_map, isTerm, Option.map_some, Option.some_inj, isLiteral,
        isOpposite] at kept
      exact absurd (fails atPoint (by simp [Literal.holds, kept])) outside
  refine List.mem_map.mpr ⟨cube, member, ?_⟩
  rw [Cube.toLiterals_of_alone true isTerm isEntry alone, isLiteral, isOpposite]
  simp

end IsaLogic
