import IsaLogic.Proofs.Formula.Verdict

/-!
# Learning more about the terms

A verdict reached on incomplete knowledge persists when more terms become known,
connective by connective (`verdict_persists`). To know a valuation is to know all there
is to learn, so a decided verdict is the truth value under every valuation that agrees
with what is known (`verdict_final`). Putting in the known terms changes no truth value
of such a valuation (`holds_partialEvaluate`), so what is left of a formula may stand for
the formula from then on.
-/

namespace IsaLogic

namespace Verdict

/-- A decided verdict is not changed by what is learned later. -/
def Persists (before after : Verdict) : Prop := before ≠ maybe → after = before

theorem Persists.refl (verdict : Verdict) : verdict.Persists verdict := fun _ => rfl

theorem persists_maybe (after : Verdict) : maybe.Persists after :=
  fun decided => absurd rfl decided

theorem Persists.negate {before after : Verdict} (persists : before.Persists after) :
    before.negate.Persists after.negate := by
  intro decided
  have wasDecided : before ≠ .maybe := by
    rintro rfl
    exact decided rfl
  rw [persists wasDecided]

theorem Persists.implies {a b laterA laterB : Verdict} (first : a.Persists laterA)
    (second : b.Persists laterB) : (a.implies b).Persists (laterA.implies laterB) := by
  intro decided
  cases a with
  | yes =>
    rw [first nofun]
    cases b with
    | maybe => exact absurd rfl decided
    | yes | no => rw [second nofun]
  | no => rw [first nofun]; rfl
  | maybe =>
    cases b with
    | yes => rw [second nofun]; cases laterA <;> rfl
    | no | maybe => exact absurd rfl decided

section Lists

variable {α : Type} {list : List α} {before after : α → Verdict}

/-- Where no operand is open, nothing is left to learn. -/
theorem map_eq_of_persists (each : ∀ a ∈ list, (before a).Persists (after a))
    (decided : maybe ∉ list.map before) : list.map after = list.map before := by
  refine List.map_congr_left fun a member => each a member fun isOpen => decided ?_
  exact isOpen ▸ List.mem_map_of_mem member

/-- An operand that is decided stays among the results. -/
theorem mem_map_of_persists (each : ∀ a ∈ list, (before a).Persists (after a)) {verdict : Verdict}
    (member : verdict ∈ list.map before) (decided : verdict ≠ maybe) :
    verdict ∈ list.map after := by
  obtain ⟨a, isOperand, rfl⟩ := List.mem_map.mp member
  exact each a isOperand decided ▸ List.mem_map_of_mem isOperand

/-- A connective that one decided operand decides, or else all operands together. -/
theorem persists_of_absorbing {combine : List Verdict → Verdict} {absorbing result : Verdict}
    (early : ∀ results, absorbing ∈ results → combine results = result)
    (late : ∀ results, absorbing ∉ results → maybe ∈ results → combine results = maybe)
    (isDecided : absorbing ≠ maybe) (each : ∀ a ∈ list, (before a).Persists (after a)) :
    (combine (list.map before)).Persists (combine (list.map after)) := by
  intro decided
  by_cases decisive : absorbing ∈ list.map before
  · rw [early _ decisive, early _ (mem_map_of_persists each decisive isDecided)]
  · have allDecided : maybe ∉ list.map before := by
      intro isOpen
      exact decided (late _ decisive isOpen)
    rw [map_eq_of_persists each allDecided]

theorem Persists.all (each : ∀ a ∈ list, (before a).Persists (after a)) :
    (Verdict.all (list.map before)).Persists (Verdict.all (list.map after)) :=
  persists_of_absorbing (fun _ => all_of_no) (fun _ => all_of_maybe) nofun each

theorem Persists.any (each : ∀ a ∈ list, (before a).Persists (after a)) :
    (Verdict.any (list.map before)).Persists (Verdict.any (list.map after)) :=
  persists_of_absorbing (fun _ => any_of_yes) (fun _ => any_of_maybe) nofun each

theorem count_yes_le (each : ∀ a ∈ list, (before a).Persists (after a)) :
    (list.map before).count yes ≤ (list.map after).count yes := by
  rw [List.count_eq_countP, List.count_eq_countP, List.countP_map, List.countP_map]
  refine List.countP_mono_left fun a member holds => ?_
  have wasYes : before a = yes := by simpa using holds
  have isYes : after a = yes := (each a member (by rw [wasYes]; nofun)).trans wasYes
  simp [isYes]

theorem Persists.exactlyOne (each : ∀ a ∈ list, (before a).Persists (after a)) :
    (Verdict.exactlyOne (list.map before)).Persists (Verdict.exactlyOne (list.map after)) := by
  intro decided
  have counted := count_yes_le each
  -- Two operands that hold decide at once; without them every operand has to be decided.
  by_cases several : 2 ≤ (list.map before).count yes
  · have stillSeveral : 2 ≤ (list.map after).count yes := Nat.le_trans several counted
    rw [exactlyOne_of_several several, exactlyOne_of_several stillSeveral]
  · have allDecided : maybe ∉ list.map before := by
      intro isOpen
      exact decided (exactlyOne_of_maybe several isOpen)
    rw [map_eq_of_persists each allDecided]

end Lists

end Verdict

namespace Formula

/-- A verdict on a formula persists when more becomes known of its terms. -/
theorem verdict_persists {known more : Term → Verdict} {f : Formula}
    (learned : f.MentionsOnly fun t => (known t).Persists (more t)) :
    (f.verdict known).Persists (f.verdict more) := by
  induction f using Formula.induct with
  | constant value => exact .refl _
  | atom term => exact (mentionsOnly_atom term).mp learned
  | neg f ih => exact (ih learned).negate
  | conj fs ih =>
    rw [verdict_conj, verdict_conj]
    exact .all fun f member => ih f member ((mentionsOnly_conj fs).mp learned f member)
  | disj fs ih =>
    rw [verdict_disj, verdict_disj]
    exact .any fun f member => ih f member ((mentionsOnly_disj fs).mp learned f member)
  | exactlyOne fs ih =>
    rw [verdict_exactlyOne, verdict_exactlyOne]
    exact .exactlyOne fun f member => ih f member ((mentionsOnly_exactlyOne fs).mp learned f member)
  | noneOf fs ih =>
    rw [verdict_noneOf, verdict_noneOf]
    refine Verdict.Persists.negate (.any fun f member => ih f member ?_)
    exact (mentionsOnly_noneOf fs).mp learned f member
  | implies a b ihA ihB =>
    obtain ⟨inA, inB⟩ := (mentionsOnly_implies a b).mp learned
    exact (ihA inA).implies (ihB inB)

/-- A decided verdict is the truth value under every valuation that agrees with what is known. -/
theorem verdict_persists_ofBool {known : Term → Verdict} {valuation : Term → Bool} {f : Formula}
    (agrees : f.MentionsOnly fun t => (known t).Persists (.ofBool (valuation t))) :
    (f.verdict known).Persists (.ofBool (f.holds valuation)) := by
  have whole : f.verdict (fun t => .ofBool (valuation t)) = .ofBool (f.holds valuation) :=
    verdict_eq_ofBool fun _ _ => rfl
  exact whole ▸ verdict_persists agrees

/-- Verdicts on incomplete knowledge. A decided verdict stays the same when more becomes known of
the terms. Where every term is known, the verdict is decided and is the truth value. So a decided
verdict is the truth value under every valuation that agrees with what is known. -/
theorem verdict_final (f : Formula) (known : Term → Verdict) :
    (∀ more : Term → Verdict, (∀ t ∈ f.terms, known t ≠ .maybe → more t = known t) →
      (f.verdict known = .yes → f.verdict more = .yes) ∧
      (f.verdict known = .no → f.verdict more = .no)) ∧
    ((∀ t ∈ f.terms, known t ≠ .maybe) → f.verdict known ≠ .maybe ∧
      ∀ valuation : Term → Bool, (∀ t ∈ f.terms, valuation t = true ↔ known t = .yes) →
        (f.verdict known = .yes ↔ f.holds valuation = true)) ∧
    ∀ valuation : Term → Bool,
      (∀ t ∈ f.terms, known t ≠ .maybe → known t = .ofBool (valuation t)) →
        (f.verdict known = .yes → f.holds valuation = true) ∧
        (f.verdict known = .no → f.holds valuation = false) := by
  refine ⟨fun more learned => ?_, fun decided => ?_, fun valuation agrees => ?_⟩
  · have persists : (f.verdict known).Persists (f.verdict more) :=
      verdict_persists fun t occurs => learned t (mem_terms.mpr occurs)
    exact ⟨fun isYes => (persists (by rw [isYes]; nofun)).trans isYes,
      fun isNo => (persists (by rw [isNo]; nofun)).trans isNo⟩
  · have exact : ∀ valuation : Term → Bool,
        (∀ t ∈ f.terms, valuation t = true ↔ known t = .yes) →
        f.verdict known = .ofBool (f.holds valuation) := by
      intro valuation matching
      refine verdict_eq_ofBool fun t occurs => ?_
      have listed := mem_terms.mpr occurs
      exact Verdict.eq_ofBool (decided t listed) (matching t listed)
    refine ⟨?_, fun valuation matching => ?_⟩
    · rw [exact (fun t => decide (known t = .yes)) fun t _ => decide_eq_true_iff]
      exact Verdict.ofBool_ne_maybe _
    · rw [exact valuation matching, Verdict.ofBool_eq_yes]
  · have persists : (f.verdict known).Persists (.ofBool (f.holds valuation)) :=
      verdict_persists_ofBool fun t occurs isKnown => (agrees t (mem_terms.mpr occurs) isKnown).symm
    refine ⟨fun isYes => ?_, fun isNo => ?_⟩
    · exact (Verdict.ofBool_eq_yes _).mp ((persists (by rw [isYes]; nofun)).trans isYes)
    · exact (Verdict.ofBool_eq_no _).mp ((persists (by rw [isNo]; nofun)).trans isNo)

/-- Two operands that hold decide that not exactly one does, whatever the third is; then the third
becomes known too. -/
theorem verdict_final_two_hold :
    let f : Formula := .exactlyOne [.atom (.xlen .rv32), .neg (.atom (.xlen .rv64)), .atom (.free 0)]
    let known : Term → Verdict := fun
      | .xlen .rv32 => .yes
      | .xlen .rv64 => .no
      | _ => .maybe
    let more : Term → Verdict := fun t => if t = .free 0 then .yes else known t
    let valuation : Term → Bool := fun t => decide (t = .xlen .rv32 ∨ t = .free 0)
    (∀ t ∈ f.terms, known t ≠ .maybe → more t = known t) ∧
      f.verdict known = .no ∧ f.verdict more = .no ∧
      (∀ t ∈ f.terms, more t ≠ .maybe) ∧ f.verdict more ≠ .maybe ∧
      (∀ t ∈ f.terms, valuation t = true ↔ more t = .yes) ∧
      (f.verdict more = .yes ↔ f.holds valuation = true) ∧
      (∀ t ∈ f.terms, known t ≠ .maybe → known t = .ofBool (valuation t)) ∧
      f.holds valuation = false := by
  intro f known more valuation
  have each : ∀ property : Term → Prop, property (.xlen .rv32) → property (.xlen .rv64) →
      property (.free 0) → ∀ t ∈ f.terms, property t := by
    intro property at32 at64 atFree t member
    have listed : t = .xlen .rv32 ∨ t = .xlen .rv64 ∨ t = .free 0 := by
      simpa [f] using mem_terms.mp member
    rcases listed with rfl | rfl | rfl
    · exact at32
    · exact at64
    · exact atFree
  have learned := each (fun t => known t ≠ .maybe → more t = known t)
    (by decide) (by decide) (by decide)
  have decided := each (fun t => more t ≠ .maybe) (by decide) (by decide) (by decide)
  have matching := each (fun t => valuation t = true ↔ more t = .yes)
    (by decide) (by decide) (by decide)
  have agrees := each (fun t => known t ≠ .maybe → known t = .ofBool (valuation t))
    (by decide) (by decide) (by decide)
  have early : f.verdict known = .no := by decide
  obtain ⟨isDecided, exact⟩ := (verdict_final f more).2.1 decided
  exact ⟨learned, early, ((verdict_final f known).1 more learned).2 early, decided, isDecided,
    matching, exact valuation matching, agrees,
    ((verdict_final f known).2.2 valuation agrees).2 early⟩

section Substitute

variable (known : Term → Verdict)

theorem substitute_conj (fs : List Formula) :
    (conj fs).substitute known = allOf (fs.map (substitute known)) := by
  simp [substitute, fold, foldList_eq_map]

theorem substitute_disj (fs : List Formula) :
    (disj fs).substitute known = anyOf (fs.map (substitute known)) := by
  simp [substitute, fold, foldList_eq_map]

theorem substitute_exactlyOne (fs : List Formula) :
    (exactlyOne fs).substitute known = oneOf (fs.map (substitute known)) := by
  simp [substitute, fold, foldList_eq_map]

theorem substitute_noneOf (fs : List Formula) :
    (noneOf fs).substitute known = nor (fs.map (substitute known)) := by
  simp [substitute, fold, foldList_eq_map]

theorem substitute_neg (f : Formula) : (neg f).substitute known = neg (f.substitute known) := rfl

theorem substitute_implies (a b : Formula) :
    (implies a b).substitute known = implies (a.substitute known) (b.substitute known) := rfl

theorem substitute_atom (term : Term) :
    (atom term).substitute known =
      match known term with
      | .yes => verum
      | .no => falsum
      | .maybe => atom term := rfl

/-- Constants in the place of known terms have the values of these terms. -/
theorem holds_substitute {known : Term → Verdict} {valuation : Term → Bool} {f : Formula}
    (agrees : f.MentionsOnly fun t => (known t).Persists (.ofBool (valuation t))) :
    (f.substitute known).holds valuation = f.holds valuation := by
  induction f using Formula.induct with
  | constant value => rfl
  | atom term =>
    have atTerm := (mentionsOnly_atom term).mp agrees
    rw [substitute_atom, holds_atom]
    cases isKnown : known term with
    | yes =>
      rw [isKnown] at atTerm
      exact ((Verdict.ofBool_eq_yes _).mp (atTerm nofun)).symm
    | no =>
      rw [isKnown] at atTerm
      have fails := atTerm nofun
      cases value : valuation term with
      | true => rw [value] at fails; cases fails
      | false => rfl
    | maybe => rfl
  | neg f ih => rw [substitute_neg, holds_neg, holds_neg, ih agrees]
  | conj fs ih =>
    rw [substitute_conj, holds_allOf, holds_conj, List.all_map]
    exact all_congr_of_mem fun f member => ih f member ((mentionsOnly_conj fs).mp agrees f member)
  | disj fs ih =>
    rw [substitute_disj, holds_anyOf, holds_disj, List.any_map]
    exact any_congr_of_mem fun f member => ih f member ((mentionsOnly_disj fs).mp agrees f member)
  | exactlyOne fs ih =>
    rw [substitute_exactlyOne, holds_oneOf, holds_exactlyOne, List.countP_map]
    exact congrArg (· == 1) (countP_congr_of_mem fun f member =>
      ih f member ((mentionsOnly_exactlyOne fs).mp agrees f member))
  | noneOf fs ih =>
    rw [substitute_noneOf, holds_nor, holds_noneOf, List.any_map]
    exact congrArg not (any_congr_of_mem fun f member =>
      ih f member ((mentionsOnly_noneOf fs).mp agrees f member))
  | implies a b ihA ihB =>
    obtain ⟨inA, inB⟩ := (mentionsOnly_implies a b).mp agrees
    rw [substitute_implies, holds_implies, holds_implies, ihA inA, ihB inB]

theorem Hereditary.substitute {property : Formula → Prop} (hereditary : Hereditary property)
    {f : Formula} (holds : property f) : property (f.substitute known) := by
  induction f using Formula.induct with
  | constant value => exact holds
  | atom term =>
    rw [substitute_atom]
    cases known term with
    | yes => exact hereditary.constant true
    | no => exact hereditary.constant false
    | maybe => exact holds
  | neg f ih => exact hereditary.neg (ih (hereditary.operands holds f (List.mem_singleton.mpr rfl)))
  | conj fs ih =>
    rw [substitute_conj]
    exact hereditary.allOf (map ih (hereditary.operands holds))
  | disj fs ih =>
    rw [substitute_disj]
    exact hereditary.anyOf (map ih (hereditary.operands holds))
  | exactlyOne fs ih =>
    rw [substitute_exactlyOne]
    exact hereditary.oneOf (map ih (hereditary.operands holds))
  | noneOf fs ih =>
    rw [substitute_noneOf]
    exact hereditary.nor (map ih (hereditary.operands holds))
  | implies a b ihA ihB =>
    obtain ⟨holdsA, holdsB⟩ := List.forall_mem_cons.mp (hereditary.operands holds)
    exact hereditary.implies (ihA holdsA) (ihB (holdsB b (List.mem_singleton.mpr rfl)))

/-- What is left of a formula inherits what the formula inherits from its operands. -/
theorem Hereditary.partialEvaluate {property : Formula → Prop} (hereditary : Hereditary property)
    {f : Formula} (holds : property f) : property (f.partialEvaluate known) :=
  hereditary.reduce (hereditary.substitute known holds)

/-- What is left of a formula has its truth value wherever the known terms have theirs. -/
theorem holds_partialEvaluate {known : Term → Verdict} {valuation : Term → Bool} {f : Formula}
    (agrees : f.MentionsOnly fun t => (known t).Persists (.ofBool (valuation t))) :
    (f.partialEvaluate known).holds valuation = f.holds valuation := by
  rw [partialEvaluate, holds_reduce, holds_substitute agrees]

theorem mentionsOnly_partialEvaluate {allowed : Term → Prop} {f : Formula}
    (mentions : f.MentionsOnly allowed) : (f.partialEvaluate known).MentionsOnly allowed :=
  (hereditary_mentionsOnly allowed).partialEvaluate known mentions

end Substitute

end Formula

end IsaLogic
