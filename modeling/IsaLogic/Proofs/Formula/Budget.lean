import IsaLogic.Proofs.Formula.TwoLevel
import IsaLogic.Proofs.Term.Order

/-!
# Equivalent forms within a budget

Canonical groups are ascending, so two of them with the same literals are the same
group: the equivalent form repeats no term in a group and no group. What a budget
changes was settled where groups are multiplied out (`Metered`): each formula has a
cost, a budget of at least this cost gives the form that is given without one, and a
smaller budget gives the error that it was exceeded.

Nothing is said here about how large the cost is.
-/

namespace IsaLogic.Formula

section Canonical

variable {groups : List (List Literal)}

/-- The literals of a canonical group ascend. -/
theorem pairwise_canonicalGroups {group : List Literal} (member : group ∈ canonicalGroups groups) :
    group.Pairwise fun a b => compare a b = .lt := by
  obtain ⟨⟨given, _, rfl⟩, _⟩ := mem_canonicalGroups member
  exact pairwise_ascending given

/-- No group of the canonical form repeats a term. -/
theorem nodup_terms_of_canonicalGroups {group : List Literal}
    (member : group ∈ canonicalGroups groups) : (group.map Literal.term).Nodup := by
  have distinct : group.Nodup := nodup_of_pairwise_lt (pairwise_canonicalGroups member)
  have consistent := (mem_canonicalGroups member).2
  apply List.pairwise_map.mpr
  apply distinct.imp_of_mem
  intro literal other isLiteral isOther differ sameTerm
  exact differ (eq_of_not_isContradictory consistent isOther isLiteral sameTerm)

theorem nodup_canonicalGroups (groups : List (List Literal)) : (canonicalGroups groups).Nodup := by
  unfold canonicalGroups
  dsimp only
  split
  · exact List.pairwise_singleton _ []
  · exact nodup_eraseDups _

/-- No group of the canonical form is another one in a different order. -/
theorem pairwise_not_perm_canonicalGroups (groups : List (List Literal)) :
    (canonicalGroups groups).Pairwise fun a b => ¬ a.Perm b := by
  apply (nodup_canonicalGroups groups).imp_of_mem
  intro a b isA isB differ same
  apply differ
  -- of two literals at different places in two orders, each would come before the other
  refine same.eq_of_pairwise (fun l m _ _ before after => ?_) (pairwise_canonicalGroups isA)
    (pairwise_canonicalGroups isB)
  rw [Std.OrientedOrd.eq_swap, before] at after
  cases after

end Canonical

/-- The equivalent form is built from the groups that are multiplied out. -/
theorem equivalentForm_eq (form : TwoLevel) (limit : Option Nat) (f : Formula) :
    f.equivalentForm form limit = (multiplyOut form limit f.nnf.reduce.binary 0).map
      fun emitted => ofGroups form (canonicalGroups emitted.1) := by
  unfold equivalentForm equivalentGroups
  cases multiplyOut form limit f.nnf.reduce.binary 0 <;> rfl

/-- The equivalent form of a formula, conjunctive or disjunctive. Without a budget there always is
one: it is flat, means the formula, repeats no term in a group, and has no group twice, not even in
another order. There is a cost such that every budget of at least this cost gives this very form,
and every smaller one the error that more groups were emitted than it allows; so a budget that
suffices still does when it is raised. -/
theorem equivalentForm_within_budget (form : TwoLevel) (f : Formula) :
    ∃ g cost, f.equivalentForm form none = .ok g ∧ g.isFlat form = true ∧ g.Equivalent f ∧
      (∀ group ∈ g.groups form, (group.map Literal.term).Nodup) ∧
      ((g.groups form).Pairwise fun a b => ¬ a.Perm b) ∧
      ∀ limit, if cost ≤ limit then f.equivalentForm form (some limit) = .ok g
        else ∃ count, limit < count ∧ count ≤ cost ∧
          f.equivalentForm form (some limit) = .error (.sizeExplosion count limit) := by
  obtain ⟨⟨groups, cost⟩, -, -, unbudgeted, budgeted⟩ := metered_rewritten form f
  dsimp only at unbudgeted budgeted
  have answer : f.equivalentForm form none = .ok (ofGroups form (canonicalGroups groups)) := by
    rw [equivalentForm_eq, unbudgeted]
    rfl
  obtain ⟨flat, means, -⟩ := equivalentForm_ok answer
  refine ⟨_, cost, answer, flat, means, ?_, ?_, fun limit => ?_⟩
  · rw [groups_ofGroups form canonicalGroups_alone]
    exact fun group => nodup_terms_of_canonicalGroups
  · rw [groups_ofGroups form canonicalGroups_alone]
    exact pairwise_not_perm_canonicalGroups groups
  · rw [equivalentForm_eq]
    rcases budgeted limit (Nat.zero_le limit) with ⟨within, same⟩ | ⟨count, exceeds, atMost, failed⟩
    · rw [if_pos within, same]
      rfl
    · have tooSmall : ¬ cost ≤ limit := by omega
      rw [if_neg tooSmall, failed]
      exact ⟨count, exceeds, atMost, rfl⟩

end IsaLogic.Formula
