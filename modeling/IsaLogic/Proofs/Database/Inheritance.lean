import IsaLogic.Proofs.Database.Exclusion
import IsaLogic.Proofs.Database.Worklist
import IsaLogic.Proofs.Formula.Simplification

/-!
# What expansions inherit

An expansion inherits every property that passes from operands to their connectives: it has it if
the formula, the terms that this leads to and the requirements met on the way have it
(`hereditary_expand`, assembled from one lemma for each kind of derived formula). In particular an
expansion mentions no term that its formula does not lead to, the widths apart
(`mentionsOnly_expand`).
-/

namespace IsaLogic.Database

variable {db : Database} {root : Formula}

section Inherited

variable {property : Formula → Prop} (hereditary : Formula.Hereditary property)

include hereditary

/-- What is derived from a term inherits what the terms and the requirements have. -/
theorem hereditary_contributed {term : Term} {c : Consequence} (reaches : db.Reaches root term)
    (reached : ∀ term, db.Reaches root term → property (.atom term))
    (required : ∀ clause f, db.Requires term clause → clause.compile = .ok f → property f)
    (contributes : db.Contributes term c) : ∀ f ∈ c.derived, property f := by
  have atom := reached term reaches
  cases contributes with
  | requirement requires compiled =>
    exact List.forall_mem_singleton.mpr
      (hereditary.implies atom (required _ _ requires compiled))
  | unlisted _ _ => exact List.forall_mem_singleton.mpr (hereditary.neg atom)
  | unavailable _ _ => exact List.forall_mem_singleton.mpr (hereditary.neg atom)
  | @range ext isRange =>
    have admitted : property (Formula.anyOf ((db.admitted ext).map .atom)) := by
      refine hereditary.anyOf (List.forall_mem_map.mpr fun other member => ?_)
      obtain ⟨version, listed, accepted, rfl⟩ := mem_admitted.mp member
      exact reached _ (.admitted reaches isRange listed accepted)
    refine List.forall_mem_singleton.mpr (hereditary.allOf ?_)
    exact List.forall_mem_cons.mpr ⟨hereditary.implies atom admitted,
      List.forall_mem_singleton.mpr (hereditary.implies admitted atom)⟩
  | nothing _ _ => nofun

theorem hereditary_exclusion {name : String} {versions : List Version}
    (each : ∀ version ∈ versions, property (.atom (.extension (.exact name version)))) :
    property (exclusion name versions) := by
  have atoms := List.forall_mem_map.mpr each
  exact hereditary.anyOf (List.forall_mem_cons.mpr ⟨hereditary.nor atoms,
    List.forall_mem_singleton.mpr (hereditary.oneOf atoms)⟩)

theorem hereditary_relation {visited : List Term}
    (each : ∀ term ∈ visited, property (.atom term)) : ∀ f ∈ relations visited, property f := by
  intro f related
  obtain ⟨term, other, isTerm, isOther, isRelation⟩ := mem_relations.mp related
  obtain ⟨agrees, _, rfl⟩ := Option.map_eq_some_iff.mp isRelation
  refine hereditary.implies (each _ isTerm) ?_
  cases agrees with
  | true => exact each _ isOther
  | false => exact hereditary.neg (each _ isOther)

theorem hereditary_width {visited : List Term}
    (each : (∃ seen, .xlen seen ∈ visited) → ∀ width, property (.atom (.xlen width))) :
    ∀ f ∈ widths visited, property f := by
  intro f isWidth
  obtain ⟨seen, rfl⟩ := mem_widths.mp isWidth
  exact hereditary.oneOf (List.forall_mem_map.mpr fun width _ => each seen width)

/-- An expansion inherits what the formula, the terms that it leads to and the requirements of
these have. If there is a width among the terms, it mentions both widths. -/
theorem hereditary_expand (holds : property root)
    (reached : ∀ term, db.Reaches root term → property (.atom term))
    (width : (∃ seen, db.Reaches root (.xlen seen)) → ∀ width, property (.atom (.xlen width)))
    (required : ∀ term clause f, db.Reaches root term → db.Requires term clause →
      clause.compile = .ok f → property f)
    {f : Formula} (expanded : db.expand root = .ok f) : property f := by
  obtain ⟨visited, _, visits, derived, rfl, members⟩ := expand_spec expanded
  have each : ∀ term ∈ visited, property (.atom term) := fun term member =>
    reached term ((visits term).mp member)
  refine hereditary.allOf (List.forall_mem_cons.mpr ⟨holds, fun f member => ?_⟩)
  rcases (members f).mp member with ⟨term, isVisited, c, contributes, inside⟩ |
    excludes | related | isWidth
  · have reaches := (visits term).mp isVisited
    exact hereditary_contributed hereditary reaches reached
      (fun clause f => required term clause f reaches) (contributes_of_consequence contributes)
      f inside
  · obtain ⟨name, _, rfl⟩ := mem_exclusions.mp excludes
    exact hereditary_exclusion hereditary fun version listed =>
      each _ (mem_listedVersions.mp listed).1
  · exact hereditary_relation hereditary each f related
  · refine hereditary_width hereditary (fun ⟨seen, asked⟩ => ?_) f isWidth
    exact width ⟨seen, (visits _).mp asked⟩

end Inherited

/-- An expansion mentions the terms that its formula leads to, and both widths if one of them is
among these. -/
theorem mentionsOnly_expand {f : Formula} (expanded : db.expand root = .ok f) :
    f.MentionsOnly fun term => db.Reaches root term ∨
      (∃ width, term = .xlen width) ∧ ∃ seen, db.Reaches root (.xlen seen) := by
  refine hereditary_expand (Formula.hereditary_mentionsOnly _)
    (fun term occurs => .inl (.root occurs))
    (fun term reaches => (Formula.mentionsOnly_atom _).mpr (.inl reaches))
    (fun seen width => (Formula.mentionsOnly_atom _).mpr (.inr ⟨⟨width, rfl⟩, seen⟩)) ?_ expanded
  intro term clause f reaches requires compiled other occurs
  exact .inl (.requirement reaches requires compiled occurs)

end IsaLogic.Database
