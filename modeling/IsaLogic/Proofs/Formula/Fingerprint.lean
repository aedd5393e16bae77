import Mathlib
import IsaLogic.Proofs.Term.RecordText

/-!
# Fingerprints determine formulas

What is hashed for a formula is a tag and parts: the record text of a term, or the
fingerprints of the operands. No tag is the start of another, and every part comes after its
length, so the message tells the tag and the parts (`message_eq_iff`). Hence two formulas
with one fingerprint are equal unless the hash function maps two of the messages hashed for
them to one digest (`eq_of_fingerprintWith_eq`).
-/

namespace IsaLogic

namespace Digest

theorem byteArray_toList_loop (bytes : ByteArray) (index : Nat) (before : List UInt8) :
    ByteArray.toList.loop bytes index before =
      before.reverse ++ bytes.data.toList.drop index := by
  induction index, before using ByteArray.toList.loop.induct bytes with
  | case1 index before inside ih =>
    have here : bytes.data.toList.drop index =
        bytes.data[index] :: bytes.data.toList.drop (index + 1) := by
      rw [List.drop_eq_getElem_cons (by simpa using inside)]
      rfl
    rw [ByteArray.toList.loop, if_pos inside, ih, here]
    simp [ByteArray.get!, inside]
  | case2 index before outside =>
    have nothing : bytes.data.toList.drop index = [] :=
      List.drop_of_length_le (by simpa using outside)
    rw [ByteArray.toList.loop, if_neg outside, nothing, List.append_nil]

theorem byteArray_toList (bytes : ByteArray) : bytes.toList = bytes.data.toList :=
  byteArray_toList_loop bytes 0 []

/-- The bytes of a text are read back as the text. -/
theorem fromUTF8?_textBytes (text : String) :
    String.fromUTF8? (ByteArray.mk (textBytes text).toArray) = some text := by
  have whole : ByteArray.mk (textBytes text).toArray = text.toByteArray := by
    rw [textBytes, byteArray_toList, Array.toArray_toList]
    rfl
  rw [whole, String.fromUTF8?, dif_pos text.isValidUTF8]
  rfl

/-- The bytes of a text determine it. -/
theorem textBytes_injective : Function.Injective textBytes := by
  intro left right same
  have read := fromUTF8?_textBytes left
  rw [same, fromUTF8?_textBytes right] at read
  exact (Option.some_inj.mp read).symm

theorem length_lengthBytes (n : Nat) : (lengthBytes n).length = 8 := by
  simp [lengthBytes]

/-- Eight bytes tell lengths below `2 ^ 64` apart. -/
theorem lengthBytes_inj {m n : Nat} (fits : m < 2 ^ 64) (fits' : n < 2 ^ 64)
    (same : lengthBytes m = lengthBytes n) : m = n := by
  have digits : ∀ i < 8, m / 256 ^ i % 256 = n / 256 ^ i % 256 := by
    intro i small
    have bytes := congrArg (fun bytes => (bytes[i]?).map UInt8.toNat) same
    simpa [lengthBytes, small] using bytes
  -- from the most significant byte down, the numbers without the bytes below agree
  have quotients : ∀ i ≤ 8, m / 256 ^ (8 - i) = n / 256 ^ (8 - i) := by
    intro i small
    induction i with
    | zero =>
      rw [Nat.div_eq_of_lt (a := m) (by simpa using fits),
        Nat.div_eq_of_lt (a := n) (by simpa using fits')]
    | succ i ih =>
      have here := digits (8 - (i + 1)) (by omega)
      have above := ih (by omega)
      rw [show 8 - i = 8 - (i + 1) + 1 by omega, Nat.pow_succ, ← Nat.div_div_eq_div_mul,
        ← Nat.div_div_eq_div_mul] at above
      omega
  simpa using quotients 8 (by omega)

/-- A part after its length. -/
def framed (part : Bytes) : Bytes := lengthBytes part.length ++ part

/-- A part that fits its length is cut out of what it starts. -/
theorem framed_append_inj {left right rest other : Bytes} (fits : left.length < 2 ^ 64)
    (fits' : right.length < 2 ^ 64) (same : framed left ++ rest = framed right ++ other) :
    left = right ∧ rest = other := by
  simp only [framed, List.append_assoc] at same
  obtain ⟨lengths, parts⟩ := List.append_inj same (by simp only [length_lengthBytes])
  exact List.append_inj parts (lengthBytes_inj fits fits' lengths)

/-- Two lists of parts never run together. -/
theorem flatMap_framed_inj {left right : List Bytes} (fits : ∀ part ∈ left, part.length < 2 ^ 64)
    (fits' : ∀ part ∈ right, part.length < 2 ^ 64)
    (same : left.flatMap framed = right.flatMap framed) : left = right := by
  have longer : ∀ (part rest : Bytes), framed part ++ rest ≠ [] := by
    intro part rest empty
    have lengths := congrArg List.length empty
    simp only [framed, List.length_append, length_lengthBytes, List.length_nil] at lengths
    omega
  induction left generalizing right with
  | nil =>
    cases right with
    | nil => rfl
    | cons part right => exact absurd same.symm (longer part _)
  | cons part left ih =>
    cases right with
    | nil => exact absurd same (longer part _)
    | cons other right =>
      rw [List.flatMap_cons, List.flatMap_cons] at same
      obtain ⟨rfl, later⟩ := framed_append_inj (fits part (List.mem_cons_self ..))
        (fits' other (List.mem_cons_self ..)) same
      rw [ih (fun part member => fits part (List.mem_cons_of_mem _ member))
        (fun part member => fits' part (List.mem_cons_of_mem _ member)) later]

/-- The tags under which formulas are hashed. -/
def tags : List String := ["true", "false", "term", "not", "and", "or", "xor", "none", "if"]

/-- No tag is the start of another. -/
theorem eq_of_start :
    ∀ tag ∈ tags, ∀ other ∈ tags, textBytes tag <+: textBytes other → tag = other := by
  decide +kernel

/-- A message tells its tag and the bytes of its parts. -/
theorem message_inj {tag other : String} {left right : List Bytes} (isTag : tag ∈ tags)
    (isTag' : other ∈ tags) (same : message tag left = message other right) :
    tag = other ∧ left.flatMap framed = right.flatMap framed := by
  change textBytes tag ++ left.flatMap framed = textBytes other ++ right.flatMap framed at same
  have sameTag : tag = other := by
    rcases List.append_eq_append_iff.mp same with ⟨more, longer, -⟩ | ⟨more, longer, -⟩
    · exact eq_of_start tag isTag other isTag' ⟨more, longer.symm⟩
    · exact (eq_of_start other isTag' tag isTag ⟨more, longer.symm⟩).symm
  subst sameTag
  exact ⟨rfl, List.append_cancel_left same⟩

end Digest

theorem Sha256.length_digest (message : Bytes) : (Sha256.digest message).length = 32 := by
  simp [digest, ofWord]

namespace Formula

open Digest

/-- What is known of a formula if it is known of its operands holds of all formulas. -/
@[elab_as_elim]
theorem induct_operands {motive : Formula → Prop}
    (step : ∀ f, (∀ g ∈ f.operands, motive g) → motive f) : ∀ f, motive f := by
  intro f
  induction f using Formula.induct with
  | constant value => exact step _ nofun
  | atom term => exact step _ nofun
  | neg f ih => exact step _ (by simpa [operands] using ih)
  | conj fs ih => exact step _ ih
  | disj fs ih => exact step _ ih
  | exactlyOne fs ih => exact step _ ih
  | noneOf fs ih => exact step _ ih
  | implies a b ihA ihB => exact step _ (by simpa [operands] using ⟨ihA, ihB⟩)

/-- The tag under which a formula is hashed. -/
def tag : Formula → String
  | .constant true => "true"
  | .constant false => "false"
  | .atom _ => "term"
  | .neg _ => "not"
  | .conj _ => "and"
  | .disj _ => "or"
  | .exactlyOne _ => "xor"
  | .noneOf _ => "none"
  | .implies _ _ => "if"

/-- What is hashed below the tag: the text of a term, or the fingerprints of the operands. -/
def partsWith (hash : Bytes → Bytes) : Formula → List Bytes
  | .atom term => [textBytes term.recordText]
  | f => f.operands.map (fingerprintWith hash)

/-- The message whose digest is the fingerprint of a formula. -/
def messageWith (hash : Bytes → Bytes) (f : Formula) : Bytes := message f.tag (f.partsWith hash)

/-- One formula is another one or a part of it. -/
inductive Within : Formula → Formula → Prop where
  | self (f : Formula) : Within f f
  | operand {f g h : Formula} (member : g ∈ h.operands) (within : Within f g) : Within f h

/-- The messages that are hashed for the fingerprints of some formulas. -/
def hashedFor (hash : Bytes → Bytes) (formulas : Set Formula) : Set Bytes :=
  { message | ∃ f ∈ formulas, ∃ part, Within part f ∧ part.messageWith hash = message }

variable {hash : Bytes → Bytes}

theorem fingerprintWith_eq (f : Formula) :
    f.fingerprintWith hash = hash (f.messageWith hash) := by
  cases f with
  | constant value => cases value <;> rfl
  | atom term => rfl
  | neg f => rfl
  | conj fs => simp [fingerprintWith, fold, foldList_eq_map, messageWith, tag, partsWith, operands,
      taggedWith]
  | disj fs => simp [fingerprintWith, fold, foldList_eq_map, messageWith, tag, partsWith, operands,
      taggedWith]
  | exactlyOne fs => simp [fingerprintWith, fold, foldList_eq_map, messageWith, tag, partsWith,
      operands, taggedWith]
  | noneOf fs => simp [fingerprintWith, fold, foldList_eq_map, messageWith, tag, partsWith,
      operands, taggedWith]
  | implies a b => rfl

theorem tag_mem_tags (f : Formula) : f.tag ∈ tags := by
  cases f with
  | constant value => cases value <;> decide
  | _ => simp only [tag]; decide

/-- Formulas of different kinds have different tags. -/
theorem tag_eq_iff (f g : Formula) : f.tag = g.tag ↔ f.rank = g.rank := by
  rcases f with (_ | _) | _ | _ | _ | _ | _ | _ | _ <;>
    rcases g with (_ | _) | _ | _ | _ | _ | _ | _ | _ <;> simp [tag, rank]

theorem exists_atom_of_rank {f : Formula} {term : Term} (sameRank : (Formula.atom term).rank = f.rank) :
    ∃ other, f = .atom other := by
  rcases f with (_ | _) | _ | _ | _ | _ | _ | _ | _ <;> simp_all [rank]

theorem partsWith_of_not_atom {f : Formula} (notTerm : ∀ term, f ≠ .atom term) :
    f.partsWith hash = f.operands.map (fingerprintWith hash) := by
  cases f with
  | atom term => exact absurd rfl (notTerm term)
  | _ => rfl

/-- The parts of a formula that is not a term are digests. -/
theorem length_lt_of_mem_partsWith (short : ∀ message, (hash message).length < 2 ^ 64)
    {f : Formula} (notTerm : ∀ term, f ≠ .atom term) :
    ∀ part ∈ f.partsWith hash, part.length < 2 ^ 64 := by
  rw [partsWith_of_not_atom notTerm, List.forall_mem_map]
  intro g _
  rw [fingerprintWith_eq]
  exact short _

/-- The message of a formula tells its kind and its parts, and nothing else. A term has one part of
any length, all other parts are digests. -/
theorem message_eq_iff (short : ∀ message, (hash message).length < 2 ^ 64) (f g : Formula) :
    f.messageWith hash = g.messageWith hash ↔
      f.rank = g.rank ∧ f.partsWith hash = g.partsWith hash := by
  constructor
  · intro same
    obtain ⟨sameTag, framed⟩ := message_inj (tag_mem_tags f) (tag_mem_tags g) same
    have sameRank := (tag_eq_iff f g).mp sameTag
    refine ⟨sameRank, ?_⟩
    by_cases isTerm : ∃ term, f = .atom term
    · obtain ⟨term, rfl⟩ := isTerm
      obtain ⟨other, rfl⟩ := exists_atom_of_rank sameRank
      simp only [partsWith, List.flatMap_cons, List.flatMap_nil, List.append_nil] at framed ⊢
      rw [(List.append_inj framed (by simp only [length_lengthBytes])).2]
    · have notTerm : ∀ term, f ≠ .atom term := fun term is => isTerm ⟨term, is⟩
      have notTerm' : ∀ term, g ≠ .atom term := by
        rintro term rfl
        exact isTerm (exists_atom_of_rank sameRank.symm)
      exact flatMap_framed_inj (length_lt_of_mem_partsWith short notTerm)
        (length_lt_of_mem_partsWith short notTerm') framed
  · rintro ⟨sameRank, sameParts⟩
    rw [messageWith, messageWith, (tag_eq_iff f g).mpr sameRank, sameParts]

/-- Kind and operands make up a formula that is not a term. -/
theorem eq_of_operands_eq {f g : Formula} (sameRank : f.rank = g.rank)
    (notTerm : ∀ term, f ≠ .atom term) (sameOperands : f.operands = g.operands) : f = g := by
  rcases f with (_ | _) | _ | _ | _ | _ | _ | _ | _ <;>
    rcases g with (_ | _) | _ | _ | _ | _ | _ | _ | _ <;> simp_all [rank, operands]

/-- Lists of formulas are equal if they agree in what tells their members apart. -/
theorem eq_of_map_eq {β : Type} {key : Formula → β} {fs gs : List Formula}
    (apart : ∀ f ∈ fs, ∀ g ∈ gs, key f = key g → f = g) (same : fs.map key = gs.map key) :
    fs = gs := by
  have lengths : fs.length = gs.length := by simpa using congrArg List.length same
  refine List.ext_getElem lengths fun i inFs inGs => ?_
  apply apart _ (List.getElem_mem inFs) _ (List.getElem_mem inGs)
  simpa [inFs, inGs] using congrArg (fun keys => keys[i]?) same

/-- Formulas with one fingerprint are equal, if no two of the messages hashed for them have one
digest. -/
theorem eq_of_fingerprintWith_eq {hashed : Set Bytes}
    (short : ∀ message, (hash message).length < 2 ^ 64) (injective : Set.InjOn hash hashed)
    (f : Formula) : ∀ g : Formula, (∀ part, Within part f → part.messageWith hash ∈ hashed) →
      (∀ part, Within part g → part.messageWith hash ∈ hashed) →
      f.fingerprintWith hash = g.fingerprintWith hash → f = g := by
  induction f using induct_operands with
  | step f ih =>
    intro g inF inG same
    rw [fingerprintWith_eq, fingerprintWith_eq] at same
    obtain ⟨sameRank, sameParts⟩ := (message_eq_iff short f g).mp
      (injective (inF f (.self f)) (inG g (.self g)) same)
    by_cases isTerm : ∃ term, f = .atom term
    · obtain ⟨term, rfl⟩ := isTerm
      obtain ⟨other, rfl⟩ := exists_atom_of_rank sameRank
      have texts := textBytes_injective (List.singleton_inj.mp sameParts)
      rw [Term.recordText_injective texts]
    · have notTerm : ∀ term, f ≠ .atom term := fun term is => isTerm ⟨term, is⟩
      have notTerm' : ∀ term, g ≠ .atom term := by
        rintro term rfl
        exact isTerm (exists_atom_of_rank sameRank.symm)
      rw [partsWith_of_not_atom notTerm, partsWith_of_not_atom notTerm'] at sameParts
      apply eq_of_operands_eq sameRank notTerm
      apply eq_of_map_eq _ sameParts
      intro operand member other member' sameOperand
      exact ih operand member other (fun part within => inF part (.operand member within))
        (fun part within => inG part (.operand member' within)) sameOperand

/-- If SHA-256 has no collision among the messages hashed for some formulas, no two of them share a
fingerprint. -/
theorem injOn_fingerprint {formulas : Set Formula}
    (injective : Set.InjOn Sha256.digest (hashedFor Sha256.digest formulas)) :
    Set.InjOn fingerprint formulas := by
  have short : ∀ message, (Sha256.digest message).length < 2 ^ 64 := by
    intro message
    rw [Sha256.length_digest]
    decide
  intro f inF g inG same
  exact eq_of_fingerprintWith_eq short injective f g
    (fun part within => ⟨f, inF, part, within, rfl⟩)
    (fun part within => ⟨g, inG, part, within, rfl⟩) same

/-- Formulas with all their operands have no other parts. -/
theorem Within.mem_of_closed {formulas : Set Formula}
    (closed : ∀ f ∈ formulas, ∀ operand ∈ f.operands, operand ∈ formulas) {f part : Formula}
    (within : Within part f) (member : f ∈ formulas) : part ∈ formulas := by
  induction within with
  | self => exact member
  | operand isOperand _ ih => exact ih (closed _ member _ isOperand)

/-- The width of 32 bits. -/
def narrow : Formula := .atom (.xlen .rv32)

/-- SHA-256 has no collision among the messages hashed for a width, its negation and truth. -/
theorem injOn_narrow : Set.InjOn Sha256.digest
    (hashedFor Sha256.digest { f | f ∈ [verum, narrow, narrow.neg] }) := by
  have apart : ∀ f ∈ [verum, narrow, narrow.neg], ∀ g ∈ [verum, narrow, narrow.neg],
      Sha256.digest (f.messageWith Sha256.digest) = Sha256.digest (g.messageWith Sha256.digest) →
        f = g := by
    decide +kernel
  have closed : ∀ f ∈ { f | f ∈ [verum, narrow, narrow.neg] }, ∀ operand ∈ f.operands,
      operand ∈ { f | f ∈ [verum, narrow, narrow.neg] } := by
    simp [operands, narrow]
  rintro _ ⟨f, isF, part, inF, rfl⟩ _ ⟨g, isG, other, inG, rfl⟩ same
  rw [apart part (inF.mem_of_closed closed isF) other (inG.mem_of_closed closed isG) same]

/-- Where SHA-256 is injective, a fingerprint identifies a formula: over any set of formulas, the
fingerprints of two are equal exactly if the formulas are. What is hashed tells the kind of a
formula and its parts, and the record text of a term tells the term. -/
theorem fingerprint_identifies (formulas : Set Formula)
    (injective : Set.InjOn Sha256.digest (hashedFor Sha256.digest formulas)) :
    (∀ f ∈ formulas, ∀ g ∈ formulas, f.fingerprint = g.fingerprint ↔ f = g) ∧
      (∀ f g : Formula, f.messageWith Sha256.digest = g.messageWith Sha256.digest ↔
        f.rank = g.rank ∧ f.partsWith Sha256.digest = g.partsWith Sha256.digest) ∧
      Function.Injective Term.recordText := by
  refine ⟨fun f inF g inG => ?_, message_eq_iff fun message => ?_, Term.recordText_injective⟩
  · constructor
    · exact injOn_fingerprint injective inF inG
    · exact congrArg fingerprint
  · rw [Sha256.length_digest]
    decide

theorem fingerprint_identifies_narrow :
    narrow.fingerprint = narrow.neg.fingerprint ↔ narrow = narrow.neg :=
  (fingerprint_identifies { f | f ∈ [verum, narrow, narrow.neg] } injOn_narrow).1
    narrow (by simp) narrow.neg (by simp)

end Formula

end IsaLogic
