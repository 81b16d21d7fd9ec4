/-
One term of a pattern, replaced by another.

A pattern in which one term has been replaced, at whatever depth, is expanded as before if the new term is: it
has to yield the same texts and to be left out or kept alike, since an alternation of a single term takes over its
mark (`Sequence.Replaces.expand_eq`). The two patterns may be expanded with different rules at hand, as long as
these agree on all that the first pattern refers to.

`Sequence.Replaces` says where the term stands: between other terms of an alternation between other alternations,
perhaps of a group that stands so itself.
-/
import UtteranceGrammar.Proofs.Expansion.Locality
import UtteranceGrammar.Proofs.Pattern.Construction

set_option autoImplicit false

namespace UtteranceGrammar

/-- The second sequence is the first one with one occurrence of the term `t`, at any depth, replaced by `t'`. -/
inductive Sequence.Replaces (t t' : Term) : Sequence → Sequence → Prop where
  | here (gs : Sequence) (ts us : Alternation) (hs : Sequence) :
    Replaces t t' (gs ++ (ts ++ t :: us) :: hs) (gs ++ (ts ++ t' :: us) :: hs)
  | inside {body body' : Sequence} (h : Replaces t t' body body') (optional : Bool) (gs : Sequence)
      (ts us : Alternation) (hs : Sequence) :
    Replaces t t' (gs ++ (ts ++ .group body optional :: us) :: hs)
      (gs ++ (ts ++ .group body' optional :: us) :: hs)

/-! ## Around a term -/

section Around

variable {t t' : Term} {ts us : Alternation} {gs hs : Sequence}

/-- A pattern refers to what the term refers to and to what the pattern without it does. -/
theorem Sequence.mem_references_around {id : Name} :
    id ∈ Sequence.references (gs ++ (ts ++ t :: us) :: hs) ↔
      id ∈ t.references ∨ id ∈ Sequence.references (gs ++ (ts ++ us) :: hs) := by
  simp only [Sequence.references_eq, Alternation.references_eq, List.flatMap_append, List.flatMap_cons,
    List.mem_append]
  grind

/-- The literals of the term are literals of the pattern around it. -/
theorem Sequence.mem_items_around {s : Text} (hmem : s ∈ t.items) :
    s ∈ Sequence.items (gs ++ (ts ++ t :: us) :: hs) := by
  rw [items_append, items, Alternation.items_append, Alternation.items]
  exact List.mem_append_right _ (List.mem_append_left _ (List.mem_append_right _
    (List.mem_append_left _ hmem)))

theorem Sequence.isHollow_around (h : Sequence.isHollow (gs ++ (ts ++ t :: us) :: hs) = false) :
    t.isHollow = false := by
  rw [isHollow, Bool.or_eq_false_iff, anyHollow_append, Bool.or_eq_false_iff, anyHollow,
    Bool.or_eq_false_iff, Bool.or_eq_false_iff, Alternation.anyHollow_append, Bool.or_eq_false_iff,
    Alternation.anyHollow, Bool.or_eq_false_iff] at h
  exact h.2.2.1.2.2.1

/-- A term of an alternation matters to its mark only by its own. -/
theorem Alternation.variants_around (hoptional : t.isOptional = t'.isOptional) (rule : Name) :
    Alternation.variants rule (ts ++ t :: us) = Alternation.variants rule (ts ++ t' :: us) := by
  funext texts
  match ts, us with
  | [], [] => simp only [List.nil_append, Alternation.variants, hoptional]
  | [], _ :: _ => rfl
  | [_], _ => rfl
  | _ :: _ :: _, _ => rfl

variable {lookup lookup' : Lookup} {rule : Name}

/-- Among terms whose references are known alike, one that yields the same can take the place of the other. -/
theorem Alternation.expandEach_around (ht : t.expand lookup rule = t'.expand lookup' rule)
    (href : ∀ id ∈ Alternation.references (ts ++ us), lookup id = lookup' id) :
    Alternation.expandEach lookup rule (ts ++ t :: us) =
      Alternation.expandEach lookup' rule (ts ++ t' :: us) := by
  induction ts with
  | nil =>
    rw [List.nil_append, List.nil_append, Alternation.expandEach, Alternation.expandEach, ht,
      Alternation.expandEach_congr rule us href]
  | cons a ts ih =>
    rw [List.cons_append, Alternation.references, List.forall_mem_append] at href
    rw [List.cons_append, List.cons_append, Alternation.expandEach, Alternation.expandEach,
      Term.expand_congr rule a href.1, ih href.2]

/-- A term between other terms, in an alternation between other alternations, has only its texts and its mark
to tell. -/
theorem Sequence.expandEach_around (hoptional : t.isOptional = t'.isOptional)
    (ht : t.expand lookup rule = t'.expand lookup' rule)
    (href : ∀ id ∈ Sequence.references (gs ++ (ts ++ us) :: hs), lookup id = lookup' id) :
    Sequence.expandEach lookup rule (gs ++ (ts ++ t :: us) :: hs) =
      Sequence.expandEach lookup' rule (gs ++ (ts ++ t' :: us) :: hs) := by
  induction gs with
  | nil =>
    rw [List.nil_append, Sequence.references, List.forall_mem_append] at href
    rw [List.nil_append, List.nil_append, Sequence.expandEach, Sequence.expandEach,
      Alternation.expandEach_around ht href.1, Alternation.variants_around hoptional,
      Sequence.expandEach_congr rule hs href.2]
  | cons g gs ih =>
    rw [List.cons_append, Sequence.references, List.forall_mem_append] at href
    rw [List.cons_append, List.cons_append, Sequence.expandEach, Sequence.expandEach,
      Alternation.expandEach_congr rule g href.1, ih href.2]

end Around

/-! ## Replacing -/

namespace Sequence.Replaces

variable {t t' : Term} {gs gs' : Sequence}

/-- The pattern refers to what the term refers to. -/
theorem mem_references (h : Replaces t t' gs gs') {id : Name} (hid : id ∈ t.references) :
    id ∈ Sequence.references gs := by
  induction h with
  | here gs ts us hs => exact mem_references_around.2 (.inl hid)
  | inside h optional gs ts us hs ih => exact mem_references_around.2 (.inl ih)

/-- The literals of the replaced term are literals of the pattern. -/
theorem mem_items (h : Replaces t t' gs gs') {s : Text} (hmem : s ∈ t.items) :
    s ∈ Sequence.items gs := by
  induction h with
  | here gs ts us hs => exact mem_items_around hmem
  | inside h optional gs ts us hs ih => exact mem_items_around ih

/-- What the new pattern refers to, the old one did or the new term does. -/
theorem mem_or_mem (h : Replaces t t' gs gs') {id : Name} (hid : id ∈ Sequence.references gs') :
    id ∈ Sequence.references gs ∨ id ∈ t'.references := by
  induction h with
  | here gs ts us hs =>
    rcases mem_references_around.1 hid with hid | hid
    · exact .inr hid
    · exact .inl (mem_references_around.2 (.inr hid))
  | inside h optional gs ts us hs ih =>
    rcases mem_references_around.1 hid with hid | hid
    · exact (ih hid).imp_left fun hid => mem_references_around.2 (.inl hid)
    · exact .inl (mem_references_around.2 (.inr hid))

/-- Nothing hollow stands in a pattern that is not. -/
theorem not_hollow (h : Replaces t t' gs gs') (hgs : Sequence.isHollow gs = false) :
    t.isHollow = false := by
  induction h with
  | here gs ts us hs => exact isHollow_around hgs
  | inside h optional gs ts us hs ih => exact ih (isHollow_around hgs)

variable {lookup lookup' : Lookup} {rule : Name}

/-- The two patterns yield the same variants, by induction on how deep the term stands. -/
theorem expandEach_eq (h : Replaces t t' gs gs') (hoptional : t.isOptional = t'.isOptional)
    (ht : t.expand lookup rule = t'.expand lookup' rule)
    (href : ∀ id ∈ Sequence.references gs, lookup id = lookup' id) :
    Sequence.expandEach lookup rule gs = Sequence.expandEach lookup' rule gs' := by
  induction h with
  | here gs ts us hs =>
    apply expandEach_around hoptional ht
    intro id hid
    exact href id (mem_references_around.2 (.inr hid))
  | @inside body body' h optional gs ts us hs ih =>
    -- what is replaced between the other terms is the whole group
    have hbody : Sequence.expandEach lookup rule body = Sequence.expandEach lookup' rule body' := by
      apply ih
      intro id hid
      exact href id (mem_references_around.2 (.inl hid))
    refine expandEach_around (by rfl) ?_ ?_
    · rw [Term.expand, Term.expand, hbody]
    · intro id hid
      exact href id (mem_references_around.2 (.inr hid))

/-- Terms that yield the same can replace each other. -/
theorem expand_eq (h : Replaces t t' gs gs') (hoptional : t.isOptional = t'.isOptional)
    (ht : t.expand lookup rule = t'.expand lookup' rule)
    (href : ∀ id ∈ Sequence.references gs, lookup id = lookup' id) :
    Sequence.expand lookup rule gs = Sequence.expand lookup' rule gs' := by
  rw [Sequence.expand, Sequence.expand, h.expandEach_eq hoptional ht href]

end Sequence.Replaces

end UtteranceGrammar
