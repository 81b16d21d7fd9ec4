/-
Patterns that are put together by the operations on expressions.

An operation never makes a list of parts from nothing: an alternation starts as one term, a sequence as
one alternation, and both only grow. So nothing hollow can be built (`Expression.Built.isHollow_eq`), and
the literal texts in what is built are those that it was built from (`Expression.Built.free`).

Both facts are read off the expression as a sequence, which every expression is. That is why what an
operation does to a term or to an alternation is first said of the sequence.
-/
import UtteranceGrammar.Pattern.Expression
import UtteranceGrammar.Proofs.Pattern.Shape
import UtteranceGrammar.Proofs.Markup.Forest

set_option autoImplicit false

namespace UtteranceGrammar

namespace Expression

/-- Expressions made of references and of literal texts without marks by the operations alone. -/
inductive Built : Expression → Prop where
  | literals (items : List Text) (h : ∀ s ∈ items, Markup.Free s) : Built (term (.literals items false))
  | reference (id : Name) : Built (term (.reference id false))
  | group {e : Expression} (h : Built e) : Built e.toGroup
  | optional {e e' : Expression} (h : Built e) (he : e.asOptional? = some e') : Built e'
  | or {l r e : Expression} (hl : Built l) (hr : Built r) (he : l.or? r = some e) : Built e
  | andThen {l r e : Expression} (hl : Built l) (hr : Built r) (he : l.andThen? r = some e) : Built e

end Expression

/-! ## The shape of what is appended -/

/-- A term that may be left out is as hollow as it was. -/
theorem Term.isHollow_asOptional (t : Term) : t.asOptional.isHollow = t.isHollow := by
  cases t <;> rfl

theorem Term.items_asOptional (t : Term) : t.asOptional.items = t.items := by
  cases t <;> rfl

/-- Terms one after the other are hollow if one of either part is. -/
theorem Alternation.anyHollow_append (ts us : List Term) :
    Alternation.anyHollow (ts ++ us) = (Alternation.anyHollow ts || Alternation.anyHollow us) := by
  induction ts with
  | nil => rfl
  | cons t ts ih => rw [List.cons_append, anyHollow, anyHollow, ih, Bool.or_assoc]

/-- The literals of terms one after the other. -/
theorem Alternation.items_append (ts us : List Term) :
    Alternation.items (ts ++ us) = Alternation.items ts ++ Alternation.items us := by
  induction ts with
  | nil => rfl
  | cons t ts ih => rw [List.cons_append, items, items, ih, List.append_assoc]

theorem Sequence.anyHollow_append (gs hs : List (List Term)) :
    Sequence.anyHollow (gs ++ hs) = (Sequence.anyHollow gs || Sequence.anyHollow hs) := by
  induction gs with
  | nil => rfl
  | cons g gs ih => rw [List.cons_append, anyHollow, anyHollow, ih, ← Bool.or_assoc]

/-- The literals of alternations one after the other. -/
theorem Sequence.items_append (gs hs : List (List Term)) :
    Sequence.items (gs ++ hs) = Sequence.items gs ++ Sequence.items hs := by
  induction gs with
  | nil => rfl
  | cons g gs ih => rw [List.cons_append, items, items, ih, List.append_assoc]

/-- Sequences that are not hollow can be put one after the other. -/
theorem Sequence.isHollow_append (gs hs : Sequence) (hgs : gs.isHollow = false)
    (hhs : hs.isHollow = false) : Sequence.isHollow (gs ++ hs) = false := by
  rw [isHollow, Bool.or_eq_false_iff] at hgs hhs ⊢
  refine ⟨?_, ?_⟩
  · exact List.isEmpty_eq_false_iff.2 (List.append_ne_nil_of_left_ne_nil (List.isEmpty_eq_false_iff.1 hgs.1) hs)
  · rw [anyHollow_append, hgs.2, hhs.2, Bool.or_false]

/-- A single alternation is as hollow as its terms, unless it has none. -/
theorem Sequence.isHollow_singleton (ts : Alternation) :
    Sequence.isHollow [ts] = (ts.isEmpty || Alternation.anyHollow ts) := by
  rw [isHollow, anyHollow, anyHollow, Bool.or_false]
  rfl

theorem Sequence.items_singleton (ts : Alternation) :
    Sequence.items [ts] = Alternation.items ts := by
  rw [items, items, List.append_nil]

/-! ## The operations -/

namespace Expression

/-- What can be taken as an alternation is a sequence of just that. -/
theorem toSequence_of_toAlternation? {e : Expression} {ts : Alternation}
    (h : e.toAlternation? = some ts) : e.toSequence = [ts] := by
  cases e with
  | term t =>
    rw [← Option.some.inj h]
    rfl
  | alternation us =>
    rw [← Option.some.inj h]
    rfl
  | sequence gs => exact absurd h (Option.some_ne_none ts).symm

/-- What may be left out is a term. -/
theorem asOptional?_eq_some_iff {e e' : Expression} :
    e.asOptional? = some e' ↔ ∃ t, e = term t ∧ e' = term t.asOptional := by
  cases e with
  | term t => simp [asOptional?, eq_comm]
  | alternation ts => simp [asOptional?]
  | sequence gs => simp [asOptional?]

/-- A choice adds a term to a term or to an alternation. -/
theorem or?_eq_some_iff {l r e : Expression} :
    l.or? r = some e ↔ ∃ ts t, l.toAlternation? = some ts ∧ r = term t ∧ e = alternation (ts ++ [t]) := by
  cases hl : l.toAlternation? with
  | none => simp [or?, hl]
  | some ts =>
    cases r with
    | term t => simp [or?, hl, eq_comm]
    | alternation us => simp [or?, hl]
    | sequence gs => simp [or?, hl]

/-- What comes after is a term or an alternation, and it comes behind all that is there. -/
theorem andThen?_eq_some_iff {l r e : Expression} :
    l.andThen? r = some e ↔
      ∃ ts, r.toAlternation? = some ts ∧ e = sequence (l.toSequence ++ [ts]) := by
  rw [andThen?, Option.map_eq_some_iff]
  simp only [eq_comm]

/-- Nothing that is built lacks a part. -/
theorem Built.isHollow_eq {e : Expression} (h : e.Built) : Sequence.isHollow e.toSequence = false := by
  induction h with
  | literals items h => rfl
  | reference id => rfl
  | group h ih =>
    rw [toGroup, toSequence, Sequence.isHollow_singleton, Alternation.anyHollow, Alternation.anyHollow,
      Bool.or_false]
    exact ih
  | optional h he ih =>
    obtain ⟨t, rfl, rfl⟩ := asOptional?_eq_some_iff.1 he
    simp only [toSequence, Sequence.isHollow_singleton, Alternation.anyHollow] at ih ⊢
    rw [Term.isHollow_asOptional]
    exact ih
  | or hl hr he ihl ihr =>
    -- on the right stands a term, and it comes behind the terms on the left
    obtain ⟨ts, t, hts, rfl, rfl⟩ := or?_eq_some_iff.1 he
    rw [toSequence_of_toAlternation? hts, Sequence.isHollow_singleton, Bool.or_eq_false_iff] at ihl
    rw [toSequence, Sequence.isHollow_singleton, Bool.or_eq_false_iff] at ihr
    rw [toSequence, Sequence.isHollow_singleton, Bool.or_eq_false_iff]
    refine ⟨?_, ?_⟩
    · exact List.isEmpty_eq_false_iff.2 (List.append_ne_nil_of_right_ne_nil ts (List.cons_ne_nil t []))
    · rw [Alternation.anyHollow_append, ihl.2, ihr.2, Bool.or_false]
  | andThen hl hr he ihl ihr =>
    -- on the right stands a sequence of one alternation
    obtain ⟨ts, hts, rfl⟩ := andThen?_eq_some_iff.1 he
    rw [toSequence_of_toAlternation? hts] at ihr
    exact Sequence.isHollow_append _ _ ihl ihr

/-- The literal texts in what is built have no marks. -/
theorem Built.free {e : Expression} (h : e.Built) : ∀ s ∈ Sequence.items e.toSequence, Markup.Free s := by
  induction h with
  | literals items h =>
    rw [toSequence, Sequence.items_singleton, Alternation.items, Alternation.items, List.append_nil]
    exact h
  | reference id => exact fun s hs => absurd hs List.not_mem_nil
  | group h ih =>
    rw [toGroup, toSequence, Sequence.items_singleton, Alternation.items, Alternation.items,
      List.append_nil]
    exact ih
  | optional h he ih =>
    obtain ⟨t, rfl, rfl⟩ := asOptional?_eq_some_iff.1 he
    simp only [toSequence, Sequence.items_singleton, Alternation.items] at ih ⊢
    rw [Term.items_asOptional]
    exact ih
  | or hl hr he ihl ihr =>
    obtain ⟨ts, t, hts, rfl, rfl⟩ := or?_eq_some_iff.1 he
    rw [toSequence_of_toAlternation? hts, Sequence.items_singleton] at ihl
    rw [toSequence, Sequence.items_singleton] at ihr
    rw [toSequence, Sequence.items_singleton, Alternation.items_append, List.forall_mem_append]
    exact ⟨ihl, ihr⟩
  | andThen hl hr he ihl ihr =>
    obtain ⟨ts, hts, rfl⟩ := andThen?_eq_some_iff.1 he
    rw [toSequence_of_toAlternation? hts] at ihr
    rw [toSequence, Sequence.items_append, List.forall_mem_append]
    exact ⟨ihl, ihr⟩

end Expression

end UtteranceGrammar
