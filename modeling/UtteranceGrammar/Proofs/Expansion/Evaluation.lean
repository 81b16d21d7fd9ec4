/-
Patterns evaluated over anything that can be put together like texts.

Expansion joins marked texts. What it does to a pattern does not depend on their being texts: it needs
to know what a literal stands for, how two things are joined, and what is left where both parts of a
pair are left out. An `Interpretation` says these three, and `Sequence.evaluate` is the evaluation of a
pattern over it, given a table with the results of the rules that the pattern refers to. It is total: a
fault in the pattern yields no results, and which patterns are at fault is told elsewhere.

Two interpretations matter. Over `marked` texts evaluation is what expansion does; over `annotated`
ones, which are utterances, it computes spans and offsets with no marks at all. What ties them together
is `Sequence.forall₂_evaluate`: if a relation holds between what two interpretations make of a literal
and is kept by joining, it holds between their results, one by one and in the same order.
-/
import Mathlib.Data.List.Forall2
import Mathlib.Data.List.Induction
import UtteranceGrammar.Expansion.Variants
import UtteranceGrammar.Proofs.Pattern.Shape
import UtteranceGrammar.Proofs.Utterance.Annotated

set_option autoImplicit false

namespace UtteranceGrammar

/-! ## Interpretations -/

/-- What patterns are evaluated over. -/
structure Interpretation (α : Type) where
  /-- What a literal text stands for. -/
  literal : Text → α
  /-- One result after another. -/
  spaced : α → α → α
  /-- What remains where all parts are left out. -/
  nothing : α

namespace Interpretation

/-- Texts, with or without marks. -/
def marked : Interpretation Text := ⟨id, Variants.spaced, []⟩

/-- Texts with spans beside them. -/
def annotated : Interpretation Utterance := ⟨.ofText, .spaced, .ofText []⟩

end Interpretation

/-- The results of a part of a pattern, and whether the part may be left out. -/
structure Part (α : Type) where
  results : List α
  optional : Bool

namespace Part

variable {α : Type} (I : Interpretation α)

/-- One part followed by another: all pairs, then the second part alone, then the first one alone,
and last nothing, each as far as parts may be left out. -/
def followedBy (l r : Part α) : Part α where
  results :=
    (l.results.flatMap fun x => r.results.map (I.spaced x)) ++
      ((if l.optional then r.results else []) ++
        ((if r.optional then l.results else []) ++
          if l.optional && r.optional then [I.nothing] else []))
  optional := false

/-- The results of parts that follow each other, put together from the left. -/
def inSequence : List (Part α) → List α
  | [] => []
  | p :: ps => (ps.foldl (followedBy I) p).results

/-- Parts that have been put together are not left out again. -/
theorem optional_foldl {p : Part α} {ps : List (Part α)} (h : ps ≠ [] ∨ p.optional = false) :
    (ps.foldl (followedBy I) p).optional = false := by
  induction ps using List.reverseRecOn with
  | nil => exact h.resolve_left (absurd rfl)
  | append_singleton ps q _ =>
    rw [List.foldl_append]
    rfl

end Part

/-- Whether an alternation may be left out: only a single term keeps its mark. -/
def Alternation.isOptional : Alternation → Bool
  | [t] => t.isOptional
  | _ => false

/-! ## Evaluation -/

section Evaluate

variable {α : Type} (I : Interpretation α) (table : Name → List α)

mutual

/-- The results of a term. -/
def Term.evaluate : Term → List α
  | .literals items _ => items.map I.literal
  | .reference id _ => table id
  | .group body _ => Part.inSequence I (Sequence.parts body)

/-- The results of the terms of an alternation, one term after the other. -/
def Alternation.evaluate : List Term → List α
  | [] => []
  | t :: ts => Term.evaluate t ++ Alternation.evaluate ts

/-- The alternations of a sequence as parts. -/
def Sequence.parts : List (List Term) → List (Part α)
  | [] => []
  | g :: gs => ⟨Alternation.evaluate g, Alternation.isOptional g⟩ :: Sequence.parts gs

end

/-- The results of a sequence. -/
def Sequence.evaluate (gs : Sequence) : List α := Part.inSequence I (Sequence.parts I table gs)

variable {I table}

/-- A sequence with alternations has parts. -/
theorem Sequence.parts_ne_nil {gs : Sequence} (h : gs ≠ []) : Sequence.parts I table gs ≠ [] := by
  obtain ⟨g, gs, rfl⟩ := List.exists_cons_of_ne_nil h
  rw [Sequence.parts]
  exact List.cons_ne_nil _ _

end Evaluate

/-! ## Related interpretations -/

section Related

variable {α β : Type} {R : α → β → Prop} {I : Interpretation α} {J : Interpretation β}

/-- Two interpretations keep a relation when they join related results. -/
structure Interpretation.Keeps (R : α → β → Prop) (I : Interpretation α) (J : Interpretation β) :
    Prop where
  spaced : ∀ {x x' y y'}, R x y → R x' y' → R (I.spaced x x') (J.spaced y y')
  nothing : R I.nothing J.nothing

/-- Parts with related results that may be left out alike. -/
structure Part.Related (R : α → β → Prop) (p : Part α) (q : Part β) : Prop where
  results : List.Forall₂ R p.results q.results
  optional : p.optional = q.optional

/-- Related lists stay so if both are left out or neither is. -/
theorem forall₂_ite {c : Bool} {xs : List α} {ys : List β} (h : List.Forall₂ R xs ys) :
    List.Forall₂ R (if c then xs else []) (if c then ys else []) := by
  cases c
  · exact .nil
  · exact h

/-- Where lists are related one by one, each element of the second has its counterpart in the first. -/
theorem exists_of_forall₂ {xs : List α} {ys : List β} (h : List.Forall₂ R xs ys) {y : β} (hy : y ∈ ys) :
    ∃ x ∈ xs, R x y := by
  induction h with
  | nil => exact absurd hy List.not_mem_nil
  | @cons x _ xs _ hxy _ ih =>
    rcases List.mem_cons.1 hy with rfl | hy
    · exact ⟨x, List.mem_cons_self, hxy⟩
    · obtain ⟨w, hw, hwy⟩ := ih hy
      exact ⟨w, List.mem_cons_of_mem x hw, hwy⟩

/-- Parts that are related have related results in a row, in the same order. -/
theorem Part.Related.followedBy (hIJ : Interpretation.Keeps R I J) {l r : Part α} {l' r' : Part β}
    (hl : l.Related R l') (hr : r.Related R r') :
    (l.followedBy I r).Related R (l'.followedBy J r') := by
  refine ⟨?_, rfl⟩
  rw [Part.followedBy, Part.followedBy, hl.optional, hr.optional]
  refine List.rel_append (List.rel_flatMap hl.results fun x y hxy => ?_) ?_
  · exact List.rel_map (fun _ _ h => hIJ.spaced hxy h) hr.results
  · refine List.rel_append (forall₂_ite hr.results) (List.rel_append (forall₂_ite hl.results) ?_)
    exact forall₂_ite (.cons hIJ.nothing .nil)

/-- The same for parts in a row, put together from the left. -/
theorem Part.forall₂_inSequence (hIJ : Interpretation.Keeps R I J) {ps : List (Part α)}
    {qs : List (Part β)} (h : List.Forall₂ (Part.Related R) ps qs) :
    List.Forall₂ R (Part.inSequence I ps) (Part.inSequence J qs) := by
  cases h with
  | nil => exact .nil
  | cons hp hps => exact (List.rel_foldl (fun _ _ hl _ _ hr => hl.followedBy hIJ hr) hp hps).results

variable {table : Name → List α} {table' : Name → List β}

mutual

/-- The results of a term are related one by one, if its literals are and what it refers to is. -/
theorem Term.forall₂_evaluate (hIJ : Interpretation.Keeps R I J) : ∀ t : Term,
    (∀ s ∈ t.items, R (I.literal s) (J.literal s)) →
    (∀ id ∈ t.references, List.Forall₂ R (table id) (table' id)) →
    List.Forall₂ R (t.evaluate I table) (t.evaluate J table')
  | .literals items _, hlit, _ => by
    rw [Term.evaluate, Term.evaluate, List.forall₂_map_left_iff, List.forall₂_map_right_iff,
      List.forall₂_same]
    exact hlit
  | .reference id _, _, href => href id List.mem_cons_self
  | .group body _, hlit, href => Part.forall₂_inSequence hIJ (Sequence.forall₂_parts hIJ body hlit href)

/-- The same for the terms of an alternation, one term after the other. -/
theorem Alternation.forall₂_evaluate (hIJ : Interpretation.Keeps R I J) : ∀ ts : List Term,
    (∀ s ∈ Alternation.items ts, R (I.literal s) (J.literal s)) →
    (∀ id ∈ Alternation.references ts, List.Forall₂ R (table id) (table' id)) →
    List.Forall₂ R (Alternation.evaluate I table ts) (Alternation.evaluate J table' ts)
  | [], _, _ => .nil
  | t :: ts, hlit, href => by
    rw [Alternation.items] at hlit
    rw [Alternation.references] at href
    refine List.rel_append (Term.forall₂_evaluate hIJ t ?_ ?_)
      (Alternation.forall₂_evaluate hIJ ts ?_ ?_)
    · exact fun s hs => hlit s (List.mem_append_left _ hs)
    · exact fun id hid => href id (List.mem_append_left _ hid)
    · exact fun s hs => hlit s (List.mem_append_right _ hs)
    · exact fun id hid => href id (List.mem_append_right _ hid)

/-- The same for the alternations of a sequence, which may also be left out alike. -/
theorem Sequence.forall₂_parts (hIJ : Interpretation.Keeps R I J) : ∀ gs : List (List Term),
    (∀ s ∈ Sequence.items gs, R (I.literal s) (J.literal s)) →
    (∀ id ∈ Sequence.references gs, List.Forall₂ R (table id) (table' id)) →
    List.Forall₂ (Part.Related R) (Sequence.parts I table gs) (Sequence.parts J table' gs)
  | [], _, _ => .nil
  | g :: gs, hlit, href => by
    rw [Sequence.items] at hlit
    rw [Sequence.references] at href
    refine .cons ⟨Alternation.forall₂_evaluate hIJ g ?_ ?_, rfl⟩ (Sequence.forall₂_parts hIJ gs ?_ ?_)
    · exact fun s hs => hlit s (List.mem_append_left _ hs)
    · exact fun id hid => href id (List.mem_append_left _ hid)
    · exact fun s hs => hlit s (List.mem_append_right _ hs)
    · exact fun id hid => href id (List.mem_append_right _ hid)

end

/-- Related interpretations give related results, if they agree on the literal texts of the pattern and
on the rules that it refers to. -/
theorem Sequence.forall₂_evaluate (hIJ : Interpretation.Keeps R I J) (gs : Sequence)
    (hlit : ∀ s ∈ Sequence.items gs, R (I.literal s) (J.literal s))
    (href : ∀ id ∈ Sequence.references gs, List.Forall₂ R (table id) (table' id)) :
    List.Forall₂ R (Sequence.evaluate I table gs) (Sequence.evaluate J table' gs) :=
  Part.forall₂_inSequence hIJ (Sequence.forall₂_parts hIJ gs hlit href)

/-- Of the table, only the rules that the pattern refers to count. -/
theorem Sequence.evaluate_congr {table table' : Name → List α} {gs : Sequence}
    (h : ∀ id ∈ Sequence.references gs, table id = table' id) :
    Sequence.evaluate I table gs = Sequence.evaluate I table' gs := by
  -- the case of one interpretation and of equality
  have hkeeps : Interpretation.Keeps Eq I I := ⟨fun h₁ h₂ => by rw [h₁, h₂], rfl⟩
  have hall := Sequence.forall₂_evaluate hkeeps gs (fun _ _ => rfl)
    fun id hid => List.forall₂_eq_eq_eq ▸ h id hid
  exact List.forall₂_eq_eq_eq ▸ hall

/-- What holds of literals and of the table, and is kept by joining, holds of all results. -/
theorem Sequence.forall_mem_evaluate {P : α → Prop} {table : Name → List α} {gs : Sequence}
    (hspaced : ∀ {x y}, P x → P y → P (I.spaced x y)) (hnothing : P I.nothing)
    (hlit : ∀ s ∈ Sequence.items gs, P (I.literal s))
    (href : ∀ id ∈ Sequence.references gs, ∀ y ∈ table id, P y) :
    ∀ y ∈ Sequence.evaluate I table gs, P y := by
  -- the case of a relation that looks to one side only
  have hkeeps : Interpretation.Keeps (fun x _ => P x) I I :=
    ⟨fun hx hy => hspaced hx hy, hnothing⟩
  have hall : List.Forall₂ (fun x _ => P x) (Sequence.evaluate I table gs)
      (Sequence.evaluate I table gs) :=
    Sequence.forall₂_evaluate hkeeps gs hlit fun id hid => List.forall₂_same.2 (href id hid)
  have hmem := List.forall₂_same.1 hall
  exact hmem

end Related

end UtteranceGrammar
