/-
Results that are met by results of another evaluation.

Two evaluations that are related one by one have the same number of results. That asks too much where the tables
differ in how many results they have for a rule. What can be asked still is that each result of the one evaluation
is met by some result of the other (`Sequence.exists_mem_evaluate`). It holds if it holds for literals and for the
tables, and if joining keeps it.

For this to tell anything there must be results. A pattern that can be written has some, as it has no empty parts:
from every alternation a term can be taken and none left out (`Rule.Expressible.exists_mem_evaluate`).
-/
import UtteranceGrammar.Proofs.Source.Expressible

set_option autoImplicit false

namespace UtteranceGrammar

variable {α β : Type} {I : Interpretation α} {J : Interpretation β}

namespace Part

/-- A result of one part followed by another is joined from one of each, or one of them alone, or nothing. -/
theorem mem_followedBy {l r : Part α} {z : α} :
    z ∈ (l.followedBy I r).results ↔
      (∃ x ∈ l.results, ∃ y ∈ r.results, I.spaced x y = z) ∨
      (l.optional = true ∧ z ∈ r.results) ∨ (r.optional = true ∧ z ∈ l.results) ∨
      (l.optional && r.optional) = true ∧ z = I.nothing := by
  rw [followedBy, List.mem_append, List.mem_append, List.mem_append, List.mem_flatMap,
    List.mem_ite_nil_right, List.mem_ite_nil_right, List.mem_ite_nil_right, List.mem_singleton]
  simp only [List.mem_map]

end Part

/-! ## Met results -/

section Met

variable {R : α → β → Prop}

/-- Two interpretations that keep a relation keep it the other way round. -/
theorem Interpretation.Keeps.flip (h : Interpretation.Keeps R I J) :
    Interpretation.Keeps (fun y x => R x y) J I :=
  ⟨fun hxy hxy' => h.spaced hxy hxy', h.nothing⟩

/-- Each result of the one part is met by one of the other, and both may be left out alike. -/
structure Part.Met (R : α → β → Prop) (p : Part α) (q : Part β) : Prop where
  results : ∀ x ∈ p.results, ∃ y ∈ q.results, R x y
  optional : p.optional = q.optional

/-- The results of two parts in a row are met if those of each part are: a pair is met by a pair, and what is left
where something is left out by what is left out alike. -/
theorem Part.Met.followedBy (hIJ : Interpretation.Keeps R I J) {l r : Part α} {l' r' : Part β}
    (hl : l.Met R l') (hr : r.Met R r') : (l.followedBy I r).Met R (l'.followedBy J r') := by
  refine ⟨fun z hz => ?_, rfl⟩
  rw [Part.mem_followedBy, hl.optional, hr.optional] at hz
  rcases hz with ⟨x, hx, y, hy, rfl⟩ | ⟨hopt, hz⟩ | ⟨hopt, hz⟩ | ⟨hboth, rfl⟩
  · obtain ⟨x', hx', hxx'⟩ := hl.results x hx
    obtain ⟨y', hy', hyy'⟩ := hr.results y hy
    exact ⟨_, mem_followedBy.2 (.inl ⟨x', hx', y', hy', rfl⟩), hIJ.spaced hxx' hyy'⟩
  · obtain ⟨y', hy', hzy'⟩ := hr.results z hz
    exact ⟨y', mem_followedBy.2 (.inr (.inl ⟨hopt, hy'⟩)), hzy'⟩
  · obtain ⟨x', hx', hzx'⟩ := hl.results z hz
    exact ⟨x', mem_followedBy.2 (.inr (.inr (.inl ⟨hopt, hx'⟩))), hzx'⟩
  · exact ⟨_, mem_followedBy.2 (.inr (.inr (.inr ⟨hboth, rfl⟩))), hIJ.nothing⟩

/-- The same for parts in a row, put together from the left. -/
theorem Part.exists_mem_inSequence (hIJ : Interpretation.Keeps R I J) {ps : List (Part α)}
    {qs : List (Part β)} (h : List.Forall₂ (Part.Met R) ps qs) :
    ∀ x ∈ inSequence I ps, ∃ y ∈ inSequence J qs, R x y := by
  cases h with
  | nil => exact fun x hx => absurd hx List.not_mem_nil
  | cons hp hps => exact (List.rel_foldl (fun _ _ hl _ _ hr => hl.followedBy hIJ hr) hp hps).results

variable {table : Name → List α} {table' : Name → List β}

mutual

/-- Each result of a term is met in the other evaluation. The recursion follows the term, and a group is a row of
parts. -/
theorem Term.exists_mem_evaluate (hIJ : Interpretation.Keeps R I J) : ∀ t : Term,
    (∀ s ∈ t.items, R (I.literal s) (J.literal s)) →
    (∀ id ∈ t.references, ∀ x ∈ table id, ∃ y ∈ table' id, R x y) →
    ∀ x ∈ t.evaluate I table, ∃ y ∈ t.evaluate J table', R x y
  | .literals items _, hlit, _ => by
    rw [Term.evaluate, Term.evaluate, List.forall_mem_map]
    exact fun s hs => ⟨_, List.mem_map_of_mem hs, hlit s hs⟩
  | .reference id _, _, href => href id List.mem_cons_self
  | .group body _, hlit, href =>
    Part.exists_mem_inSequence hIJ (Sequence.met_parts hIJ body hlit href)

/-- The same for an alternation: a result of one of its terms is met by a result of the same term. -/
theorem Alternation.exists_mem_evaluate (hIJ : Interpretation.Keeps R I J) : ∀ ts : List Term,
    (∀ s ∈ Alternation.items ts, R (I.literal s) (J.literal s)) →
    (∀ id ∈ Alternation.references ts, ∀ x ∈ table id, ∃ y ∈ table' id, R x y) →
    ∀ x ∈ Alternation.evaluate I table ts, ∃ y ∈ Alternation.evaluate J table' ts, R x y
  | [], _, _ => fun x hx => absurd hx List.not_mem_nil
  | t :: ts, hlit, href => by
    rw [Alternation.items, List.forall_mem_append] at hlit
    rw [Alternation.references, List.forall_mem_append] at href
    rw [Alternation.evaluate, Alternation.evaluate, List.forall_mem_append]
    refine ⟨fun x hx => ?_, fun x hx => ?_⟩
    · obtain ⟨y, hy, hxy⟩ := Term.exists_mem_evaluate hIJ t hlit.1 href.1 x hx
      exact ⟨y, List.mem_append_left _ hy, hxy⟩
    · obtain ⟨y, hy, hxy⟩ := Alternation.exists_mem_evaluate hIJ ts hlit.2 href.2 x hx
      exact ⟨y, List.mem_append_right _ hy, hxy⟩

/-- The alternations of a sequence are parts whose results are met one alternation by one. -/
theorem Sequence.met_parts (hIJ : Interpretation.Keeps R I J) : ∀ gs : List (List Term),
    (∀ s ∈ Sequence.items gs, R (I.literal s) (J.literal s)) →
    (∀ id ∈ Sequence.references gs, ∀ x ∈ table id, ∃ y ∈ table' id, R x y) →
    List.Forall₂ (Part.Met R) (Sequence.parts I table gs) (Sequence.parts J table' gs)
  | [], _, _ => .nil
  | g :: gs, hlit, href => by
    rw [Sequence.items, List.forall_mem_append] at hlit
    rw [Sequence.references, List.forall_mem_append] at href
    exact .cons ⟨Alternation.exists_mem_evaluate hIJ g hlit.1 href.1, rfl⟩
      (Sequence.met_parts hIJ gs hlit.2 href.2)

end

/-- Each result is met by one of the other evaluation, if literals meet each other and what the pattern refers to
is met in the other table. -/
theorem Sequence.exists_mem_evaluate (hIJ : Interpretation.Keeps R I J) (gs : Sequence)
    (hlit : ∀ s ∈ Sequence.items gs, R (I.literal s) (J.literal s))
    (href : ∀ id ∈ Sequence.references gs, ∀ x ∈ table id, ∃ y ∈ table' id, R x y) :
    ∀ x ∈ Sequence.evaluate I table gs, ∃ y ∈ Sequence.evaluate J table' gs, R x y :=
  Part.exists_mem_inSequence hIJ (Sequence.met_parts hIJ gs hlit href)

end Met

/-! ## Results there are -/

section Present

variable {P : α → Prop} {table : Name → List α}

/-- Of parts that all have a result, the results can be joined. -/
theorem Part.exists_mem_inSequence_of_forall (hspaced : ∀ {x y}, P x → P y → P (I.spaced x y))
    {ps : List (Part α)} (hne : ps ≠ []) (h : ∀ p ∈ ps, ∃ y ∈ p.results, P y) :
    ∃ y ∈ inSequence I ps, P y := by
  obtain ⟨p, ps, rfl⟩ := List.exists_cons_of_ne_nil hne
  rw [List.forall_mem_cons] at h
  have hfold : ∃ y ∈ (ps.foldl (Part.followedBy I) p).results, P y := by
    induction ps using List.reverseRecOn with
    | nil => exact h.1
    | append_singleton ps q ih =>
      rw [List.forall_mem_append, List.forall_mem_singleton] at h
      obtain ⟨x, hx, hPx⟩ := ih (List.cons_ne_nil p ps) ⟨h.1, h.2.1⟩
      obtain ⟨y, hy, hPy⟩ := h.2.2
      rw [List.foldl_append]
      exact ⟨_, mem_followedBy.2 (.inl ⟨x, hx, y, hy, rfl⟩), hspaced hPx hPy⟩
  exact hfold

mutual

/-- A term that can be written has a result with the property: a literal, as a tuple is not empty, one of a rule that
it refers to, or one of its group. -/
theorem Term.exists_mem_evaluate_of_expressible (hspaced : ∀ {x y}, P x → P y → P (I.spaced x y)) :
    ∀ t : Term, t.Expressible → (∀ s ∈ t.items, P (I.literal s)) →
      (∀ id ∈ t.references, ∃ y ∈ table id, P y) → ∃ y ∈ t.evaluate I table, P y
  | .literals items _, h, hlit, _ => by
    rw [Term.Expressible] at h
    obtain ⟨s, hs⟩ := List.exists_mem_of_ne_nil items h.1
    rw [Term.evaluate]
    exact ⟨_, List.mem_map_of_mem hs, hlit s hs⟩
  | .reference id _, _, _, href => href id List.mem_cons_self
  | .group body _, h, hlit, href => by
    rw [Term.Expressible] at h
    exact Part.exists_mem_inSequence_of_forall hspaced (Sequence.parts_ne_nil h.1)
      (Sequence.exists_mem_parts_of_expressible hspaced body h.2 hlit href)

/-- The same for an alternation that can be written, whose first term will do. -/
theorem Alternation.exists_mem_evaluate_of_expressible
    (hspaced : ∀ {x y}, P x → P y → P (I.spaced x y)) : ∀ ts : List Term, ts ≠ [] →
      Alternation.AllExpressible ts → (∀ s ∈ Alternation.items ts, P (I.literal s)) →
      (∀ id ∈ Alternation.references ts, ∃ y ∈ table id, P y) →
      ∃ y ∈ Alternation.evaluate I table ts, P y
  | [], hne, _, _, _ => absurd rfl hne
  | t :: ts, _, h, hlit, href => by
    rw [Alternation.AllExpressible] at h
    rw [Alternation.items, List.forall_mem_append] at hlit
    rw [Alternation.references, List.forall_mem_append] at href
    obtain ⟨y, hy, hPy⟩ := Term.exists_mem_evaluate_of_expressible hspaced t h.1 hlit.1 href.1
    exact ⟨y, List.mem_append_left _ hy, hPy⟩

/-- The same for each alternation of a sequence that can be written. -/
theorem Sequence.exists_mem_parts_of_expressible (hspaced : ∀ {x y}, P x → P y → P (I.spaced x y)) :
    ∀ gs : List (List Term), Sequence.AllExpressible gs → (∀ s ∈ Sequence.items gs, P (I.literal s)) →
      (∀ id ∈ Sequence.references gs, ∃ y ∈ table id, P y) →
      ∀ p ∈ Sequence.parts I table gs, ∃ y ∈ p.results, P y
  | [], _, _, _ => fun p hp => absurd hp List.not_mem_nil
  | g :: gs, h, hlit, href => by
    rw [Sequence.AllExpressible] at h
    rw [Sequence.items, List.forall_mem_append] at hlit
    rw [Sequence.references, List.forall_mem_append] at href
    rw [Sequence.parts, List.forall_mem_cons]
    exact ⟨Alternation.exists_mem_evaluate_of_expressible hspaced g h.1.1 h.1.2 hlit.1 href.1,
      Sequence.exists_mem_parts_of_expressible hspaced gs h.2 hlit.2 href.2⟩

end

/-- The pattern of a rule that can be written has a result that is joined from results of other rules and literals
alone, with nothing left out. -/
theorem Rule.Expressible.exists_mem_evaluate (hspaced : ∀ {x y}, P x → P y → P (I.spaced x y)) {r : Rule}
    (h : r.Expressible) (hlit : ∀ s ∈ r.items, P (I.literal s))
    (href : ∀ id ∈ r.references, ∃ y ∈ table id, P y) :
    ∃ y ∈ Sequence.evaluate I table r.body, P y :=
  Part.exists_mem_inSequence_of_forall hspaced (Sequence.parts_ne_nil h.body_ne_nil)
    (Sequence.exists_mem_parts_of_expressible hspaced r.body h.body hlit href)

end Present

end UtteranceGrammar
