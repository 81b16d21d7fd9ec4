/-
Where the spans of a rule come from.

Evaluation makes no spans: joining puts those of two utterances together, and cleaning moves them. So a
span of a rule was a span of a rule that it refers to, or it is the one that the rule puts around its own
results, being an entity (`Rule.label_of_mem_annotate`). The name and the text of a span are what is
followed here; where it stands changes on the way.

A rule's own span encloses all of the result. Nothing is cut from such a result, so what stands in the
span is a text of the rule, as it is in the end (`Rule.getLast?_of_mem_annotate`).
-/
import UtteranceGrammar.Proofs.Expansion.Annotation

set_option autoImplicit false

namespace UtteranceGrammar

namespace Rule

variable {table : Name → List Utterance} {r : Rule}

/-- The labels in a rule's pattern are those of the rules that it refers to. -/
theorem label_of_mem_evaluate {u : Utterance} (hu : u ∈ Sequence.evaluate .annotated table r.body)
    {p : Name × Text} (hp : p ∈ u.labels) :
    ∃ id ∈ r.references, ∃ v ∈ table id, p ∈ v.labels := by
  have hall : ∀ u ∈ Sequence.evaluate .annotated table r.body, ∀ p ∈ u.labels,
      ∃ id ∈ r.references, ∃ v ∈ table id, p ∈ v.labels := by
    apply Sequence.forall_mem_evaluate
    · intro l k hl hk p hp
      rw [Interpretation.annotated, Utterance.labels_spaced] at hp
      exact (List.mem_append.1 hp).elim (hk p) (hl p)
    · exact fun p hp => absurd hp List.not_mem_nil
    · exact fun s _ p hp => absurd hp List.not_mem_nil
    · exact fun id hid v hv p hp => ⟨id, hid, v, hv, hp⟩
  exact hall u hu p hp

/-- The utterances of an entity rule are what its pattern evaluates to, each labelled as a whole. -/
theorem annotate_of_entity (hr : r.kind = .entity) :
    r.annotate table =
      (Sequence.evaluate .annotated table r.body).map (Utterance.labelled r.id) := by
  rw [annotate, if_pos hr, Utterance.clean_map_labelled]

/-- An utterance of any other rule is, trimmed, one that its pattern evaluates to. -/
theorem exists_of_mem_annotate (hr : r.kind ≠ .entity) {u : Utterance} (hu : u ∈ r.annotate table) :
    ∃ v ∈ Sequence.evaluate .annotated table r.body, v.trim = u := by
  rw [annotate, if_neg hr, Utterance.clean] at hu
  exact List.mem_map.1 (List.mem_filter.1 hu).1

/-- A label of a rule is one of a rule that it refers to, or the rule's own. -/
theorem label_of_mem_annotate {u : Utterance} (hu : u ∈ r.annotate table) {p : Name × Text}
    (hp : p ∈ u.labels) :
    (∃ id ∈ r.references, ∃ v ∈ table id, p ∈ v.labels) ∨ r.kind = .entity ∧ p = (r.id, u.text) := by
  by_cases hr : r.kind = .entity
  · rw [annotate_of_entity hr] at hu
    obtain ⟨v, hv, rfl⟩ := List.mem_map.1 hu
    rw [Utterance.labels_labelled, List.mem_append, List.mem_singleton] at hp
    rcases hp with hp | rfl
    · exact .inl (label_of_mem_evaluate hv hp)
    · exact .inr ⟨hr, rfl⟩
  · obtain ⟨v, hv, rfl⟩ := exists_of_mem_annotate hr hu
    rw [Utterance.labels_trim] at hp
    exact .inl (label_of_mem_evaluate hv hp)

/-- The last span of an entity's utterance is the whole of it. -/
theorem getLast?_of_mem_annotate (hr : r.kind = .entity) {u : Utterance}
    (hu : u ∈ r.annotate table) :
    u.entities.getLast? = some ⟨r.id, u.text, 0, u.text.length⟩ := by
  rw [annotate_of_entity hr] at hu
  -- the rule's own span is put behind all others
  obtain ⟨v, -, rfl⟩ := List.mem_map.1 hu
  rw [Utterance.labelled, List.getLast?_append]
  rfl

end Rule

end UtteranceGrammar
