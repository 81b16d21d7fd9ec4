/-
What the spans of generated utterances tell.

A span tells where in the text it stands, what stands there, and which rule that comes from. For a
grammar that was read all three are true (`Grammar.entities_of_generate`).

The offsets are right because each utterance is denoted by a marked text, and in a forest a span's text
is what lies between its ends. That the text is one of the rule's own is not a matter of one utterance.
It is proved along the order of expansion: where a span is inherited, the rule that it is inherited from
is referred to and has been dealt with before; where it is not, it is the whole of an entity's utterance,
and so its text is one of the entity's texts.
-/
import Mathlib.Logic.Relation
import UtteranceGrammar.Proofs.Expansion.Origin
import UtteranceGrammar.Proofs.Generation.Agreement

set_option autoImplicit false

namespace UtteranceGrammar

/-! ## Offsets -/

/-- The spans of a denoted utterance stand where they say they do. -/
theorem Markup.Denotes.locates {marked : Text} {u : Utterance} (h : Markup.Denotes marked u)
    {e : Entity} (he : e ∈ u.entities) : u.Locates e := by
  obtain ⟨f, -, rfl⟩ := h
  exact f.locates he

/-! ## Sources -/

namespace Grammar

/-- A label tells of an entity that the rule is or refers to, be it through other rules, and of a text
that the entity has. -/
structure Vouches (g : Grammar) (x : Expansion) (r : Rule) (p : Name × Text) : Prop where
  entity : ∃ s ∈ g, s.kind = .entity ∧ s.id = p.1 ∧ Relation.ReflTransGen g.Refers r s
  text : ∃ texts, x.textsOf? p.1 = some texts ∧ p.2 ∈ texts

/-- What a rule vouches for, the rules that refer to it do too. -/
theorem Vouches.of_refers {g : Grammar} {x : Expansion} {r s : Rule} {p : Name × Text}
    (h : g.Refers r s) (hs : Vouches g x s p) : Vouches g x r p := by
  obtain ⟨t, ht, hkind, hid, hst⟩ := hs.entity
  exact ⟨⟨t, ht, hkind, hid, hst.head h⟩, hs.text⟩

end Grammar

namespace Expansion.Annotates

variable {x : Expansion} {rules : List Rule}

/-- Each rule has its entry, and is found there. -/
theorem utterancesOf_eq (hx : x.Annotates rules) (hids : (Grammar.ids rules).Nodup) {r : Rule}
    (hr : r ∈ rules) : ∃ e, x.get? r.id = some e ∧ x.utterancesOf r.id = r.annotate x.utterancesOf := by
  rw [← hx.rules_eq] at hr
  obtain ⟨e, he, rfl⟩ := List.mem_map.1 hr
  rw [← hx.order_eq] at hids
  have hget := get?_of_mem hids he
  exact ⟨e, hget, by rw [utterancesOf_of_get? hget, hx.utterances_eq e he]⟩

/-- All labels of annotated rules in order are true. -/
theorem vouches {g : Grammar} (hx : x.Annotates rules) (hids : (Grammar.ids rules).Nodup)
    (hord : Grammar.Ordered rules) (hg : ∀ r ∈ rules, r ∈ g) :
    ∀ r ∈ rules, ∀ u ∈ x.utterancesOf r.id, ∀ p ∈ u.labels, g.Vouches x r p := by
  refine hord.induct hids fun r hr ih u hu p hp => ?_
  obtain ⟨e, hget, heq⟩ := hx.utterancesOf_eq hids hr
  have hannotate := hu
  rw [heq] at hannotate
  -- inherited from a rule that has been dealt with, or the rule's own
  rcases Rule.label_of_mem_annotate hannotate hp with ⟨id, hid, v, hv, hpv⟩ | ⟨hkind, rfl⟩
  · obtain ⟨s, hs, rfl⟩ := List.mem_map.1 (hord.mem_ids hr hid)
    exact .of_refers ⟨hg s hs, hid⟩ (ih s hs hid v hv p hpv)
  · refine ⟨⟨r, hg r hr, hkind, rfl, .refl⟩, e.texts, ?_, ?_⟩
    · rw [textsOf?, hget]
      rfl
    · rw [utterancesOf_of_get? hget] at hu
      exact List.mem_map_of_mem hu

end Expansion.Annotates

/-! ## All spans -/

namespace Grammar

/-- What a span tells is true: its offsets and its text, and that it comes from an entity, which the
rule is or refers to, and of which its text is one of the texts. An entity's utterances end with a span
that is all of them. -/
theorem entities_of_generate {source : Text} {g : Grammar} {x : Expansion}
    (hsource : parse source = .ok g) (hx : (generate g).outcome = .ok x) :
    ∀ r ∈ x.rules, ∀ u ∈ r.utterances,
      (∀ e ∈ u.entities, u.Locates e ∧ g.Vouches x r.rule (e.name, e.text)) ∧
      (r.rule.kind = .entity →
        u.entities.getLast? = some ⟨r.rule.id, u.text, 0, u.text.length⟩) := by
  obtain ⟨order, horder, hann⟩ := annotates_of_generate hsource hx
  have hids := nodup_ids_of_resolve horder
  intro r hr u hu
  have hmem : r.rule ∈ order := by
    rw [← hann.rules_eq]
    exact List.mem_map_of_mem hr
  have hget : x.get? r.rule.id = some r := by
    rw [← hann.order_eq] at hids
    exact Expansion.get?_of_mem hids hr
  refine ⟨fun e he => ⟨?_, ?_⟩, fun hkind => ?_⟩
  · -- the marked text beside an utterance denotes it
    obtain ⟨marked, -, hdenotes⟩ := exists_of_forall₂ (hann.denoting r hr) hu
    exact hdenotes.locates he
  · refine hann.vouches hids (ordered_of_resolve horder)
      (fun s hs => (perm_of_resolve horder).mem_iff.1 hs) r.rule hmem u ?_ _ ?_
    · rw [Expansion.utterancesOf_of_get? hget]
      exact hu
    · exact List.mem_map_of_mem he
  · rw [hann.utterances_eq r hr] at hu
    exact Rule.getLast?_of_mem_annotate hkind hu

/-- The spans of the flights: the cities and the ways, the latter's own one last. -/
theorem entities_of_generate_flights :
    parse "intent Fly: [fly], ROUTE?; entity ROUTE: [to], CITY; entity CITY: [Prague, Brno];".toList =
        .ok flights ∧
      (generate flights).outcome = .ok flightsExpansion ∧
      ∀ r ∈ flightsExpansion.rules, ∀ u ∈ r.utterances,
        (∀ e ∈ u.entities, u.Locates e ∧ flights.Vouches flightsExpansion r.rule (e.name, e.text)) ∧
        (r.rule.kind = .entity →
          u.entities.getLast? = some ⟨r.rule.id, u.text, 0, u.text.length⟩) :=
  ⟨parse_flights, generate_flights, entities_of_generate parse_flights generate_flights⟩

end Grammar

end UtteranceGrammar
