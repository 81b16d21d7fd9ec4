/-
What generation yields for a grammar that was read.

Such a grammar is expanded in the order that resolution finds, and every rule in it gets the utterances
of its annotated evaluation (`Grammar.utterances_eq_annotate`). Nothing in that evaluation is decoded:
what a rule refers to counts with its utterances, not with its marked texts.

The names of a resolved grammar are distinct, so each rule is found under its name.
-/
import UtteranceGrammar.Proofs.Generation.Totality

set_option autoImplicit false

namespace UtteranceGrammar

/-! ## Finding a rule -/

namespace Expansion

/-- The utterances that a name stands for are those of the rule found under it. -/
theorem utterancesOf_of_get? {x : Expansion} {id : Name} {e : ExpandedRule} (h : x.get? id = some e) :
    x.utterancesOf id = e.utterances := by
  rw [utterancesOf, h]
  rfl

end Expansion

/-! ## Annotated evaluation -/

namespace Grammar

/-- What generation yields for a grammar that was read is annotated, in the order of resolution. -/
theorem annotates_of_generate {source : Text} {g : Grammar} {x : Expansion}
    (hsource : parse source = .ok g) (hx : (generate g).outcome = .ok x) :
    ∃ order, (resolve g).order = .ok order ∧ x.Annotates order := by
  have hg := expressible_of_parse hsource
  rcases outcome_of_not_hollow (fun r hr => (hg r hr).markable) fun r hr => (hg r hr).not_hollow with
    ⟨v, hinvalid⟩ | ⟨y, order, hy, horder, hann⟩
  · rw [hinvalid] at hx
    exact absurd hx (by simp)
  · rw [hy] at hx
    rw [← Except.ok.inj hx]
    exact ⟨order, horder, hann⟩

/-- The rules of a grammar that was read are all expanded, each once, and the utterances of each are its
annotated evaluation: in the same order, with the same spans, and as often. -/
theorem utterances_eq_annotate {source : Text} {g : Grammar} {x : Expansion}
    (hsource : parse source = .ok g) (hx : (generate g).outcome = .ok x) :
    (x.rules.map ExpandedRule.rule).Perm g ∧
      ∀ e ∈ x.rules, x.get? e.rule.id = some e ∧ e.utterances = e.rule.annotate x.utterancesOf := by
  obtain ⟨order, horder, hann⟩ := annotates_of_generate hsource hx
  refine ⟨?_, ?_⟩
  · rw [hann.rules_eq]
    exact perm_of_resolve horder
  · intro e he
    have hids : x.order.Nodup := by
      rw [hann.order_eq]
      exact nodup_ids_of_resolve horder
    exact ⟨Expansion.get?_of_mem hids he, hann.utterances_eq e he⟩

/-- Flights: read, generated, and found in the expansion as they are annotated. -/
theorem utterances_eq_annotate_flights :
    parse "intent Fly: [fly], ROUTE?; entity ROUTE: [to], CITY; entity CITY: [Prague, Brno];".toList =
        .ok flights ∧
      (generate flights).outcome = .ok flightsExpansion ∧
      (flightsExpansion.rules.map ExpandedRule.rule).Perm flights ∧
      ∀ e ∈ flightsExpansion.rules, flightsExpansion.get? e.rule.id = some e ∧
        e.utterances = e.rule.annotate flightsExpansion.utterancesOf :=
  ⟨parse_flights, generate_flights, utterances_eq_annotate parse_flights generate_flights⟩

end Grammar

end UtteranceGrammar
