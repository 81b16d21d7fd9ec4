/-
What the texts of a rule depend on.

Of all that has been expanded before it, a rule looks up the rules that it refers to and nothing else
(`Rule.expand_congr`). In an ordered grammar these are complete when the rule's turn comes, and they do not
change any more. So it makes no difference whether a rule is expanded at its turn or in the end: each entry of
the finished expansion is what its rule yields with the finished expansion at hand (`Expansion.Settled`).

That settles what other expansions look like. Any part of a settled expansion that holds what its rules refer
to can be expanded again, in any order that puts references first, and yields the same entries
(`Expansion.Settled.expand`).
-/
import UtteranceGrammar.Proofs.Expansion.Annotation

set_option autoImplicit false

namespace UtteranceGrammar

/-! ## One rule -/

section Congruence

variable {lookup lookup' : Lookup} (rule : Name)

mutual

/-- A term is expanded alike by lookups that agree on what it refers to. -/
theorem Term.expand_congr : ∀ t : Term, (∀ id ∈ t.references, lookup id = lookup' id) →
    t.expand lookup rule = t.expand lookup' rule
  | .literals _ _, _ => rfl
  | .reference id _, h => by
    rw [Term.expand, Term.expand, h id List.mem_cons_self]
  | .group body _, h => by
    rw [Term.expand, Term.expand, Sequence.expandEach_congr body h]

theorem Alternation.expandEach_congr : ∀ ts : List Term,
    (∀ id ∈ Alternation.references ts, lookup id = lookup' id) →
    Alternation.expandEach lookup rule ts = Alternation.expandEach lookup' rule ts
  | [], _ => rfl
  | t :: ts, h => by
    rw [Alternation.references, List.forall_mem_append] at h
    rw [Alternation.expandEach, Alternation.expandEach, Term.expand_congr t h.1,
      Alternation.expandEach_congr ts h.2]

theorem Sequence.expandEach_congr : ∀ gs : List (List Term),
    (∀ id ∈ Sequence.references gs, lookup id = lookup' id) →
    Sequence.expandEach lookup rule gs = Sequence.expandEach lookup' rule gs
  | [], _ => rfl
  | g :: gs, h => by
    rw [Sequence.references, List.forall_mem_append] at h
    rw [Sequence.expandEach, Sequence.expandEach, Alternation.expandEach_congr g h.1,
      Sequence.expandEach_congr gs h.2]

end

end Congruence

namespace Rule

/-- A rule's texts depend only on those of the rules that it refers to. -/
theorem expand_congr {lookup lookup' : Lookup} {r : Rule}
    (h : ∀ id ∈ r.references, lookup id = lookup' id) : r.expand lookup = r.expand lookup' := by
  have hbody : Sequence.expand lookup r.id r.body = Sequence.expand lookup' r.id r.body := by
    rw [Sequence.expand, Sequence.expand, Sequence.expandEach_congr r.id r.body h]
  rw [expand, expand, produce, produce, hbody]

/-- A rule is expanded by cleaning what it produces and decoding what remains. -/
theorem expand_eq_ok_iff {lookup : Lookup} {r : Rule} {e : ExpandedRule} :
    r.expand lookup = .ok e ↔ ∃ texts utterances, r.produce lookup = .ok texts ∧
      (clean texts).mapM utterance = .ok utterances ∧ e = ⟨r, clean texts, utterances⟩ := by
  rw [expand]
  cases r.produce lookup with
  | error error => simp [bind, Except.bind]
  | ok texts =>
    cases hutterances : (clean texts).mapM utterance with
    | error error => simp [bind, Except.bind, hutterances]
    | ok utterances => simp [bind, Except.bind, pure, Except.pure, hutterances, eq_comm]

/-- The entry of a rule keeps the rule itself. -/
theorem rule_of_expand {lookup : Lookup} {r : Rule} {e : ExpandedRule}
    (h : r.expand lookup = .ok e) : e.rule = r := by
  obtain ⟨texts, utterances, -, -, rfl⟩ := expand_eq_ok_iff.1 h
  rfl

end Rule

/-! ## An expansion -/

namespace Expansion

/-- Each entry is what its rule yields with all entries at hand. -/
def Settled (x : Expansion) : Prop := ∀ e ∈ x.rules, e.rule.expand x.lookup = .ok e

/-- A further entry is not seen under any name but its own. -/
theorem lookup_append {x : Expansion} {e : ExpandedRule} {id : Name} (h : id ≠ e.rule.id) :
    lookup ⟨x.rules ++ [e]⟩ id = x.lookup id := by
  rw [lookup, get?_append, if_neg (Ne.symm h), lookup]

/-- An entry can be added if no rule refers to it. -/
theorem Settled.append {x : Expansion} {r : Rule} {e : ExpandedRule} (hx : x.Settled)
    (he : r.expand x.lookup = .ok e) (hself : r.id ∉ r.references)
    (hrefs : ∀ d ∈ x.rules, r.id ∉ d.rule.references) : Settled ⟨x.rules ++ [e]⟩ := by
  obtain rfl := Rule.rule_of_expand he
  have hcongr : ∀ s : Rule, e.rule.id ∉ s.references →
      s.expand (lookup ⟨x.rules ++ [e]⟩) = s.expand x.lookup := by
    intro s hs
    refine Rule.expand_congr fun id hid => lookup_append ?_
    rintro rfl
    exact hs hid
  intro d hd
  rcases List.mem_append.1 hd with hd | hd
  · rw [hcongr d.rule (hrefs d hd)]
    exact hx d hd
  · obtain rfl := List.mem_singleton.1 hd
    rw [hcongr d.rule hself]
    exact he

/-- Adding a rule puts its entry, expanded with what is there, at the end. -/
theorem exists_of_add {x y : Expansion} {r : Rule} (h : x.add r = .ok y) :
    ∃ e, r.expand x.lookup = .ok e ∧ y = ⟨x.rules ++ [e]⟩ := by
  unfold add at h
  cases he : r.expand x.lookup with
  | error error =>
    rw [he] at h
    cases h
  | ok e =>
    rw [he] at h
    exact ⟨e, rfl, (Except.ok.inj h).symm⟩

/-- What is expanded in order is settled, and has an entry for each rule in its place. -/
theorem settled_of_expand {rules : List Rule} {x : Expansion} (hord : Grammar.Ordered rules)
    (hids : (Grammar.ids rules).Nodup) (hx : Grammar.expand rules = .ok x) :
    x.rules.map ExpandedRule.rule = rules ∧ x.Settled := by
  induction rules using List.reverseRecOn generalizing x with
  | nil =>
    obtain rfl := Except.ok.inj hx
    exact ⟨rfl, fun e he => absurd he List.not_mem_nil⟩
  | append_singleton rules r ih =>
    obtain ⟨hnodup, hnew⟩ := Grammar.nodup_ids_append_singleton.1 hids
    rw [Grammar.expand_append] at hx
    cases hy : Grammar.expand rules with
    | error error =>
      rw [hy] at hx
      cases hx
    | ok y =>
      rw [hy] at hx
      obtain ⟨hrules, hsettled⟩ := ih hord.of_append hnodup hy
      obtain ⟨e, he, rfl⟩ := exists_of_add hx
      have hrule : e.rule = r := Rule.rule_of_expand he
      refine ⟨?_, hsettled.append he ?_ ?_⟩
      · rw [List.map_append, hrules, List.map_singleton, hrule]
      · exact fun hself => hnew (hord rules r [] rfl r.id hself)
      · intro d hd href
        have hmem : d.rule ∈ rules := by
          rw [← hrules]
          exact List.mem_map_of_mem hd
        exact hnew (hord.of_append.mem_ids hmem href)

/-- Entries of a settled expansion, in an order that puts references first, are expanded to themselves. -/
theorem Settled.expand {x : Expansion} (hx : x.Settled) (hids : x.order.Nodup) {rules : List Rule}
    (hord : Grammar.Ordered rules) (hnodup : (Grammar.ids rules).Nodup)
    (hmem : ∀ r ∈ rules, ∃ e ∈ x.rules, e.rule = r) :
    ∃ y, Grammar.expand rules = .ok y ∧ y.rules.map ExpandedRule.rule = rules ∧
      ∀ e ∈ y.rules, e ∈ x.rules := by
  induction rules using List.reverseRecOn with
  | nil => exact ⟨⟨[]⟩, rfl, rfl, fun e he => absurd he List.not_mem_nil⟩
  | append_singleton rules r ih =>
    obtain ⟨hfront, -⟩ := Grammar.nodup_ids_append_singleton.1 hnodup
    obtain ⟨hrules, hlast⟩ := List.forall_mem_append.1 hmem
    obtain ⟨y, hy, hyrules, hsub⟩ := ih hord.of_append hfront hrules
    obtain ⟨e, he, rfl⟩ := hlast r (List.mem_singleton_self r)
    -- what the rule refers to has its entry already, and it is the one in `x`
    have hlookup : ∀ id ∈ e.rule.references, y.lookup id = x.lookup id := by
      intro id hid
      have hyorder : y.order = Grammar.ids rules := order_eq hyrules
      have hmem : id ∈ y.order := by
        rw [hyorder]
        exact hord rules e.rule [] rfl id hid
      obtain ⟨d, hd, rfl⟩ := List.mem_map.1 hmem
      rw [lookup, lookup, get?_of_mem (by rw [hyorder]; exact hfront) hd,
        get?_of_mem hids (hsub d hd)]
    have hexpand : e.rule.expand y.lookup = .ok e := by
      rw [Rule.expand_congr hlookup]
      exact hx e he
    refine ⟨⟨y.rules ++ [e]⟩, ?_, ?_, ?_⟩
    · rw [Grammar.expand_append, hy]
      show y.add e.rule = _
      rw [add, hexpand]
      rfl
    · rw [List.map_append, hyrules]
      rfl
    · rw [List.forall_mem_append, List.forall_mem_singleton]
      exact ⟨hsub, he⟩

end Expansion

end UtteranceGrammar
