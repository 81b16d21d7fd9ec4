/-
What generation makes of a rule does not depend on the rules beside it.

Take a grammar that generates and some of its rules, in any order, with all that they refer to
(`Grammar.ClosedPart`). Their names are distinct and their references defined because they were so in the
grammar, and no circle of references comes about by leaving rules out. So resolution accepts the part. It may
order it otherwise, and walk it from other rules, but it puts references first; and the expansion of the
grammar is settled, so what it holds for the rules of the part is what they are expanded to in any such order
(`Grammar.yieldsAs_of_generate`).
-/
import UtteranceGrammar.Proofs.Expansion.Locality
import UtteranceGrammar.Proofs.Generation.Totality
import UtteranceGrammar.Proofs.Validation.Acceptance

set_option autoImplicit false

namespace UtteranceGrammar

namespace Grammar

/-! ## A part of a grammar -/

/-- Rules of the grammar in any order, none of them twice, with all that they refer to. -/
structure ClosedPart (g h : Grammar) : Prop where
  nodup : h.Nodup
  subset : ∀ r ∈ h, r ∈ g
  closed : ∀ r ∈ h, ∀ s, g.Refers r s → s ∈ h

/-- The rules generate, and each of them yields what the expansion has for it: the same marked texts and the
same utterances. -/
def YieldsAs (h : Grammar) (x : Expansion) : Prop :=
  ∃ y, (generate h).outcome = .ok y ∧ (y.rules.map ExpandedRule.rule).Perm h ∧
    ∀ r ∈ h, ∃ e, e.rule = r ∧ x.get? r.id = some e ∧ y.get? r.id = some e

namespace ClosedPart

variable {g h : Grammar}

/-- All rules in another order are a closed part. -/
theorem of_perm (hids : (ids g).Nodup) (hperm : h.Perm g) : g.ClosedPart h := by
  have hnodup : g.Nodup := List.Nodup.of_map _ hids
  refine ⟨hperm.nodup_iff.2 hnodup, ?_, ?_⟩
  · intro r hr
    exact hperm.mem_iff.1 hr
  · intro r _ s hrs
    exact hperm.mem_iff.2 hrs.1

/-- The rules that are kept are a closed part, if what they refer to is kept with them. -/
theorem of_filter (hids : (ids g).Nodup) {keep : Rule → Bool}
    (hkeep : ∀ r ∈ g, keep r = true → ∀ s, g.Refers r s → keep s = true) :
    g.ClosedPart (g.filter keep) := by
  have hnodup : g.Nodup := List.Nodup.of_map _ hids
  refine ⟨hnodup.filter _, ?_, ?_⟩
  · intro r hr
    exact List.mem_of_mem_filter hr
  · intro r hr s hrs
    obtain ⟨hmem, hkept⟩ := List.mem_filter.1 hr
    exact List.mem_filter.2 ⟨hrs.1, hkeep r hmem hkept s hrs⟩

variable (hpart : g.ClosedPart h)

include hpart

/-- In a closed part names stay unique and defined. -/
theorem wellNamed (hg : WellNamed g) : WellNamed h := by
  constructor
  · apply List.Nodup.map_on _ hpart.nodup
    intro r hr s hs heq
    exact eq_of_id_eq hg.nodup (hpart.subset r hr) (hpart.subset s hs) heq
  · intro r hr x hx
    obtain ⟨s, hs, rfl⟩ := List.mem_map.1 (hg.defined r (hpart.subset r hr) x hx)
    exact List.mem_map_of_mem (hpart.closed r hr s ⟨hs, hx⟩)

/-- A closed part has no circle that the grammar does not have. -/
theorem acyclic (hg : Acyclic g) : Acyclic h := by
  intro r hr hcircle
  have hrefers : ∀ s t, h.Refers s t → g.Refers s t := by
    intro s t hst
    exact ⟨hpart.subset t hst.1, hst.2⟩
  exact hg r (hpart.subset r hr) (Relation.TransGen.mono hrefers _ _ hcircle)

end ClosedPart

/-! ## Generation -/

/-- An expansion is that of the rules in the order of resolution. -/
theorem exists_order_of_generate {g : Grammar} {x : Expansion} (hx : (generate g).outcome = .ok x) :
    ∃ order, (resolve g).order = .ok order ∧ expand order = .ok x := by
  cases horder : (resolve g).order with
  | error v =>
    change (resolve g).expand = _ at hx
    rw [Resolution.expand, horder] at hx
    cases hx
  | ok order =>
    rw [outcome_eq_of_resolve horder] at hx
    cases hexpand : expand order with
    | error error =>
      rw [hexpand] at hx
      cases hx
    | ok y =>
      rw [hexpand] at hx
      obtain rfl := Except.ok.inj hx
      exact ⟨order, rfl, hexpand⟩

/-- What is generated is settled and has one entry for each rule. -/
theorem settled_of_generate {g : Grammar} {x : Expansion} (hx : (generate g).outcome = .ok x) :
    x.Settled ∧ x.order.Nodup ∧ (x.rules.map ExpandedRule.rule).Perm g := by
  obtain ⟨order, horder, hexpand⟩ := exists_order_of_generate hx
  have hids := nodup_ids_of_resolve horder
  obtain ⟨hrules, hsettled⟩ := Expansion.settled_of_expand (ordered_of_resolve horder) hids hexpand
  refine ⟨hsettled, ?_, ?_⟩
  · rw [Expansion.order_eq hrules]
    exact hids
  · rw [hrules]
    exact perm_of_resolve horder

/-- Resolution accepts the part, since it accepts the grammar. -/
theorem ClosedPart.exists_order {g h : Grammar} (hpart : g.ClosedPart h) {order : List Rule}
    (horder : (resolve g).order = .ok order) : ∃ order', (resolve h).order = .ok order' := by
  obtain ⟨hg, hacyclic⟩ := (exists_order_iff g).1 ⟨order, horder⟩
  exact (exists_order_iff h).2 ⟨hpart.wellNamed hg, hpart.acyclic hacyclic⟩

/-- Rules that resolution accepts and that have entries in a settled expansion yield these entries. -/
theorem yieldsAs_of_settled {h : Grammar} {x : Expansion} {order : List Rule} (hx : x.Settled)
    (hids : x.order.Nodup) (horder : (resolve h).order = .ok order)
    (hentry : ∀ r ∈ h, ∃ e ∈ x.rules, e.rule = r) : YieldsAs h x := by
  obtain ⟨y, hexpand, -, hsub⟩ :=
    hx.expand hids (ordered_of_resolve horder) (nodup_ids_of_resolve horder)
      fun r hr => hentry r ((perm_of_resolve horder).mem_iff.1 hr)
  have hy : (generate h).outcome = .ok y := by
    rw [outcome_eq_of_resolve horder, hexpand]
    rfl
  obtain ⟨-, hids', hperm'⟩ := settled_of_generate hy
  refine ⟨y, hy, hperm', ?_⟩
  intro r hr
  obtain ⟨e, he, rfl⟩ := List.mem_map.1 (hperm'.mem_iff.2 hr)
  exact ⟨e, rfl, Expansion.get?_of_mem hids (hsub e he), Expansion.get?_of_mem hids' he⟩

/-- The rules of a closed part yield what they do in the whole grammar, whose entries settle the part already. -/
theorem ClosedPart.yieldsAs {g h : Grammar} (hpart : g.ClosedPart h) {x : Expansion}
    (hx : (generate g).outcome = .ok x) : YieldsAs h x := by
  obtain ⟨hsettled, hids, hperm⟩ := settled_of_generate hx
  obtain ⟨_, horder, -⟩ := exists_order_of_generate hx
  obtain ⟨order, horder⟩ := hpart.exists_order horder
  -- the rules have their entries in the expansion of the grammar, and these do not change
  apply yieldsAs_of_settled hsettled hids horder
  intro r hr
  exact List.mem_map.1 (hperm.mem_iff.2 (hpart.subset r hr))

/-- In a grammar that generates, all rules that hold what they refer to yield the same for themselves. So it
makes no difference how the rules are ordered, or whether those are there that no other refers to. -/
theorem yieldsAs_of_generate {g : Grammar} {x : Expansion} (hx : (generate g).outcome = .ok x) :
    (∀ h, g.ClosedPart h → YieldsAs h x) ∧ (∀ h : Grammar, h.Perm g → YieldsAs h x) ∧
      ∀ keep : Rule → Bool, (∀ r ∈ g, keep r = true → ∀ s, g.Refers r s → keep s = true) →
        YieldsAs (g.filter keep) x := by
  obtain ⟨order, horder, -⟩ := exists_order_of_generate hx
  have hids : (ids g).Nodup := (resolve_eq_ok_iff.1 horder).1.nodup
  refine ⟨?_, ?_, ?_⟩
  · intro h hpart
    exact hpart.yieldsAs hx
  · intro h hperm
    exact (ClosedPart.of_perm hids hperm).yieldsAs hx
  · intro keep hkeep
    exact (ClosedPart.of_filter hids hkeep).yieldsAs hx

theorem closedPart_flights : flights.ClosedPart [cityRule, routeRule] := by
  have hclosed : ∀ r ∈ [cityRule, routeRule], ∀ s ∈ flights, s.id ∈ r.references →
      s ∈ [cityRule, routeRule] := by decide +kernel
  refine ⟨by decide +kernel, by decide +kernel, ?_⟩
  intro r hr s hrs
  exact hclosed r hr s hrs.1 hrs.2

/-- Of the flights: the entities alone, all rules in another order, and the entities as they are filtered out. -/
theorem yieldsAs_of_generate_flights :
    (generate flights).outcome = .ok flightsExpansion ∧
      YieldsAs [cityRule, routeRule] flightsExpansion ∧
      YieldsAs [cityRule, flyRule, routeRule] flightsExpansion ∧
      YieldsAs (flights.filter fun r => r.kind = .entity) flightsExpansion := by
  obtain ⟨hparts, hperms, hfilters⟩ := yieldsAs_of_generate generate_flights
  have hkeep : ∀ r ∈ flights, r.kind = .entity → ∀ s ∈ flights, s.id ∈ r.references →
      s.kind = .entity := by decide +kernel
  refine ⟨generate_flights, hparts _ closedPart_flights, hperms _ (by decide +kernel), ?_⟩
  apply hfilters
  intro r hr hkind s hrs
  exact decide_eq_true (hkeep r hr (of_decide_eq_true hkind) s hrs.1 hrs.2)

end Grammar

end UtteranceGrammar
