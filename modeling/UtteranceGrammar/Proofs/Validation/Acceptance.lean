/-
Which grammars resolution accepts, and the order that it gives them.

A grammar is accepted if and only if its names are distinct, its references defined, and no rule refers to
itself through others (`Grammar.resolve_accepts`). That a circle of references is found whenever there is
one needs no look at how the walk searches. An order that was found has every rule behind all that it
refers to, so a rule on a circle would have to stand in front of itself. That nothing else is refused does
need the walk: what it takes for a cycle is one.

The order is the grammar, rearranged. The walk starts at the rules that refer to any and follows their
references, so it meets every rule but those that take part in no reference. These are left over, and they
stand at the end as they were written.
-/
import UtteranceGrammar.Proofs.Dependency.Sorting
import UtteranceGrammar.Proofs.Validation.Order

set_option autoImplicit false

namespace UtteranceGrammar

namespace Grammar

variable {g : Grammar}

/-! ## What is asked of a grammar, and of an order -/

/-- No rule refers to itself, be it through other rules. -/
def Acyclic (g : Grammar) : Prop := ∀ r ∈ g, ¬Relation.TransGen g.Refers r r

/-- Whether the rule refers to none and none refers to it. -/
def isIsolated (g : Grammar) (r : Rule) : Bool :=
  r.references.isEmpty && decide (r.id ∉ references g)

/-- The order holds each rule of the grammar once, behind all rules that it refers to, be it through other
rules. At the end stand the isolated rules, as they were written, and nowhere else. -/
structure Arranges (g : Grammar) (order : List Rule) : Prop where
  perm : order.Perm g
  behind : ∀ before r behind, order = before ++ r :: behind →
    ∀ s, Relation.TransGen g.Refers r s → s ∈ before
  tail : ∃ front, order = front ++ g.filter g.isIsolated ∧ ∀ r ∈ front, g.isIsolated r = false

/-! ## Rules and their names -/

theorem eq_of_id_eq (hids : (ids g).Nodup) {r s : Rule} (hr : r ∈ g) (hs : s ∈ g)
    (h : r.id = s.id) : r = s :=
  List.inj_on_of_nodup_map hids hr hs h

/-- A way along edges between names is a way along references between the rules of these names. -/
theorem transGen_refers_of_edge (hg : WellNamed g) {u x : Name}
    (h : Relation.TransGen (dependencies g).Edge u x) :
    ∃ r ∈ g, r.id = u ∧ ∃ s ∈ g, s.id = x ∧ Relation.TransGen g.Refers r s := by
  induction h with
  | single hux =>
    obtain ⟨r, hr, hru, hx⟩ := edge_dependencies_iff.1 hux
    obtain ⟨s, hs, hsx⟩ := List.mem_map.1 (hg.defined r hr _ hx)
    refine ⟨r, hr, hru, s, hs, hsx, .single ⟨hs, ?_⟩⟩
    rw [hsx]
    exact hx
  | tail _ hxy ih =>
    obtain ⟨r, hr, hru, s, hs, hsx, hrs⟩ := ih
    obtain ⟨s', hs', hsx', hy⟩ := edge_dependencies_iff.1 hxy
    obtain rfl := eq_of_id_eq hg.nodup hs' hs (hsx'.trans hsx.symm)
    obtain ⟨t, ht, hty⟩ := List.mem_map.1 (hg.defined s' hs' _ hy)
    refine ⟨r, hr, hru, t, ht, hty, hrs.tail ⟨ht, ?_⟩⟩
    rw [hty]
    exact hy

/-! ## Acceptance -/

/-- Without a circle of references the walk records no cycle. -/
theorem cycles_eq_nil_of_acyclic (hg : WellNamed g) (hacyclic : Acyclic g) :
    (dependencyWalk g).cycles = [] := by
  by_contra hne
  obtain ⟨c, hc⟩ := List.exists_mem_of_ne_nil _ hne
  have hcycle := Walk.isCycle_explore _ _ c hc
  obtain ⟨-, u, below, rfl⟩ := id hcycle
  have hu := hcycle.transGen_of_mem List.mem_cons_self List.mem_cons_self
  obtain ⟨r, hr, hru, s, hs, hsu, hrs⟩ := transGen_refers_of_edge hg hu
  obtain rfl := eq_of_id_eq hg.nodup hr hs (hru.trans hsu.symm)
  exact hacyclic r hr hrs

/-- In an order, what a rule refers to stands before it. -/
theorem Ordered.mem_before_of_refers {order : List Rule} (hord : Ordered order) (hperm : order.Perm g)
    (hids : (ids order).Nodup) :
    ∀ before r behind, order = before ++ r :: behind → ∀ s, g.Refers r s → s ∈ before := by
  intro before r behind hsplit s hrs
  -- a rule of that name stands before `r`, and there is but one
  obtain ⟨t, ht, hts⟩ := List.mem_map.1 (hord before r behind hsplit s.id hrs.2)
  have htmem : t ∈ order := by
    rw [hsplit]
    exact List.mem_append_left _ ht
  obtain rfl := eq_of_id_eq hids htmem (hperm.mem_iff.2 hrs.1) hts
  exact ht

/-- What it refers to through others stands before it too. -/
theorem Ordered.mem_before {order : List Rule} (hord : Ordered order) (hperm : order.Perm g)
    (hids : (ids order).Nodup) {r s : Rule} (hrs : Relation.TransGen g.Refers r s) :
    ∀ before behind, order = before ++ r :: behind → s ∈ before :=
  mem_before_of_transGen (hord.mem_before_of_refers hperm hids) hrs

/-- Rules that can be ordered have no circle. -/
theorem not_transGen_self {order : List Rule} (hperm : order.Perm g) (hids : (ids order).Nodup)
    (hord : Ordered order) : Acyclic g := by
  intro r hr
  have hnodup : order.Nodup := List.Nodup.of_map _ hids
  exact not_transGen_of_mem_before hnodup (hord.mem_before_of_refers hperm hids) (hperm.mem_iff.2 hr)

/-! ## The end of the order -/

/-- The walk meets a rule if the rule refers to any or is referred to. -/
theorem mem_sorted_iff_not_isolated (hg : WellNamed g) (hcycles : (dependencyWalk g).cycles = [])
    {r : Rule} (hr : r ∈ g) : r.id ∈ (dependencyWalk g).sorted ↔ g.isIsolated r = false := by
  have hisolated : g.isIsolated r = false ↔ r.references ≠ [] ∨ r.id ∈ references g := by
    rw [isIsolated, Bool.and_eq_false_iff, List.isEmpty_eq_false_iff, decide_eq_false_iff_not,
      not_not]
  rw [hisolated]
  constructor
  · intro hmem
    rcases Walk.mem_or_edge_of_mem_explore hmem with hroot | ⟨u, hu⟩
    · obtain ⟨s, hs, hsr⟩ := List.mem_map.1 hroot
      obtain ⟨hs, hrefs⟩ := List.mem_filter.1 hs
      obtain rfl := eq_of_id_eq hg.nodup hs hr hsr
      refine .inl fun hnil => ?_
      rw [hnil] at hrefs
      exact absurd hrefs (by decide)
    · obtain ⟨s, hs, -, hsr⟩ := edge_dependencies_iff.1 hu
      exact .inr (List.mem_flatMap.2 ⟨s, hs, hsr⟩)
  · rintro (hrefs | href)
    · obtain ⟨x, hx⟩ := List.exists_mem_of_ne_nil _ hrefs
      exact Walk.mem_sorted_explore (mem_dependents hr hx)
    · -- a rule that refers to `r` is finished, and so `r` was finished before
      obtain ⟨s, hs, hsr⟩ := List.mem_flatMap.1 href
      have hfinished : s.id ∈ (dependencyWalk g).sorted :=
        Walk.mem_sorted_explore (mem_dependents hs hsr)
      obtain ⟨before, behind, hsplit⟩ := List.append_of_mem hfinished
      have hbefore : r.id ∈ before := Walk.mem_before_of_cycles_eq_nil hcycles hsplit
        (edge_dependencies_iff.2 ⟨s, hs, rfl, hsr⟩)
      rw [hsplit]
      exact List.mem_append_left _ hbefore

theorem arrange_eq_append (hg : WellNamed g) (hcycles : (dependencyWalk g).cycles = []) :
    ∃ front, arrange g (dependencyWalk g).sorted = front ++ g.filter g.isIsolated ∧
      ∀ r ∈ front, g.isIsolated r = false := by
  refine ⟨(dependencyWalk g).sorted.filterMap fun id => g.find? (·.id = id), ?_, ?_⟩
  · rw [arrange]
    refine congrArg _ (List.filter_congr fun r hr => ?_)
    have hiff := mem_sorted_iff_not_isolated hg hcycles hr
    cases hisolated : g.isIsolated r with
    | false => exact decide_eq_false (not_not.2 (hiff.2 hisolated))
    | true =>
      refine decide_eq_true fun hmem => ?_
      rw [hiff.1 hmem] at hisolated
      exact Bool.false_ne_true hisolated
  · intro r hr
    obtain ⟨id, hid, hfind⟩ := List.mem_filterMap.1 hr
    have hrid : r.id = id := by simpa using List.find?_some hfind
    rw [← hrid] at hid
    exact (mem_sorted_iff_not_isolated hg hcycles (List.mem_of_find?_eq_some hfind)).1 hid

/-! ## Resolution -/

/-- Resolution finds an order just for well-named grammars without circles. -/
theorem exists_order_iff (g : Grammar) :
    (∃ order, (resolve g).order = .ok order) ↔ WellNamed g ∧ Acyclic g := by
  constructor
  · rintro ⟨order, horder⟩
    refine ⟨(resolve_eq_ok_iff.1 horder).1, ?_⟩
    exact not_transGen_self (perm_of_resolve horder) (nodup_ids_of_resolve horder)
      (ordered_of_resolve horder)
  · rintro ⟨hg, hacyclic⟩
    exact ⟨_, resolve_eq_ok_iff.2 ⟨hg, cycles_eq_nil_of_acyclic hg hacyclic, rfl⟩⟩

/-- Resolution accepts exactly the grammars with distinct names, defined references and no circle of
references, and it arranges them. -/
theorem resolve_accepts (g : Grammar) :
    ((∃ order, (resolve g).order = .ok order) ↔ WellNamed g ∧ Acyclic g) ∧
      ∀ order, (resolve g).order = .ok order → g.Arranges order := by
  refine ⟨exists_order_iff g, ?_⟩
  intro order horder
  have hperm := perm_of_resolve horder
  refine ⟨hperm, ?_, ?_⟩
  · intro before r behind hsplit s hrs
    exact (ordered_of_resolve horder).mem_before hperm (nodup_ids_of_resolve horder) hrs before
      behind hsplit
  · obtain ⟨hg, hcycles, rfl⟩ := resolve_eq_ok_iff.1 horder
    exact arrange_eq_append hg hcycles

/-- Two ways to a city, and two rules beside them. -/
def returnTrip : Grammar :=
  [⟨"Bye", .intent, [[.literals ["bye".toList] false]]⟩,
    ⟨"Trip", .intent, [[.reference "OUT" false], [.group [[.reference "BACK" true]] false]]⟩,
    ⟨"OUT", .plain, [[.literals ["to".toList] false], [.reference "CITY" false]]⟩,
    ⟨"BACK", .plain, [[.literals ["from".toList] false], [.reference "CITY" false]]⟩,
    ⟨"CITY", .entity, [[.literals ["Prague".toList] false]]⟩,
    ⟨"Hello", .intent, [[.literals ["hello".toList] false]]⟩]

/-- A trip there and back: the rules that it refers to come first, and those that stand alone last. -/
theorem resolve_accepts_returnTrip :
    ∃ order, (resolve returnTrip).order = .ok order ∧
      ids order = ["CITY", "OUT", "BACK", "Trip", "Bye", "Hello"] ∧
      (WellNamed returnTrip ∧ Acyclic returnTrip) ∧ returnTrip.Arranges order := by
  obtain ⟨hiff, harranges⟩ := resolve_accepts returnTrip
  have horder : (resolve returnTrip).order =
      .ok (arrange returnTrip ["CITY", "OUT", "BACK", "Trip"]) := by decide +kernel
  exact ⟨_, horder, by decide +kernel, hiff.1 ⟨_, horder⟩, harranges _ horder⟩

end Grammar

end UtteranceGrammar
