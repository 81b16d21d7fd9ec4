/-
The order in which resolution puts the rules.

A grammar gets an order if its names are distinct, its references defined, and the walk along its
references meets no cycle (`resolve_eq_ok_iff`). The walk then settles every edge in the only way left,
by finishing its target first; so a rule that refers to another stands behind it. A rule that refers to
none may stand anywhere, and those that the walk has not met stand behind all that it has.

What expansion needs of an order is `Ordered`, that names referred to are borne by rules further in
front, and that the order is the grammar, rearranged.
-/
import Mathlib.Data.List.Induction
import Mathlib.Data.List.Nodup
import UtteranceGrammar.Validation.Resolution
import UtteranceGrammar.Proofs.Dependency.Cycles

set_option autoImplicit false

namespace UtteranceGrammar

/-! ## Names -/

/-- In a list of distinct keys, an element is the first one of its key. -/
theorem find?_key {α : Type} {key : α → Name} {l : List α} (hkeys : (l.map key).Nodup) {a : α}
    (ha : a ∈ l) : l.find? (fun b => key b = key a) = some a := by
  induction l with
  | nil => exact absurd ha List.not_mem_nil
  | cons b l ih =>
    rw [List.map_cons, List.nodup_cons] at hkeys
    rcases List.mem_cons.1 ha with rfl | ha
    · rw [List.find?_cons_of_pos (by simp)]
    · have hne : ¬key b = key a := by
        intro heq
        exact hkeys.1 (by rw [heq]; exact List.mem_map_of_mem ha)
      rw [List.find?_cons_of_neg (by simpa using hne)]
      exact ih hkeys.2 ha

namespace Grammar

/-- Nothing is repeated if all names are different and none is an earlier one. -/
theorem repeatsAfter_eq_nil_iff (earlier : List Name) (rs : List Rule) :
    repeatsAfter earlier rs = [] ↔ (rs.map Rule.id).Nodup ∧ ∀ r ∈ rs, r.id ∉ earlier := by
  induction rs generalizing earlier with
  | nil => simp [repeatsAfter]
  | cons r rs ih =>
    rw [repeatsAfter]
    by_cases hr : r.id ∈ earlier
    · rw [if_pos hr]
      constructor
      · intro h
        exact absurd h (List.cons_ne_nil _ _)
      · intro h
        exact absurd hr (h.2 r List.mem_cons_self)
    · rw [if_neg hr, ih, List.map_cons, List.nodup_cons, List.forall_mem_cons]
      constructor
      · rintro ⟨hnodup, hnot⟩
        refine ⟨⟨?_, hnodup⟩, hr, fun s hs hmem => hnot s hs (List.mem_cons_of_mem _ hmem)⟩
        intro hmem
        obtain ⟨s, hs, hid⟩ := List.mem_map.1 hmem
        exact hnot s hs (by rw [hid]; exact List.mem_cons_self)
      · rintro ⟨⟨hnot, hnodup⟩, _, hearlier⟩
        refine ⟨hnodup, fun s hs hmem => ?_⟩
        rcases List.mem_cons.1 hmem with hid | hmem
        · exact hnot (List.mem_map.2 ⟨s, hs, hid⟩)
        · exact hearlier s hs hmem

/-- The names are distinct, and every reference is to one of them. -/
structure WellNamed (g : Grammar) : Prop where
  nodup : (ids g).Nodup
  defined : ∀ r ∈ g, ∀ x ∈ r.references, x ∈ ids g

/-- A look at names alone finds no error in a well-named grammar, and in no other. -/
theorem countP_nameDiagnostics_eq_zero_iff (g : Grammar) :
    (nameDiagnostics g).countP Diagnostic.isError = 0 ↔ WellNamed g := by
  rw [List.countP_eq_zero, nameDiagnostics, List.forall_mem_append, List.forall_mem_append]
  constructor
  · rintro ⟨⟨hdup, hundef⟩, _⟩
    constructor
    · refine ((repeatsAfter_eq_nil_iff [] g).1 (List.eq_nil_iff_forall_not_mem.2 ?_)).1
      intro r hr
      exact hdup _ (List.mem_map_of_mem hr) rfl
    · intro r hr x hx
      by_contra hnot
      refine hundef (.undefinedReference r.id x) (List.mem_flatMap.2 ⟨r, hr, ?_⟩) rfl
      exact List.mem_map_of_mem (List.mem_filter.2 ⟨hx, decide_eq_true hnot⟩)
  · intro hg
    refine ⟨⟨?_, ?_⟩, ?_⟩
    · intro d hd
      have hnil : repeats g = [] :=
        (repeatsAfter_eq_nil_iff [] g).2 ⟨hg.nodup, fun _ _ => List.not_mem_nil⟩
      rw [duplicateRules, hnil] at hd
      exact absurd hd List.not_mem_nil
    · intro d hd
      obtain ⟨r, hr, hd⟩ := List.mem_flatMap.1 hd
      obtain ⟨x, hx, -⟩ := List.mem_map.1 hd
      obtain ⟨href, hundef⟩ := List.mem_filter.1 hx
      exact absurd (hg.defined r hr x href) (of_decide_eq_true hundef)
    · intro d hd
      obtain ⟨r, -, rfl⟩ := List.mem_map.1 hd
      exact Bool.false_ne_true

/-- Rules of distinct names are found by their names. -/
theorem find?_id {g : Grammar} (hids : (ids g).Nodup) {r : Rule} (hr : r ∈ g) :
    g.find? (·.id = r.id) = some r :=
  find?_key hids hr

/-! ## The graph of references -/

/-- One rule of the grammar is referred to by another. -/
def Refers (g : Grammar) (r s : Rule) : Prop := s ∈ g ∧ s.id ∈ r.references

/-- There is an edge from a rule's name to each name that it refers to. -/
theorem edge_dependencies_iff {g : Grammar} {u x : Name} :
    (dependencies g).Edge u x ↔ ∃ r ∈ g, r.id = u ∧ x ∈ r.references := by
  simp only [Graph.Edge, dependencies, List.mem_flatMap, List.mem_map, Prod.mk.injEq,
    List.mem_eraseDups]
  constructor
  · rintro ⟨r, hr, y, hy, rfl, rfl⟩
    exact ⟨r, hr, rfl, hy⟩
  · rintro ⟨r, hr, rfl, hx⟩
    exact ⟨r, hr, x, hx, rfl, rfl⟩

theorem mem_dependents {g : Grammar} {r : Rule} (hr : r ∈ g) {x : Name} (hx : x ∈ r.references) :
    r.id ∈ dependents g := by
  refine List.mem_map_of_mem (List.mem_filter.2 ⟨hr, ?_⟩)
  cases hrefs : r.references with
  | nil => exact absurd (hrefs ▸ hx) List.not_mem_nil
  | cons y ys => rfl

/-! ## The arrangement -/

/-- Every rule stands behind the rules that it refers to. -/
def Ordered (rules : List Rule) : Prop :=
  ∀ before r behind, rules = before ++ r :: behind → ∀ x ∈ r.references, x ∈ ids before

theorem Ordered.of_append {rules rest : List Rule} (h : Ordered (rules ++ rest)) :
    Ordered rules := by
  intro before r behind hsplit
  exact h before r (behind ++ rest) (by rw [hsplit, List.append_assoc, List.cons_append])

/-- In an order, what a rule refers to is there. -/
theorem Ordered.mem_ids {rules : List Rule} (h : Ordered rules) {r : Rule} (hr : r ∈ rules)
    {id : Name} (hid : id ∈ r.references) : id ∈ ids rules := by
  obtain ⟨before, behind, hsplit⟩ := List.append_of_mem hr
  have hbefore := h before r behind hsplit id hid
  rw [hsplit, ids, List.map_append]
  exact List.mem_append_left _ hbefore

/-- What holds of the rules that a rule refers to holds of their names in it. -/
theorem Ordered.forall_references {rules : List Rule} (h : Ordered rules) {r : Rule} (hr : r ∈ rules)
    {P : Name → Prop} (hrules : ∀ s ∈ rules, s.id ∈ r.references → P s.id) : ∀ id ∈ r.references, P id := by
  intro id hid
  obtain ⟨s, hs, rfl⟩ := List.mem_map.1 (h.mem_ids hr hid)
  exact hrules s hs hid

theorem ordered_append_singleton {rules : List Rule} {r : Rule} :
    Ordered (rules ++ [r]) ↔ Ordered rules ∧ ∀ x ∈ r.references, x ∈ ids rules :=
  forall_split_append_singleton

theorem nodup_ids_append_singleton {rules : List Rule} {r : Rule} :
    (ids (rules ++ [r])).Nodup ↔ (ids rules).Nodup ∧ r.id ∉ ids rules := by
  rw [ids, List.map_append, List.map_singleton, List.nodup_append_comm, List.singleton_append,
    List.nodup_cons, and_comm]
  rfl

/-- What a rule has whenever all rules that it refers to have it, all rules in order have. -/
theorem Ordered.induct {rules : List Rule} (hord : Ordered rules) (hids : (ids rules).Nodup)
    {motive : Rule → Prop}
    (step : ∀ r ∈ rules, (∀ s ∈ rules, s.id ∈ r.references → motive s) → motive r) :
    ∀ r ∈ rules, motive r := by
  induction rules using List.reverseRecOn with
  | nil => exact fun r hr => absurd hr List.not_mem_nil
  | append_singleton rules r ih =>
    obtain ⟨hnodup, hnew⟩ := nodup_ids_append_singleton.1 hids
    -- nothing refers to the last rule
    have hlast : ∀ s ∈ rules ++ [r], r.id ∉ s.references := by
      rw [List.forall_mem_append, List.forall_mem_singleton]
      refine ⟨fun s hs hid => hnew (hord.of_append.mem_ids hs hid), fun hid => ?_⟩
      exact hnew (hord rules r [] rfl r.id hid)
    have hsplit : ∀ s ∈ rules ++ [r], s ∈ rules ∨ s = r := by
      intro s hs
      exact (List.mem_append.1 hs).imp_right List.mem_singleton.1
    have hrules : ∀ s ∈ rules, motive s := by
      refine ih hord.of_append hnodup fun s hs hrefs => ?_
      have hmem := List.mem_append_left [r] hs
      refine step s hmem fun t ht hid => ?_
      rcases hsplit t ht with ht | rfl
      · exact hrefs t ht hid
      · exact absurd hid (hlast s hmem)
    have hmem : r ∈ rules ++ [r] := List.mem_append_right _ (List.mem_singleton_self r)
    rw [List.forall_mem_append, List.forall_mem_singleton]
    refine ⟨hrules, step r hmem fun s hs hid => ?_⟩
    rcases hsplit s hs with hs | rfl
    · exact hrules s hs
    · exact absurd hid (hlast s hmem)

/-- Arranging neither drops a rule nor adds one. -/
theorem mem_arrange {g : Grammar} (hids : (ids g).Nodup) (sorted : List Name) (r : Rule) :
    r ∈ arrange g sorted ↔ r ∈ g := by
  rw [arrange, List.mem_append, List.mem_filterMap, List.mem_filter]
  constructor
  · rintro (⟨id, -, hfind⟩ | ⟨hr, -⟩)
    · exact List.mem_of_find?_eq_some hfind
    · exact hr
  · intro hr
    by_cases hsorted : r.id ∈ sorted
    · exact .inl ⟨r.id, hsorted, find?_id hids hr⟩
    · exact .inr ⟨hr, decide_eq_true hsorted⟩

/-- Nothing is lost by the arrangement, and nothing listed twice. -/
theorem perm_arrange {g : Grammar} (hids : (ids g).Nodup) {sorted : List Name}
    (hsorted : sorted.Nodup) : (arrange g sorted).Perm g := by
  have hfind : ∀ {id r}, g.find? (·.id = id) = some r → r.id = id := by
    intro id r h
    simpa using List.find?_some h
  have hg : g.Nodup := List.Nodup.of_map _ hids
  refine (List.perm_ext_iff_of_nodup ?_ hg).2 (mem_arrange hids sorted)
  -- the rules found by name are distinct, and so are the others, whose names have not been met
  refine List.nodup_append.2 ⟨hsorted.filterMap ?_, hg.filter _, ?_⟩
  · intro x y r hx hy
    rw [← hfind hx, ← hfind hy]
  · intro r hr s hs hrs
    obtain ⟨id, hid, hr⟩ := List.mem_filterMap.1 hr
    refine absurd ?_ (of_decide_eq_true (List.mem_filter.1 hs).2)
    rw [← hrs, hfind hr]
    exact hid

/-- An order of the names in which every reference is settled arranges the rules in order. -/
theorem ordered_arrange {g : Grammar} (hg : WellNamed g) {sorted : List Name}
    (hnodup : sorted.Nodup) (hmem : ∀ u ∈ dependents g, u ∈ sorted)
    (hsettled : ∀ before u behind, sorted = before ++ u :: behind →
      ∀ x, (dependencies g).Edge u x → x ∈ before) :
    Ordered (arrange g sorted) := by
  intro before r behind hsplit x hx
  have hr : r ∈ g := by
    rw [← mem_arrange hg.nodup sorted, hsplit]
    exact List.mem_append_right _ List.mem_cons_self
  obtain ⟨s₁, s₂, hs⟩ := List.append_of_mem (hmem _ (mem_dependents hr hx))
  have hx₁ : x ∈ s₁ := hsettled s₁ r.id s₂ hs x (edge_dependencies_iff.2 ⟨r, hr, rfl, hx⟩)
  -- the rules in front of `r` are those of the names in front of its own
  have hbefore : before = s₁.filterMap fun id => g.find? (·.id = id) := by
    have hnot : r ∉ before ++ behind := by
      have harrange : (arrange g sorted).Nodup :=
        (perm_arrange hg.nodup hnodup).nodup_iff.2 (List.Nodup.of_map _ hg.nodup)
      rw [hsplit, List.nodup_middle, List.nodup_cons] at harrange
      exact harrange.1
    rw [List.mem_append, not_or] at hnot
    rw [arrange, hs, List.filterMap_append, List.filterMap_cons, find?_id hg.nodup hr] at hsplit
    simp only [List.append_assoc, List.cons_append] at hsplit
    exact ((List.append_cons_inj_of_notMem hnot.1 hnot.2).1 hsplit.symm).1
  obtain ⟨s, hsg, rfl⟩ := List.mem_map.1 (hg.defined r hr x hx)
  rw [hbefore]
  refine List.mem_map_of_mem (List.mem_filterMap.2 ⟨s.id, hx₁, find?_id hg.nodup hsg⟩)

/-! ## Resolution -/

/-- Resolution answers with an order if names and references are in order and no cycle is met. -/
theorem resolve_eq_ok_iff {g : Grammar} {order : List Rule} :
    (resolve g).order = .ok order ↔
      WellNamed g ∧ (dependencyWalk g).cycles = [] ∧ order = arrange g (dependencyWalk g).sorted := by
  rw [← countP_nameDiagnostics_eq_zero_iff, resolve]
  by_cases herrors : 0 < (nameDiagnostics g).countP Diagnostic.isError
  · simp only [if_pos herrors, reduceCtorEq, false_iff, not_and]
    intro hzero
    omega
  · have hzero : (nameDiagnostics g).countP Diagnostic.isError = 0 := by omega
    simp only [hzero, true_and]
    cases hcycles : (dependencyWalk g).cycles with
    | nil => simp [eq_comm]
    | cons c cs => simp

/-- The order that resolution finds is the grammar, rearranged. -/
theorem perm_of_resolve {g : Grammar} {order : List Rule} (h : (resolve g).order = .ok order) :
    order.Perm g := by
  obtain ⟨hg, -, rfl⟩ := resolve_eq_ok_iff.1 h
  exact perm_arrange hg.nodup (Walk.consistent_explore _ _).sorted_nodup

/-- In the order that resolution finds, every rule stands behind the rules that it refers to. -/
theorem ordered_of_resolve {g : Grammar} {order : List Rule} (h : (resolve g).order = .ok order) :
    Ordered order := by
  obtain ⟨hg, hcycles, rfl⟩ := resolve_eq_ok_iff.1 h
  apply ordered_arrange hg (Walk.consistent_explore _ _).sorted_nodup
  · intro u hu
    exact Walk.mem_sorted_explore hu
  · intro before u behind hs x hx
    exact Walk.mem_before_of_cycles_eq_nil hcycles hs hx

/-- The rules that resolution puts in order have distinct names. -/
theorem nodup_ids_of_resolve {g : Grammar} {order : List Rule}
    (h : (resolve g).order = .ok order) : (ids order).Nodup :=
  ((perm_of_resolve h).map Rule.id).nodup_iff.2 (resolve_eq_ok_iff.1 h).1.nodup

end Grammar

end UtteranceGrammar
