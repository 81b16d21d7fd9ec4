/-
The order in which a walk lists the nodes, on graphs that may have cycles.

A walk finishes a node behind the targets of its edges, except where an edge closes a cycle that the walk records
(`settled_explore`). So the recorded cycles tell exactly which edges the order does not heed. Without them the
rest of the graph, as far as the walk comes, has no cycle at all, and the list of finished nodes is an order of it
(`Graph.explore_sorts`).

For a node that lies on no cycle more is true. All that can be reached from it stands in front of it, also where
the way there runs through cycles (`Graph.sublist_explore`). Edge by edge this cannot be shown, for on the way an
edge may not have been heeded. The reason is the path: from every node on it a way leads to the last one, so a node
that is reached from the last one and stands on the path would close a cycle through it. When a node on no cycle is
left, all that it leads to has been met, none of it is on the path, and so it is finished.
-/
import Mathlib.Data.List.Infix
import UtteranceGrammar.Proofs.Dependency.Cycles

set_option autoImplicit false

namespace UtteranceGrammar

/-! ## Lists in which some elements stand in front of others -/

section Lists

variable {α : Type} {l : List α} {u v : α}

/-- If each element has its successors in front of it, it has all in front that can be reached from it. -/
theorem mem_before_of_transGen {R : α → α → Prop}
    (hR : ∀ before u behind, l = before ++ u :: behind → ∀ v, R u v → v ∈ before)
    (huv : Relation.TransGen R u v) : ∀ before behind, l = before ++ u :: behind → v ∈ before := by
  induction huv using Relation.TransGen.head_induction_on with
  | single huv => exact fun before behind hl => hR before _ behind hl v huv
  | @head u x hux _ ih =>
    intro before behind hl
    obtain ⟨before₁, before₂, hbefore⟩ := List.append_of_mem (hR before u behind hl x hux)
    rw [hbefore, List.append_assoc, List.cons_append] at hl
    rw [hbefore]
    exact List.mem_append_left _ (ih before₁ (before₂ ++ u :: behind) hl)

/-- An element that has its successors in front of it, in a list without repetitions, is on no cycle. -/
theorem not_transGen_of_mem_before {R : α → α → Prop} (hl : l.Nodup)
    (hR : ∀ before u behind, l = before ++ u :: behind → ∀ v, R u v → v ∈ before) (hu : u ∈ l) :
    ¬Relation.TransGen R u u := by
  intro huu
  obtain ⟨before, behind, hsplit⟩ := List.append_of_mem hu
  have hmem : u ∈ before := mem_before_of_transGen hR huu before behind hsplit
  rw [hsplit, List.nodup_append] at hl
  exact hl.2.2 u hmem u List.mem_cons_self rfl

/-- What stands in front of an element comes before it in the list. -/
theorem sublist_of_mem_before {before behind : List α} (hv : v ∈ before) :
    [v, u].Sublist (before ++ u :: behind) :=
  (List.singleton_sublist.2 hv).append (List.singleton_sublist.2 List.mem_cons_self)

end Lists

variable {α : Type} [DecidableEq α]

/-! ## The edges that the order heeds -/

instance (w : Walk α) (u v : α) : Decidable (w.Closed u v) :=
  inferInstanceAs (Decidable (∃ c ∈ w.cycles, [u, v] <:+ c))

/-- The graph without the edges that have closed the cycles recorded by a walk. -/
def Graph.opened (g : Graph α) (w : Walk α) : Graph α :=
  ⟨g.edges.filter fun e => ¬w.Closed e.1 e.2⟩

/-- The edges that are left are those that have closed no recorded cycle. -/
theorem Graph.edge_opened_iff {g : Graph α} {w : Walk α} {u v : α} :
    (g.opened w).Edge u v ↔ g.Edge u v ∧ ¬w.Closed u v := by
  simp [Edge, opened]

namespace Walk

variable {g : Graph α} {w w' : Walk α} {u v : α} {us roots : List α}

/-- The last edge of a recorded cycle leads to the node at which the cycle starts. -/
theorem exists_cycle_of_closed (h : (g.explore roots).Closed u v) :
    ∃ c ∈ (g.explore roots).cycles, c.head? = some v ∧ [u, v] <:+ c := by
  obtain ⟨c, hc, huv⟩ := h
  obtain ⟨-, x, below, rfl⟩ := isCycle_explore g roots c hc
  have hlast : v = x := by
    obtain ⟨front, hfront⟩ := huv
    rw [← List.cons_append, List.append_cons front u [v]] at hfront
    exact (List.append_singleton_inj.1 hfront).2
  exact ⟨_, hc, by rw [hlast, List.head?_cons], huv⟩

/-- Of the edges that have closed no cycle, every one leads to a node finished before its source. -/
theorem mem_before_of_opened {before behind : List α}
    (hs : (g.explore roots).sorted = before ++ u :: behind)
    (huv : (g.opened (g.explore roots)).Edge u v) : v ∈ before := by
  obtain ⟨hedge, hopen⟩ := Graph.edge_opened_iff.1 huv
  exact (settled_explore g roots before u behind hs v hedge).resolve_right hopen

/-- Every cycle that the walk comes to has an edge that has closed a recorded cycle. -/
theorem exists_closed_of_isCycle {c : List α} (hc : g.IsCycle c)
    (hreach : ∀ x ∈ c, g.Reachable roots x) :
    ∃ x y, [x, y] <:+: c ∧ (g.explore roots).Closed x y := by
  by_contra hnone
  push Not at hnone
  -- otherwise all its edges would be heeded by the order
  have hopened : (g.opened (g.explore roots)).IsCycle c := by
    refine ⟨?_, hc.2⟩
    rw [List.isChain_iff_forall_rel_of_append_cons_cons]
    intro x y front rest hsplit
    refine Graph.edge_opened_iff.2 ⟨?_, hnone x y ⟨front, rest, by simp [hsplit]⟩⟩
    exact List.isChain_iff_forall_rel_of_append_cons_cons.1 hc.1 hsplit
  obtain ⟨-, x, below, rfl⟩ := id hc
  have hx : x ∈ (g.explore roots).sorted :=
    (mem_sorted_explore_iff g roots x).2 (hreach x List.mem_cons_self)
  apply not_transGen_of_mem_before (consistent_explore g roots).sorted_nodup _ hx
    (hopened.transGen_of_mem List.mem_cons_self List.mem_cons_self)
  exact fun before u behind hs v huv => mem_before_of_opened hs huv

/-! ## Nodes on no cycle -/

omit [DecidableEq α] in
/-- From each node of a chain a way leads to the last one. -/
theorem reflTransGen_last {path : List α} (hchain : (path ++ [u]).IsChain g.Edge) :
    ∀ x ∈ path ++ [u], Relation.ReflTransGen g.Edge x u := by
  rw [List.forall_mem_append, List.forall_mem_singleton]
  refine ⟨?_, .refl⟩
  apply hchain.backwards_concat_induction (Relation.ReflTransGen g.Edge · u)
  · exact fun x y hxy hyu => .head hxy hyu
  · exact .refl

omit [DecidableEq α] in
/-- When a node on no cycle is about to be left, all that can be reached from it is finished. -/
theorem mem_sorted_of_transGen {path : List α} (hpath : w.path = path ++ [u])
    (hchain : w.path.IsChain g.Edge) (hcovers : Covers g w) (hmet : ∀ v, g.Edge u v → Met w v)
    (hu : ¬Relation.TransGen g.Edge u u) (huv : Relation.TransGen g.Edge u v) : v ∈ w.sorted := by
  -- a node on the path would lead back to `u`
  have hoff : ∀ {x}, Relation.TransGen g.Edge u x → Met w x → x ∈ w.sorted := by
    intro x hux hx
    refine hx.resolve_right fun hmem => hu ?_
    rw [hpath] at hmem hchain
    exact hux.trans_left (reflTransGen_last hchain x hmem)
  induction huv with
  | single hux => exact hoff (.single hux) (hmet _ hux)
  | tail hux hxy ih => exact hoff (hux.tail hxy) (hcovers _ ih _ hxy)

/-- Every finished node that lies on no cycle stands behind all that can be reached from it. -/
def Trailing (g : Graph α) (w : Walk α) : Prop :=
  ∀ before u behind, w.sorted = before ++ u :: behind → ¬Relation.TransGen g.Edge u u →
    ∀ v, Relation.TransGen g.Edge u v → v ∈ before

/-- Visits keep it that finished nodes on no cycle stand behind all that can be reached from them. When such a node
is left, all that can be reached from it has been met, and nothing of that is on the path, from where a way would
lead back to the node. -/
theorem Visits.trailing (h : Visits g w us w') (hc : w.Consistent) (hcovers : Covers g w)
    (hus : ∀ v ∈ us, (w.path ++ [v]).IsChain g.Edge) (hw : Trailing g w) : Trailing g w' := by
  induction h with
  | nil w => exact hw
  | finished _ _ ih => exact ih hc hcovers (List.forall_mem_cons.1 hus).2 hw
  | closes _ _ ih => exact ih hc.close hcovers (List.forall_mem_cons.1 hus).2 hw
  | @enters w below w' u us hm successors rest ihs ihr =>
    obtain ⟨hu, hus⟩ := List.forall_mem_cons.1 hus
    have hvisit : Visits g w [u] (below.leave u) := .enters hm successors (.nil _)
    have hbelow : Trailing g below := by
      apply ihs (hc.enter hm) (hcovers.enter u) _ hw
      exact fun v hv => isChain_append_successor hu hv
    have hleave : Trailing g (below.leave u) := by
      refine forall_split_append_singleton.2 ⟨hbelow, fun hcycle v huv => ?_⟩
      have hchain : below.path.IsChain g.Edge := by
        rw [successors.path_eq]
        exact hu
      have hmet : ∀ x, g.Edge u x → Met below x := by
        intro x hux
        exact successors.met (hc.enter hm) x (Graph.mem_successors.2 hux)
      exact mem_sorted_of_transGen successors.path_eq hchain
        (successors.covers (hc.enter hm) (hcovers.enter u)) hmet hcycle huv
    apply ihr (hvisit.consistent hc) (hvisit.covers hc hcovers) _ hleave
    rw [successors.path_leave]
    exact hus

end Walk

namespace Graph

/-! ## The whole walk -/

/-- A walk lists the nodes that can be reached from its roots, each once. Of every edge between them the target
stands in front, or the edge is the last of a recorded cycle that starts at its target. So if no cycle is recorded,
every node stands behind all that can be reached from it; and in any case what is left of the graph without these
last edges has no cycle, and the list is an order of it. -/
theorem explore_sorts (g : Graph α) (roots : List α) :
    (g.explore roots).sorted.Nodup ∧
    (∀ v, v ∈ (g.explore roots).sorted ↔ g.Reachable roots v) ∧
    (∀ u v, g.Reachable roots u → g.Edge u v →
      [v, u].Sublist (g.explore roots).sorted ∨
        ∃ c ∈ (g.explore roots).cycles, c.head? = some v ∧ [u, v] <:+ c) ∧
    ((g.explore roots).cycles = [] → ∀ u v, g.Reachable roots u → Relation.TransGen g.Edge u v →
      [v, u].Sublist (g.explore roots).sorted) ∧
    ∀ u, g.Reachable roots u → ¬Relation.TransGen (g.opened (g.explore roots)).Edge u u ∧
      ∀ v, (g.opened (g.explore roots)).Edge u v → [v, u].Sublist (g.explore roots).sorted := by
  have hmem := Walk.mem_sorted_explore_iff g roots
  have hnodup := (Walk.consistent_explore g roots).sorted_nodup
  have hsettled := Walk.settled_explore g roots
  refine ⟨hnodup, hmem, ?_, ?_, ?_⟩
  · intro u v hu huv
    obtain ⟨before, behind, hs⟩ := List.append_of_mem ((hmem u).2 hu)
    apply (hsettled before u behind hs v huv).imp
    · intro hv
      rw [hs]
      exact sublist_of_mem_before hv
    · exact Walk.exists_cycle_of_closed
  · intro hcycles u v hu huv
    obtain ⟨before, behind, hs⟩ := List.append_of_mem ((hmem u).2 hu)
    rw [hs]
    apply sublist_of_mem_before
    refine mem_before_of_transGen (fun before u behind hs v huv => ?_) huv before behind hs
    exact Walk.mem_before_of_cycles_eq_nil hcycles hs huv
  · intro u hu
    constructor
    · refine not_transGen_of_mem_before hnodup (fun before u behind hs v huv => ?_) ((hmem u).2 hu)
      exact Walk.mem_before_of_opened hs huv
    · intro v huv
      obtain ⟨before, behind, hs⟩ := List.append_of_mem ((hmem u).2 hu)
      rw [hs]
      exact sublist_of_mem_before (Walk.mem_before_of_opened hs huv)

/-- Two cycles that share a node, a loop, an edge given twice, a node that leads to all of them, one that only the
cycles lead to, and one that nothing leads to. -/
def interlocked : Graph String :=
  ⟨[("r", "a"), ("a", "b"), ("b", "a"), ("a", "c"), ("c", "b"), ("c", "c"), ("a", "c"), ("b", "d"),
    ("e", "a")]⟩

/-- What the walk finds in the two interlocked cycles and the loop, with roots given twice. -/
theorem explore_interlocked :
    (interlocked.explore ["r", "d", "r"]).sorted = ["d", "b", "c", "a", "r"] ∧
      (interlocked.explore ["r", "d", "r"]).cycles = [["a", "b", "a"], ["c", "c"]] := by
  decide +kernel

/-- There the order has a node that cannot be reached left out, the edge that closed a cycle, and the other edge of
that cycle heeded. -/
theorem explore_sorts_interlocked :
    interlocked.Reachable ["r", "d", "r"] "d" ∧ ¬interlocked.Reachable ["r", "d", "r"] "e" ∧
      (∃ c ∈ (interlocked.explore ["r", "d", "r"]).cycles, c.head? = some "a" ∧ ["b", "a"] <:+ c) ∧
      ["b", "c"].Sublist (interlocked.explore ["r", "d", "r"]).sorted ∧
      ¬Relation.TransGen (interlocked.opened (interlocked.explore ["r", "d", "r"])).Edge "a" "a" := by
  obtain ⟨-, hmem, hedge, -, hopened⟩ := explore_sorts interlocked ["r", "d", "r"]
  simp only [explore_interlocked.1, explore_interlocked.2] at hmem hedge ⊢
  have hreach : ∀ v ∈ ["d", "b", "c", "a", "r"], interlocked.Reachable ["r", "d", "r"] v :=
    fun v => (hmem v).1
  refine ⟨hreach "d" (by decide), (hmem "e").not.1 (by decide), ?_, ?_, (hopened "a" ?_).1⟩
  · exact (hedge "b" "a" (hreach "b" (by decide)) (by decide)).resolve_left (by decide)
  · exact (hedge "c" "b" (hreach "c" (by decide)) (by decide)).resolve_right (by decide)
  · exact hreach "a" (by decide)

/-- A node that lies on no cycle stands behind every other node that can be reached from it. -/
theorem sublist_explore {g : Graph α} {roots : List α} {u v : α} (hu : g.Reachable roots u)
    (hcycle : ¬Relation.TransGen g.Edge u u) (huv : Relation.ReflTransGen g.Edge u v)
    (hne : v ≠ u) : [v, u].Sublist (g.explore roots).sorted := by
  have htrailing : Walk.Trailing g (g.explore roots) := by
    apply (Walk.visits_explore g roots).trailing Walk.consistent_start
    · exact fun u hu => absurd hu List.not_mem_nil
    · exact fun v _ => List.isChain_singleton v
    · exact fun before u behind hs => absurd hs (by simp [Walk.start])
  obtain ⟨before, behind, hs⟩ :=
    List.append_of_mem ((Walk.mem_sorted_explore_iff g roots u).2 hu)
  rcases Relation.reflTransGen_iff_eq_or_transGen.1 huv with rfl | huv
  · exact absurd rfl hne
  · rw [hs]
    exact sublist_of_mem_before (htrailing before u behind hs hcycle v huv)

/-- No edge leads to the first node. The last two can be reached from it through cycles only, and one of them
lies on two. -/
theorem sublist_explore_interlocked :
    interlocked.Reachable ["r", "d", "r"] "r" ∧ ¬Relation.TransGen interlocked.Edge "r" "r" ∧
      ["d", "r"].Sublist (interlocked.explore ["r", "d", "r"]).sorted ∧
      ["b", "r"].Sublist (interlocked.explore ["r", "d", "r"]).sorted := by
  have hreach : interlocked.Reachable ["r", "d", "r"] "r" := ⟨"r", by decide, .refl⟩
  have hcycle : ¬Relation.TransGen interlocked.Edge "r" "r" := by
    rw [Relation.TransGen.tail'_iff]
    rintro ⟨u, -, hu⟩
    have hnone : ∀ e ∈ interlocked.edges, e.2 ≠ "r" := by decide
    exact hnone (u, "r") hu rfl
  have hb : Relation.ReflTransGen interlocked.Edge "r" "b" :=
    .head (show interlocked.Edge "r" "a" by decide) (.single (by decide))
  have hd : Relation.ReflTransGen interlocked.Edge "r" "d" := hb.tail (by decide)
  exact ⟨hreach, hcycle, sublist_explore hreach hcycle hd (by decide),
    sublist_explore hreach hcycle hb (by decide)⟩

end Graph

end UtteranceGrammar
