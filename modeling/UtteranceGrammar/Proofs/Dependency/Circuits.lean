/-
The shape of the recorded cycles, and when there are any.

A walk records the end of its path, from the node that it has come to again. That such a record is a way along
edges back to its start is shown with the other facts on recorded cycles. This file adds that it comes to no node
twice on its way, which is a matter of the marks: the path never holds a node twice, for a node is entered only
while it has no mark. And it adds that the walk has met all its nodes, so that a recorded cycle lies in the part
of the graph that can be reached from the roots (`Visits.traced`).

This makes the record complete as a test. If the walk has recorded nothing, it has finished every node behind all
that its edges lead to, and a list with that property leaves no room for a cycle. If it has recorded something, a
node that can be reached lies on a cycle (`Graph.explore_cycles`).
-/
import UtteranceGrammar.Proofs.Dependency.Sorting

set_option autoImplicit false

namespace UtteranceGrammar

namespace Walk

variable {α : Type} [DecidableEq α] {g : Graph α} {w w' : Walk α} {u v : α} {us roots : List α}

/-! ## What a closed cycle is made of -/

/-- Apart from its last node, the cycle that an edge to `u` closes is a piece of the path. -/
theorem dropLast_suffix_of_cycleTo? {c : List α} (h : w.cycleTo? u = some c) :
    c.dropLast <:+ w.path := by
  obtain ⟨⟨front, hfront⟩, below, rfl⟩ := cycleTo?_eq_some h
  rw [← List.cons_append, ← List.append_assoc] at hfront
  rw [← List.cons_append, List.dropLast_concat]
  exact ⟨front, (List.append_singleton_inj.1 hfront).1⟩

/-- All nodes of the cycle that an edge to `u` closes are on the path, if `u` is. -/
theorem mem_path_of_mem_cycleTo? {c : List α} (h : w.cycleTo? u = some c) (hu : u ∈ w.path) :
    ∀ x ∈ c, x ∈ w.path := by
  intro x hx
  have hmem : x ∈ w.path ++ [u] := (cycleTo?_eq_some h).1.subset hx
  rw [List.mem_append, List.mem_singleton] at hmem
  rcases hmem with hmem | rfl
  · exact hmem
  · exact hu

/-! ## What holds of all recorded cycles -/

/-- No recorded cycle comes to a node twice on its way, and the walk has met all nodes of each. -/
def Traced (w : Walk α) : Prop := ∀ c ∈ w.cycles, c.dropLast.Nodup ∧ ∀ x ∈ c, Met w x

/-- Entering a node records no cycle, and what has been met stays met. -/
theorem Traced.enter (hw : Traced w) (u : α) : Traced (w.enter u) := by
  intro c hc
  obtain ⟨hnodup, hmet⟩ := hw c hc
  exact ⟨hnodup, fun x hx => (hmet x hx).imp_right (List.mem_append_left _)⟩

/-- The cycle that an edge back to the path closes is a piece of the path, but for its last node. The path holds no
node twice, and all of it has been met. -/
theorem Traced.close (hw : Traced w) (hc : w.Consistent) (hu : w.mark u = some .onPath) :
    Traced (w.close u) := by
  intro c hmem
  rw [Walk.close, List.mem_append] at hmem
  rcases hmem with hold | hnew
  · exact hw c hold
  · have hclosed : w.cycleTo? u = some c := Option.mem_toList.1 hnew
    have hpath := mem_path_of_mem_cycleTo? hclosed ((hc.onPath_iff u).1 hu)
    exact ⟨hc.path_nodup.sublist (dropLast_suffix_of_cycleTo? hclosed).sublist,
      fun x hx => .inr (hpath x hx)⟩

/-- Leaving a node records no cycle, and the node stays met. -/
theorem Traced.leave (hw : Traced w) {path : List α} (hpath : w.path = path ++ [u]) :
    Traced (w.leave u) := by
  intro c hc
  obtain ⟨hnodup, hmet⟩ := hw c hc
  exact ⟨hnodup, fun x hx => (hmet x hx).leave hpath⟩

/-- Visits keep what holds of all recorded cycles. -/
theorem Visits.traced (h : Visits g w us w') (hc : w.Consistent) (hw : Traced w) : Traced w' := by
  induction h with
  | nil w => exact hw
  | finished _ _ ih => exact ih hc hw
  | closes hm _ ih => exact ih hc.close (hw.close hc hm)
  | enters hm successors _ ihs ihr =>
    apply ihr (successors.consistent_leave hc hm)
    exact (ihs (hc.enter hm) (hw.enter _)).leave successors.path_eq

/-- It holds of all cycles that a walk from its roots records, as there are none at the start. -/
theorem traced_explore (g : Graph α) (roots : List α) : Traced (g.explore roots) :=
  (visits_explore g roots).traced consistent_start fun _ hc => absurd hc List.not_mem_nil

/-- All nodes of a recorded cycle can be reached from the roots. -/
theorem reachable_of_mem_cycle {c : List α} (hc : c ∈ (g.explore roots).cycles) {x : α} (hx : x ∈ c) :
    g.Reachable roots x :=
  (mem_sorted_explore_iff g roots x).1 (met_explore_iff.1 ((traced_explore g roots c hc).2 x hx))

/-- Where no cycle is recorded, no node that can be reached lies on one. -/
theorem not_transGen_of_cycles_eq_nil (hcycles : (g.explore roots).cycles = [])
    (hu : g.Reachable roots u) : ¬Relation.TransGen g.Edge u u := by
  apply not_transGen_of_mem_before (consistent_explore g roots).sorted_nodup _
    ((mem_sorted_explore_iff g roots u).2 hu)
  exact fun before x behind hs v hxv => mem_before_of_cycles_eq_nil hcycles hs hxv

end Walk

namespace Graph

/-- What a walk records as a cycle has at least two nodes, the last one is the first again, no other node stands
in it twice, and each leads to the next one along an edge. A walk records nothing if and only if no node that can
be reached from its roots lies on a cycle. -/
theorem explore_cycles {α : Type} [DecidableEq α] (g : Graph α) (roots : List α) :
    (∀ c ∈ (g.explore roots).cycles,
      2 ≤ c.length ∧ c.head? = c.getLast? ∧ c.dropLast.Nodup ∧ c.IsChain g.Edge) ∧
    ((g.explore roots).cycles = [] ↔
      ∀ u, g.Reachable roots u → ¬Relation.TransGen g.Edge u u) := by
  constructor
  · intro c hc
    have hnodup := (Walk.traced_explore g roots c hc).1
    obtain ⟨hchain, u, below, rfl⟩ := Walk.isCycle_explore g roots c hc
    refine ⟨?_, ?_, hnodup, hchain⟩
    · simp
    · rw [List.head?_cons, ← List.cons_append, List.getLast?_concat]
  · constructor
    · exact fun hcycles u hu => Walk.not_transGen_of_cycles_eq_nil hcycles hu
    · intro hacyclic
      rw [List.eq_nil_iff_forall_not_mem]
      intro c hc
      have hcycle := Walk.isCycle_explore g roots c hc
      obtain ⟨-, u, below, rfl⟩ := id hcycle
      exact hacyclic u (Walk.reachable_of_mem_cycle hc List.mem_cons_self)
        (hcycle.transGen_of_mem List.mem_cons_self List.mem_cons_self)

/-- A cycle recorded from three roots, its shape, and that a node on a cycle can be reached from them. From one of
these roots alone nothing is recorded, although the graph has cycles. -/
theorem explore_cycles_interlocked :
    ["a", "b", "a"] ∈ (interlocked.explore ["r", "d", "r"]).cycles ∧
      ["a", "b", "a"].dropLast.Nodup ∧ ["a", "b", "a"].IsChain interlocked.Edge ∧
      (∃ u, interlocked.Reachable ["r", "d", "r"] u ∧ Relation.TransGen interlocked.Edge u u) ∧
      ∀ u, interlocked.Reachable ["d"] u → ¬Relation.TransGen interlocked.Edge u u := by
  obtain ⟨hshape, hempty⟩ := explore_cycles interlocked ["r", "d", "r"]
  have hmem : ["a", "b", "a"] ∈ (interlocked.explore ["r", "d", "r"]).cycles := by
    rw [explore_interlocked.2]
    decide
  obtain ⟨-, -, hnodup, hchain⟩ := hshape _ hmem
  have hsome : ¬∀ u, interlocked.Reachable ["r", "d", "r"] u →
      ¬Relation.TransGen interlocked.Edge u u := by
    rw [← hempty, explore_interlocked.2]
    decide
  push Not at hsome
  exact ⟨hmem, hnodup, hchain, hsome, (explore_cycles interlocked ["d"]).2.1 (by decide +kernel)⟩

end Graph

end UtteranceGrammar
