/-
The cycles that a walk records.

What a walk records as a cycle is one: a closed way along edges of the graph (`Graph.IsCycle`). The
invariant that carries this is on the path, not on the cycles. The path followed by a node that is about to be
visited is a chain of edges, because that node is a root on an empty path or a successor of the last node.
An edge back to the path then closes a part of such a chain, and a part of a chain is a chain
(`Visits.isCycle`).

Conversely a walk that has recorded no cycle has settled all edges out of its finished nodes in the only
other way, by finishing the targets first (`mem_before_of_cycles_eq_nil`).
-/
import Mathlib.Data.List.Chain
import Mathlib.Logic.Relation
import UtteranceGrammar.Proofs.Dependency.Reach

set_option autoImplicit false

namespace UtteranceGrammar

namespace Graph

variable {α : Type} {g : Graph α} {c : List α} {x y : α}

/-- Nodes that lead along edges from one node back to it. -/
def IsCycle (g : Graph α) (c : List α) : Prop :=
  c.IsChain g.Edge ∧ ∃ u below, c = u :: (below ++ [u])

/-- From every node of a cycle a way leads to every other, and to itself. -/
theorem IsCycle.transGen_of_mem (hc : g.IsCycle c) (hx : x ∈ c) (hy : y ∈ c) :
    Relation.TransGen g.Edge x y := by
  obtain ⟨hchain, u, below, rfl⟩ := hc
  have hpairwise : (u :: (below ++ [u])).Pairwise (Relation.TransGen g.Edge) :=
    List.isChain_iff_pairwise.1 (hchain.imp fun _ _ h => .single h)
  have hfrom : ∀ z ∈ below ++ [u], Relation.TransGen g.Edge u z := (List.pairwise_cons.1 hpairwise).1
  have huu : Relation.TransGen g.Edge u u :=
    hfrom u (List.mem_append_right _ (List.mem_singleton_self u))
  have hto : ∀ z ∈ u :: below, Relation.TransGen g.Edge z u := by
    rw [← List.cons_append, List.pairwise_append] at hpairwise
    exact fun z hz => hpairwise.2.2 z hz u (List.mem_singleton_self u)
  have hxu : Relation.TransGen g.Edge x u := by
    rw [← List.cons_append, List.mem_append, List.mem_singleton] at hx
    rcases hx with hx | rfl
    · exact hto x hx
    · exact huu
  have huy : Relation.TransGen g.Edge u y := by
    rcases List.mem_cons.1 hy with rfl | hy
    · exact huu
    · exact hfrom y hy
  exact hxu.trans huy

/-- Every node of a cycle has an edge to a node of the cycle. -/
theorem IsCycle.exists_edge (hc : g.IsCycle c) (hx : x ∈ c) : ∃ y ∈ c, g.Edge x y := by
  obtain ⟨hchain, u, below, rfl⟩ := hc
  have hx' : x ∈ u :: below := by
    rw [← List.cons_append, List.mem_append, List.mem_singleton] at hx
    exact hx.elim id fun h => h ▸ List.mem_cons_self
  obtain ⟨front, rest, hsplit⟩ := List.append_of_mem hx'
  rw [← List.cons_append, hsplit, List.append_assoc] at hchain ⊢
  cases rest with
  | nil =>
    refine ⟨u, by simp, ?_⟩
    exact List.isChain_iff_forall_rel_of_append_cons_cons.1 hchain rfl
  | cons y rest =>
    refine ⟨y, by simp, ?_⟩
    exact List.isChain_iff_forall_rel_of_append_cons_cons.1 hchain rfl

/-- A node from which a way leads back to it lies on a cycle. -/
theorem exists_isCycle_of_transGen (h : Relation.TransGen g.Edge x x) :
    ∃ c, g.IsCycle c ∧ x ∈ c := by
  obtain ⟨y, hxy, hyx⟩ := Relation.TransGen.head'_iff.1 h
  obtain ⟨l, hchain, hlast⟩ := List.exists_isChain_cons_of_relationReflTransGen hyx
  have hsplit : y :: l = (y :: l).dropLast ++ [x] := by
    rw [← hlast, List.dropLast_append_getLast]
  refine ⟨x :: y :: l, ⟨?_, x, (y :: l).dropLast, by rw [← hsplit]⟩, List.mem_cons_self⟩
  exact List.isChain_cons_cons.2 ⟨hxy, hchain⟩

end Graph

namespace Walk

variable {α : Type} [DecidableEq α] {g : Graph α} {w w' : Walk α} {u v : α} {us : List α}

/-! ## Recorded cycles -/

/-- The cycle that an edge to `u` closes is the end of the path from `u` on, and `u` again. -/
theorem cycleTo?_eq_some {c : List α} (h : w.cycleTo? u = some c) :
    c <:+ w.path ++ [u] ∧ ∃ below, c = u :: (below ++ [u]) := by
  unfold cycleTo? at h
  split at h
  · cases h
  · rename_i below hbelow hdrop
    obtain rfl := Option.some.inj h
    have hsuffix : w.path.dropWhile (· ≠ u) <:+ w.path := List.dropWhile_suffix _
    refine ⟨?_, ?_⟩
    · obtain ⟨front, hfront⟩ := hsuffix
      exact ⟨front, by rw [← List.append_assoc, hfront]⟩
    · -- what stopped the search for `u` is `u`
      cases hcons : w.path.dropWhile (· ≠ u) with
      | nil => exact absurd hcons hdrop
      | cons x xs =>
        have hx := List.head?_dropWhile_not (· ≠ u) w.path
        rw [hcons] at hx
        have hxu : x = u := by simpa using hx
        exact ⟨xs, by rw [hxu, List.cons_append]⟩

/-- If the path with `u` behind it is a way along edges, the record that an edge to `u` adds is a cycle. -/
theorem isCycle_of_mem_close (hchain : (w.path ++ [u]).IsChain g.Edge)
    (hw : ∀ c ∈ w.cycles, g.IsCycle c) : ∀ c ∈ (w.close u).cycles, g.IsCycle c := by
  intro c hc
  rw [close, List.mem_append] at hc
  rcases hc with hc | hc
  · exact hw c hc
  · obtain ⟨hsuffix, hends⟩ := cycleTo?_eq_some (Option.mem_toList.1 hc)
    exact ⟨hchain.suffix hsuffix, u, hends⟩

/-- The path with a successor of its last node behind it goes on along an edge. -/
theorem isChain_append_successor (hchain : (w.path ++ [u]).IsChain g.Edge)
    (hv : v ∈ g.successors u) : ((w.enter u).path ++ [v]).IsChain g.Edge := by
  rw [enter, List.isChain_append]
  refine ⟨hchain, List.isChain_singleton v, ?_⟩
  intro x hx y hy
  rw [List.getLast?_concat, Option.mem_some_iff] at hx
  rw [List.head?_cons, Option.mem_some_iff] at hy
  rw [← hx, ← hy]
  exact Graph.mem_successors.1 hv

/-- Where each node to visit continues the path along an edge, all that is recorded is a cycle. -/
theorem Visits.isCycle (h : Visits g w us w') (hus : ∀ v ∈ us, (w.path ++ [v]).IsChain g.Edge)
    (hw : ∀ c ∈ w.cycles, g.IsCycle c) : ∀ c ∈ w'.cycles, g.IsCycle c := by
  induction h with
  | nil w => exact hw
  | finished _ _ ih => exact ih (List.forall_mem_cons.1 hus).2 hw
  | closes _ _ ih =>
    obtain ⟨hu, hus⟩ := List.forall_mem_cons.1 hus
    exact ih hus (isCycle_of_mem_close hu hw)
  | enters _ successors _ ihs ihr =>
    obtain ⟨hu, hus⟩ := List.forall_mem_cons.1 hus
    have hbelow := ihs (fun v hv => isChain_append_successor hu hv) hw
    -- the path is back to what it was
    refine ihr ?_ hbelow
    rw [successors.path_leave]
    exact hus

/-- All cycles that a walk records are cycles of the graph. -/
theorem isCycle_explore (g : Graph α) (roots : List α) :
    ∀ c ∈ (g.explore roots).cycles, g.IsCycle c := by
  refine (visits_explore g roots).isCycle ?_ ?_
  · intro v _
    exact List.isChain_singleton v
  · intro c hc
    exact absurd hc List.not_mem_nil

/-! ## Finished nodes -/

/-- Where no cycle is recorded, the targets of a finished node's edges were finished before it. -/
theorem mem_before_of_cycles_eq_nil {roots : List α} (hcycles : (g.explore roots).cycles = [])
    {before behind : List α} (hs : (g.explore roots).sorted = before ++ u :: behind)
    (huv : g.Edge u v) : v ∈ before := by
  rcases settled_explore g roots before u behind hs v huv with hv | ⟨c, hc, -⟩
  · exact hv
  · rw [hcycles] at hc
    exact absurd hc List.not_mem_nil

end Walk

end UtteranceGrammar
