/-
Which nodes a walk lists.

A walk lists the nodes that can be reached from its roots (`mem_sorted_explore_iff`). That it lists no other is
clear from where it goes. That it misses none is no matter of edges alone: an edge may lead back to the path, and
then its target is not finished, nor will it be when the source is. What holds at every step is weaker. A node
that has been visited has been met, it is finished or on the path (`Visits.met`), and so is every node that an
edge leads to from a finished one (`Covers`). At the end of the walk the path is empty, and nothing is left of the
difference.
-/
import Mathlib.Logic.Relation
import UtteranceGrammar.Proofs.Dependency.Visits

set_option autoImplicit false

namespace UtteranceGrammar

/-- The node is one of the roots, or a way along edges leads to it from one. -/
def Graph.Reachable {α : Type} (g : Graph α) (roots : List α) (v : α) : Prop :=
  ∃ r ∈ roots, Relation.ReflTransGen g.Edge r v

namespace Walk

variable {α : Type} [DecidableEq α] {g : Graph α} {w w' : Walk α} {u v : α} {us : List α}

/-! ## Where a walk goes -/

/-- A node that a visit finishes can be reached from those that were to be visited. -/
theorem Visits.reachable (h : Visits g w us w') :
    ∀ v ∈ w'.sorted, v ∈ w.sorted ∨ g.Reachable us v := by
  have hbehind : ∀ {u us v}, g.Reachable us v → g.Reachable (u :: us) v := by
    rintro u us v ⟨r, hr, hrv⟩
    exact ⟨r, List.mem_cons_of_mem u hr, hrv⟩
  induction h with
  | nil w => exact fun v hv => .inl hv
  | finished _ _ ih => exact fun v hv => (ih v hv).imp_right hbehind
  | closes _ _ ih => exact fun v hv => (ih v hv).imp_right hbehind
  | @enters w below w' u us hm _ _ ihs ihr =>
    intro v hv
    rcases ihr v hv with hv | hv
    · rw [leave, List.mem_append, List.mem_singleton] at hv
      rcases hv with hv | rfl
      · rcases ihs v hv with hv | ⟨x, hx, hxv⟩
        · exact .inl hv
        · exact .inr ⟨u, List.mem_cons_self, .head (Graph.mem_successors.1 hx) hxv⟩
      · exact .inr ⟨v, List.mem_cons_self, .refl⟩
    · exact .inr (hbehind hv)

/-! ## What a walk has met -/

/-- The walk has entered the node: it has finished it, or it is below it. -/
def Met (w : Walk α) (v : α) : Prop := v ∈ w.sorted ∨ v ∈ w.path

/-- Leaving a node moves it from the path to the finished nodes, and all others stay where they are. -/
theorem Met.leave {path : List α} (hpath : w.path = path ++ [u]) (h : Met w v) :
    Met (w.leave u) v := by
  have hdrop : (w.leave u).path = path := by rw [Walk.leave, hpath, List.dropLast_concat]
  rw [Met, hdrop, Walk.leave, List.mem_append, List.mem_singleton]
  rw [Met, hpath, List.mem_append, List.mem_singleton] at h
  tauto

/-- A node that a walk has met stays met. -/
theorem Visits.met_mono (h : Visits g w us w') (hv : Met w v) : Met w' v := by
  rw [Met, h.path_eq]
  exact hv.imp_left fun hv => h.sorted_prefix.subset hv

/-- Every node visited has been met. -/
theorem Visits.met (h : Visits g w us w') (hw : w.Consistent) : ∀ v ∈ us, Met w' v := by
  induction h with
  | nil w => exact fun v hv => absurd hv List.not_mem_nil
  | finished hm rest ih =>
    rw [List.forall_mem_cons]
    exact ⟨rest.met_mono (.inl ((hw.finished_iff _).1 hm)), ih hw⟩
  | closes hm rest ih =>
    rw [List.forall_mem_cons]
    exact ⟨rest.met_mono (.inr ((hw.onPath_iff _).1 hm)), ih hw.close⟩
  | @enters w below w' u us hm successors rest _ ihr =>
    rw [List.forall_mem_cons]
    have hu : Met (below.leave u) u := .inl (List.mem_append_right _ (List.mem_singleton_self u))
    exact ⟨rest.met_mono hu, ihr (successors.consistent_leave hw hm)⟩

/-- Every edge out of a finished node leads to one that the walk has met. -/
def Covers (g : Graph α) (w : Walk α) : Prop := ∀ u ∈ w.sorted, ∀ v, g.Edge u v → Met w v

/-- Entering a node finishes none, and what has been met stays met. -/
theorem Covers.enter (hw : Covers g w) (u : α) : Covers g (w.enter u) := by
  intro x hx v hv
  exact (hw x hx v hv).imp_right (List.mem_append_left _)

/-- Visits keep it that edges out of finished nodes lead to nodes that have been met. A node is left when its
successors have been visited, and then they have been met. -/
theorem Visits.covers (h : Visits g w us w') (hc : w.Consistent) (hw : Covers g w) :
    Covers g w' := by
  induction h with
  | nil w => exact hw
  | finished _ _ ih => exact ih hc hw
  | closes _ _ ih => exact ih hc.close hw
  | @enters w below w' u us hm successors rest ihs ihr =>
    have hbelow : Covers g below := ihs (hc.enter hm) (hw.enter u)
    apply ihr (successors.consistent_leave hc hm)
    intro x hx v hv
    apply Met.leave successors.path_eq
    rw [leave, List.mem_append, List.mem_singleton] at hx
    rcases hx with hx | rfl
    · exact hbelow x hx v hv
    · exact successors.met (hc.enter hm) v (Graph.mem_successors.2 hv)

/-! ## The whole walk -/

/-- At the end the path is empty, so what has been met is finished. -/
theorem met_explore_iff {roots : List α} :
    Met (g.explore roots) v ↔ v ∈ (g.explore roots).sorted := by
  have hpath : (g.explore roots).path = [] := (visits_explore g roots).path_eq
  rw [Met, hpath]
  exact or_iff_left List.not_mem_nil

/-- The walk lists the nodes that can be reached from its roots, and no others. -/
theorem mem_sorted_explore_iff (g : Graph α) (roots : List α) (v : α) :
    v ∈ (g.explore roots).sorted ↔ g.Reachable roots v := by
  have hvisits := visits_explore g roots
  constructor
  · intro hv
    exact (hvisits.reachable v hv).resolve_left List.not_mem_nil
  · rintro ⟨r, hr, hrv⟩
    have hcovers : Covers g (g.explore roots) :=
      hvisits.covers consistent_start fun u hu => absurd hu List.not_mem_nil
    induction hrv with
    | refl => exact met_explore_iff.1 (hvisits.met consistent_start r hr)
    | tail _ hxy ih => exact met_explore_iff.1 (hcovers _ ih _ hxy)

/-- All roots are listed. -/
theorem mem_sorted_explore {roots : List α} (hu : u ∈ roots) : u ∈ (g.explore roots).sorted :=
  (mem_sorted_explore_iff g roots u).2 ⟨u, hu, .refl⟩

/-- A node that is listed is a root, or an edge leads to it. -/
theorem mem_or_edge_of_mem_explore {roots : List α} (hv : v ∈ (g.explore roots).sorted) :
    v ∈ roots ∨ ∃ u, g.Edge u v := by
  obtain ⟨r, hr, hrv⟩ := (mem_sorted_explore_iff g roots v).1 hv
  rcases Relation.ReflTransGen.cases_tail hrv with rfl | ⟨u, -, huv⟩
  · exact .inl hr
  · exact .inr ⟨u, huv⟩

end Walk

end UtteranceGrammar
