/-
What holds whenever a walk visits a node.

The other files on walks say what a walk has found when it is over. Here it is looked at while it is under way: at
each of its visits, of a root or of a successor of a node that it has entered, however deep below the roots
(`Walk.Called`). The marks then tell exactly where the nodes are, the path is a way along edges that comes to no
node twice, and nothing that an edge leads to from a finished node is left unmarked (`Walk.Invariant`). The visit
leaves the path as it found it, and adds to the rest (`Walk.Extends`).

A visit of a node on the path is meant to record a cycle. It looks the node up in the path, and if it were not
found there, the edge to it would be passed over without a word. That does not happen, because a node that is
marked as being on the path is there (`Walk.visit_of_called`).
-/
import UtteranceGrammar.Proofs.Dependency.Sorting

set_option autoImplicit false

namespace UtteranceGrammar

namespace Walk

variable {α : Type} [DecidableEq α] {g : Graph α} {w w' : Walk α} {u v : α} {us roots : List α}

/-! ## The visits of a walk -/

/-- In the walk from the roots, the node is to be visited when the walk stands like this: the node is a root, and
the roots before it have been visited, or it is a successor of a node that has just been entered, and the successors
before it have been visited. -/
inductive Called (g : Graph α) (roots : List α) : Walk α → α → Prop where
  | root {before behind : List α} {r : α} (h : roots = before ++ r :: behind) :
      Called g roots (visitAll g start before) r
  | successor {w : Walk α} {before behind : List α} {u v : α} (h : Called g roots w u)
      (hm : w.mark u = none) (hs : g.successors u = before ++ v :: behind) :
      Called g roots (visitAll g (w.enter u) before) v

/-- What holds of a walk whenever a node is to be visited. -/
structure Invariant (g : Graph α) (w : Walk α) : Prop extends w.Consistent where
  path_chain : w.path.IsChain g.Edge
  successors_marked : ∀ u ∈ w.sorted, ∀ v, g.Edge u v → (w.mark v).isSome

/-- The second walk is the first one, with nodes finished and cycles recorded since. -/
structure Extends (w w' : Walk α) : Prop where
  path_eq : w'.path = w.path
  mark_eq : ∀ v m, w.mark v = some m → w'.mark v = some m
  sorted_prefix : w.sorted <+: w'.sorted
  cycles_prefix : w.cycles <+: w'.cycles

/-! ## Marks and places -/

omit [DecidableEq α] in
/-- The nodes that a walk has met are those that it has marked. -/
theorem Consistent.isSome_mark_iff (hw : w.Consistent) : (w.mark v).isSome ↔ Met w v := by
  rw [Met, ← hw.finished_iff, ← hw.onPath_iff]
  cases w.mark v with
  | none => simp
  | some m => cases m <;> simp

/-- A mark is kept while nodes are visited, for the path is as it was in the end. -/
theorem Visits.extends (h : Visits g w us w') (hw : w.Consistent) : w.Extends w' := by
  refine ⟨h.path_eq, ?_, h.sorted_prefix, h.cycles_prefix⟩
  intro v m hm
  have hw' := h.consistent hw
  cases m with
  | onPath =>
    rw [hw'.onPath_iff, h.path_eq, ← hw.onPath_iff]
    exact hm
  | finished =>
    rw [hw'.finished_iff]
    exact h.sorted_prefix.subset ((hw.finished_iff v).1 hm)

/-- A single visit follows the rules too. -/
theorem visits_visit (g : Graph α) (w : Walk α) (u : α) : Visits g w [u] (visit g w u) :=
  visits_visitAll g w [u]

/-! ## Every visit -/

/-- What holds when a node is to be visited, the path with this node behind it being a way along edges as well. -/
theorem Called.consistent_covers_chain (h : Called g roots w u) :
    w.Consistent ∧ Covers g w ∧ (w.path ++ [u]).IsChain g.Edge := by
  induction h with
  | @root before _ r _ =>
    have hvisits := visits_visitAll g start before
    have hcovers : Covers g (start : Walk α) := fun u hu => absurd hu List.not_mem_nil
    refine ⟨hvisits.consistent consistent_start, hvisits.covers consistent_start hcovers, ?_⟩
    rw [hvisits.path_eq]
    exact List.isChain_singleton r
  | @successor w before behind u v _ hm hs ih =>
    obtain ⟨hconsistent, hcovers, hchain⟩ := ih
    have hvisits := visits_visitAll g (w.enter u) before
    have hv : v ∈ g.successors u := by
      rw [hs]
      exact List.mem_append_right _ List.mem_cons_self
    have henter := hconsistent.enter hm
    refine ⟨hvisits.consistent henter, hvisits.covers henter (hcovers.enter u), ?_⟩
    -- the successors before it have left the path alone
    rw [hvisits.path_eq]
    exact isChain_append_successor hchain hv

/-- Whenever a node is to be visited, the walk is in order: marks, path and finished nodes agree, the path is a way
along edges, and no edge leads from a finished node to one that has not been met. -/
theorem Called.invariant (h : Called g roots w u) : w.Invariant g := by
  obtain ⟨hconsistent, hcovers, hchain⟩ := h.consistent_covers_chain
  refine ⟨hconsistent, (List.isChain_append.1 hchain).1, ?_⟩
  intro x hx v hxv
  exact hconsistent.isSome_mark_iff.2 (hcovers x hx v hxv)

/-- Whenever a node is to be visited, marks, path and list of finished nodes agree, and no successor of a finished
node is unmarked. The visit restores the path, keeps all marks, finished nodes and cycles that there were, and leaves
the node marked. If the node is on the path, one cycle is recorded. -/
theorem visit_of_called (h : Called g roots w u) :
    w.Invariant g ∧ w.Extends (visit g w u) ∧ ((visit g w u).mark u).isSome ∧
      (w.mark u = some .onPath →
        ∃ c, w.cycleTo? u = some c ∧ (visit g w u).cycles = w.cycles ++ [c]) := by
  have hinvariant := h.invariant
  have hconsistent := hinvariant.toConsistent
  have hvisits := visits_visit g w u
  refine ⟨hinvariant, hvisits.extends hconsistent, ?_, ?_⟩
  · rw [(hvisits.consistent hconsistent).isSome_mark_iff]
    exact hvisits.met hconsistent u List.mem_cons_self
  · intro hm
    have hcycle := cycleTo?_of_mem ((hconsistent.onPath_iff u).1 hm)
    refine ⟨_, hcycle, ?_⟩
    rw [visit_eq, hm]
    simp only [close, hcycle, Option.toList_some]

/-- A node below two others that has an edge to itself. When it is visited from itself, a node below one of the
two has been finished, a cycle through both has been recorded, and one more is added. -/
theorem visit_of_called_interlocked :
    ∃ w, Called Graph.interlocked ["r", "d", "r"] w "c" ∧ w.path = ["r", "a", "c"] ∧
      w.sorted = ["d", "b"] ∧ w.cycles = [["a", "b", "a"]] ∧ (w.mark "d").isSome ∧
      (visit Graph.interlocked w "c").path = ["r", "a", "c"] ∧
      (visit Graph.interlocked w "c").cycles = [["a", "b", "a"], ["c", "c"]] := by
  have hr : Called Graph.interlocked ["r", "d", "r"] (visitAll Graph.interlocked start []) "r" :=
    .root rfl
  have ha : Called Graph.interlocked ["r", "d", "r"] (visitAll Graph.interlocked (enter _ "r") []) "a" :=
    hr.successor rfl (by decide : _ = [] ++ "a" :: [])
  have hc : Called Graph.interlocked ["r", "d", "r"] (visitAll Graph.interlocked (enter _ "a") ["b"]) "c" :=
    ha.successor rfl (by decide : _ = ["b"] ++ "c" :: ["c"])
  have hcc : Called Graph.interlocked ["r", "d", "r"] (visitAll Graph.interlocked (enter _ "c") ["b"]) "c" :=
    hc.successor (by decide +kernel) (by decide : _ = ["b"] ++ "c" :: [])
  obtain ⟨hinvariant, hextends, -, hcycle⟩ := visit_of_called hcc
  obtain ⟨c, hlook, hcycles⟩ := hcycle (by decide +kernel)
  refine ⟨_, hcc, by decide +kernel, by decide +kernel, by decide +kernel, ?_, ?_, ?_⟩
  · exact hinvariant.successors_marked "b" (by decide +kernel) "d" (by decide)
  · rw [hextends.path_eq]
    decide +kernel
  · have hself : some ["c", "c"] = some c := by
      rw [← hlook]
      decide +kernel
    obtain rfl := Option.some.inj hself
    rw [hcycles]
    decide +kernel

end Walk

end UtteranceGrammar
