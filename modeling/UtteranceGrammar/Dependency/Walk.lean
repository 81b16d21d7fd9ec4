/-
The depth-first walk through a graph.

The walk visits a node by visiting its successors one after the other, and lists it once they are all
done. So a node is listed behind everything that it depends on, unless the dependency is circular.
Circles do not stop the walk. A successor that is one of the walk's own ancestors closes a cycle: the
part of the path from that ancestor down to here, and the ancestor again. The walk records it and
goes on with the next successor.

What ends the walk is that each edge is followed at most once, when its source is entered, and a
source that has been entered is never entered again. `pending` counts the edges whose source is still
unmarked: entering a node takes all its successors out of that count (`pending_enter`), and marks are
never lost, which the two visiting functions prove as they go.
-/
import UtteranceGrammar.Dependency.Graph

set_option autoImplicit false

namespace UtteranceGrammar

/-- How far the walk has come with a node that it has entered. -/
inductive NodeMark where
  /-- The walk is below the node. -/
  | onPath
  /-- The node and all below it are done. -/
  | finished
deriving DecidableEq, Repr

/-- Where the walk stands, and what it has found. -/
structure Walk (α : Type) where
  /-- The marks of the nodes entered so far. -/
  mark : α → Option NodeMark
  /-- The nodes that the walk is below, from the root down. -/
  path : List α
  /-- The finished nodes, in the order in which they were finished. -/
  sorted : List α
  /-- The cycles met, each from the node entered again down to the one with the edge back to it, and
  then the node itself once more. -/
  cycles : List (List α)

namespace Walk

variable {α : Type} [DecidableEq α]

/-- The walk before its first step. -/
def start : Walk α := ⟨fun _ => none, [], [], []⟩

/-- Marks a node and leaves the marks of all others. -/
def setMark (w : Walk α) (u : α) (m : NodeMark) : α → Option NodeMark :=
  fun v => if v = u then some m else w.mark v

/-- Steps down to the node `u`. -/
def enter (w : Walk α) (u : α) : Walk α :=
  { w with mark := w.setMark u .onPath, path := w.path ++ [u] }

/-- Steps back up from the node `u`, which is thereby done. -/
def leave (w : Walk α) (u : α) : Walk α :=
  { w with mark := w.setMark u .finished, path := w.path.dropLast, sorted := w.sorted ++ [u] }

/-- The cycle that an edge from the end of the path back to `u` closes, if `u` is on the path. -/
def cycleTo? (w : Walk α) (u : α) : Option (List α) :=
  match w.path.dropWhile (· ≠ u) with
  | [] => none
  | below => some (below ++ [u])

/-- Records the cycle that an edge from the end of the path back to `u` closes. -/
def close (w : Walk α) (u : α) : Walk α :=
  { w with cycles := w.cycles ++ (w.cycleTo? u).toList }

/-- Every node with a mark in `w` has one in `w'`. -/
def Keeps (w w' : Walk α) : Prop := ∀ v, (w.mark v).isSome → (w'.mark v).isSome

/-- The number of edges whose source has no mark. -/
def pending (g : Graph α) (w : Walk α) : Nat := g.edges.countP fun e => (w.mark e.1).isNone

theorem keeps_enter (w : Walk α) (u : α) : w.Keeps (w.enter u) := by
  intro v hv
  by_cases h : v = u <;> simp [enter, setMark, h, hv]

theorem keeps_leave (w : Walk α) (u : α) : w.Keeps (w.leave u) := by
  intro v hv
  by_cases h : v = u <;> simp [leave, setMark, h, hv]

omit [DecidableEq α] in
theorem pending_le {w w' : Walk α} (g : Graph α) (h : w.Keeps w') :
    pending g w' ≤ pending g w := by
  refine List.countP_mono_left fun e _ he => ?_
  cases hm : w.mark e.1 with
  | none => rfl
  | some m =>
    have := h e.1 (by simp [hm])
    simp_all

/-- Entering a node takes its successors out of the count. -/
theorem pending_enter {w : Walk α} {u : α} (g : Graph α) (h : w.mark u = none) :
    pending g (w.enter u) + (g.successors u).length = pending g w := by
  simp only [pending, Graph.successors, List.length_map, ← List.countP_eq_length_filter, enter,
    setMark]
  induction g.edges with
  | nil => rfl
  | cons e es ih =>
    by_cases he : e.1 = u
    · simp only [List.countP_cons, he, h]
      simp
      omega
    · simp only [List.countP_cons, he]
      simp
      omega

mutual

/-- Visits a node: the walk afterwards, with the fact that no mark is lost. -/
def visiting (g : Graph α) (w : Walk α) (u : α) : { w' : Walk α // w.Keeps w' } :=
  match h : w.mark u with
  | some .finished => ⟨w, fun _ hv => hv⟩
  | some .onPath => ⟨w.close u, fun _ hv => hv⟩
  | none =>
    -- the successors are paid for with the edges that entering `u` takes out of the count
    have := pending_enter g h
    match visitingAll g (w.enter u) (g.successors u) with
    | ⟨below, hb⟩ => ⟨below.leave u, fun v hv => keeps_leave _ u v (hb v (keeps_enter w u v hv))⟩
termination_by 2 * pending g w + 1

/-- Visits nodes in their order: the walk afterwards, with the fact that no mark is lost. -/
def visitingAll (g : Graph α) (w : Walk α) : List α → { w' : Walk α // w.Keeps w' }
  | [] => ⟨w, fun _ hv => hv⟩
  | v :: vs =>
    match visiting g w v with
    | ⟨w₁, h₁⟩ =>
      -- the visit may have entered nodes, but it has unmarked none
      have := pending_le g h₁
      match visitingAll g w₁ vs with
      | ⟨w₂, h₂⟩ => ⟨w₂, fun x hx => h₂ x (h₁ x hx)⟩
termination_by vs => 2 * pending g w + 2 * vs.length

end

/-- Visits a node, unless the walk has been there. -/
def visit (g : Graph α) (w : Walk α) (u : α) : Walk α := (visiting g w u).1

/-- Visits nodes in their order. -/
def visitAll (g : Graph α) (w : Walk α) (us : List α) : Walk α := us.foldl (visit g) w

theorem visitingAll_eq (g : Graph α) (w : Walk α) (us : List α) :
    (visitingAll g w us).1 = visitAll g w us := by
  induction us generalizing w with
  | nil => simp [visitingAll, visitAll]
  | cons u us ih =>
    rw [visitingAll]
    exact ih _

/-- A finished node is passed over, one on the path closes a cycle, and any other is entered and left
again once its successors have been visited. -/
theorem visit_eq (g : Graph α) (w : Walk α) (u : α) :
    visit g w u =
      match w.mark u with
      | some .finished => w
      | some .onPath => w.close u
      | none => (visitAll g (w.enter u) (g.successors u)).leave u := by
  rw [visit, visiting]
  split <;> rename_i h <;> simp [h, visitingAll_eq]

end Walk

/-- The walk through all that can be reached from the roots, which are visited in their order. -/
def Graph.explore {α : Type} [DecidableEq α] (g : Graph α) (roots : List α) : Walk α :=
  Walk.visitAll g .start roots

end UtteranceGrammar
