/-
Finite directed graphs, given by their edges.

A graph is a list of edges, each from a node to a node that it depends on. The order of the list is
the order in which a node's successors are visited, and an edge that is listed twice is visited twice.
A node without edges needs no mention: it has no successors.
-/
set_option autoImplicit false

namespace UtteranceGrammar

/-- A directed graph. -/
structure Graph (α : Type) where
  /-- The edges, each from a node to one that it depends on. -/
  edges : List (α × α)
deriving DecidableEq, Repr

namespace Graph

variable {α : Type} [DecidableEq α]

/-- The nodes that `u` depends on, in the order of the edges. -/
def successors (g : Graph α) (u : α) : List α :=
  (g.edges.filter (·.1 = u)).map (·.2)

/-- There is an edge from `u` to `v`. -/
def Edge (g : Graph α) (u v : α) : Prop := (u, v) ∈ g.edges

instance (g : Graph α) (u v : α) : Decidable (g.Edge u v) :=
  inferInstanceAs (Decidable ((u, v) ∈ g.edges))

@[simp] theorem mem_successors {g : Graph α} {u v : α} : v ∈ g.successors u ↔ g.Edge u v := by
  simp [successors, Edge]

end Graph

end UtteranceGrammar
