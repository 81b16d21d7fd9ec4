/-
Rules that are referred to more than once.

Resolution follows each reference of a rule once, however often the rule makes it. That is a matter of effort alone.
If each reference were followed as often as it is made, the walk would list the same names in the same order, and
the names on the cycles that it records would be the same, in the same order as well (`Grammar.explore_citations`).

Both graphs become the same one when their repeats are left out, and repeats make no difference to a walk
(`Graph.explore_withoutRepeats`). The rest is about lists: of names that are collected from cycles, each once, a
cycle that has been there before adds none.
-/
import UtteranceGrammar.Proofs.Validation.Circles

set_option autoImplicit false

namespace UtteranceGrammar

/-! ## Repeats within the pieces of a list -/

section Lists

variable {ι α : Type} [BEq α] [LawfulBEq α]

theorem eraseDups_eraseDups (l : List α) : l.eraseDups.eraseDups = l.eraseDups :=
  eraseDups_of_nodup (nodup_eraseDups l)

/-- Pieces may be put together with their repeats or without. -/
theorem eraseDups_flatMap_congr {f f' : ι → List α} (l : List ι)
    (h : ∀ i, (f i).eraseDups = (f' i).eraseDups) : (l.flatMap f).eraseDups = (l.flatMap f').eraseDups := by
  induction l using List.reverseRecOn with
  | nil => rfl
  | append_singleton l i ih =>
    have hmem : ∀ a, a ∈ l.flatMap f ↔ a ∈ l.flatMap f' := by
      intro a
      rw [← List.mem_eraseDups, ih, List.mem_eraseDups]
    rw [List.flatMap_append, List.flatMap_append, List.flatMap_singleton, List.flatMap_singleton,
      eraseDups_append_congr ih, List.eraseDups_append, List.eraseDups_append]
    -- what is left out of the last piece is left out of it without repeats
    have hrest : ∀ k : List α, (k.removeAll (l.flatMap f')).eraseDups = k.eraseDups.removeAll (l.flatMap f') :=
      fun k => (filter_eraseDups _ k).symm
    rw [hrest, hrest, h]

/-- A list that has been there before adds nothing to what is collected from lists. -/
theorem eraseDups_flatten_eraseDups (ls : List (List α)) :
    ls.eraseDups.flatten.eraseDups = ls.flatten.eraseDups := by
  induction ls using List.reverseRecOn with
  | nil => rfl
  | append_singleton ls l ih =>
    rw [List.flatten_append, List.flatten_singleton]
    by_cases hl : l ∈ ls
    · have hsub : ∀ a ∈ l, a ∈ ls.flatten := fun a ha => List.mem_flatten.2 ⟨l, hl, ha⟩
      rw [eraseDups_append_of_subset (List.forall_mem_singleton.2 hl), ih, eraseDups_append_of_subset hsub]
    · have hkeep : (ls ++ [l]).eraseDups = ls.eraseDups ++ [l] := by
        rw [List.eraseDups_append, List.removeAll, List.filter_cons_of_pos (by simpa using hl)]
        rfl
      rw [hkeep, List.flatten_append, List.flatten_singleton, eraseDups_append_congr ih]

theorem eraseDups_flatten_congr {ls ls' : List (List α)} (h : ls.eraseDups = ls'.eraseDups) :
    ls.flatten.eraseDups = ls'.flatten.eraseDups := by
  rw [← eraseDups_flatten_eraseDups, h, eraseDups_flatten_eraseDups]

end Lists

namespace Grammar

/-! ## References as often as they are made -/

/-- The graph of references, with an edge for each time that a reference is made. -/
def citations (g : Grammar) : Graph Name := ⟨g.flatMap fun r => r.references.map (r.id, ·)⟩

/-- Without repeats, the citations are the dependencies. -/
theorem withoutRepeats_citations (g : Grammar) :
    (citations g).withoutRepeats = (dependencies g).withoutRepeats := by
  refine congrArg Graph.mk (eraseDups_flatMap_congr g fun r => ?_)
  have hmap : ∀ names : List Name, (names.map (r.id, ·)).eraseDups = names.eraseDups.map (r.id, ·) :=
    fun names => map_eraseDups fun _ _ _ _ h => (Prod.mk.inj h).2
  rw [hmap, hmap, eraseDups_eraseDups]

/-- Repeated edges and repeated roots make no difference to the order in which a walk lists the nodes, and to its
record of cycles none but repeats. So it makes no difference to the order of the rules, nor to the names that are
reported, that each reference of a rule is followed once. -/
theorem explore_citations :
    (∀ {α : Type} [DecidableEq α] (g : Graph α) (roots : List α),
      (∀ u, g.withoutRepeats.successors u = (g.successors u).eraseDups) ∧
        (g.withoutRepeats.explore roots.eraseDups).sorted = (g.explore roots).sorted ∧
        (g.withoutRepeats.explore roots.eraseDups).cycles = (g.explore roots).cycles.eraseDups) ∧
    ∀ g : Grammar, ((citations g).explore (dependents g)).sorted = (dependencyWalk g).sorted ∧
      (((citations g).explore (dependents g)).cycles = [] ↔ (dependencyWalk g).cycles = []) ∧
      ((citations g).explore (dependents g)).cycles.flatten.eraseDups = circleNames g := by
  refine ⟨fun g roots => ⟨g.successors_withoutRepeats, g.explore_withoutRepeats roots⟩, fun g => ?_⟩
  obtain ⟨hsorted, hcycles⟩ := (citations g).explore_withoutRepeats (dependents g)
  obtain ⟨hsorted', hcycles'⟩ := (dependencies g).explore_withoutRepeats (dependents g)
  rw [withoutRepeats_citations] at hsorted hcycles
  have hsame : ((citations g).explore (dependents g)).cycles.eraseDups = (dependencyWalk g).cycles.eraseDups :=
    hcycles.symm.trans hcycles'
  refine ⟨hsorted.symm.trans hsorted', ?_, eraseDups_flatten_congr hsame⟩
  have hnil : ∀ {cycles : List (List Name)}, cycles.eraseDups = [] ↔ cycles = [] := by
    intro cycles
    rw [List.eq_nil_iff_forall_not_mem, List.eq_nil_iff_forall_not_mem]
    simp only [List.mem_eraseDups]
  rw [← hnil, hsame, hnil]

end Grammar

end UtteranceGrammar
