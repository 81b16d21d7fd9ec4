/-
Which rules a circle of references is reported for.

The last finding of resolution names rules that refer to each other in a circle. All that it names do, and each is
named once. But it does not name all that do. The walk along the references passes over a rule that it has
finished, so of several circles that run through one reference it may record only the first, and a rule that lies
on the others alone is left out (`Grammar.not_circularDependency_names`).

What is left out is never a whole circle. Every circle has a reference that has closed a recorded one, so every
circle shares a reference with a circle of which all rules are named (`Grammar.circularDependency_names`). Where
circles do not meet, where each rule has one reference at most that leads back to it, nothing is left out.
-/
import UtteranceGrammar.Proofs.Dependency.Repeats
import UtteranceGrammar.Proofs.Validation.Findings

set_option autoImplicit false

namespace UtteranceGrammar

namespace Graph

variable {α : Type} {g : Graph α} {c : List α} {x y : α}

/-- Where only one edge of each node leads back to it, a cycle holds all nodes from which a way leads back to it. -/
theorem IsCycle.mem_of_transGen (hc : g.IsCycle c)
    (hback : ∀ x y z, g.Edge x y → g.Edge x z → Relation.TransGen g.Edge y x →
      Relation.TransGen g.Edge z x → y = z)
    (hx : x ∈ c) (hxy : Relation.TransGen g.Edge x y) (hyx : Relation.TransGen g.Edge y x) : y ∈ c := by
  -- a step that can be taken back is the step that the cycle takes
  have hstep : ∀ {x y}, x ∈ c → g.Edge x y → Relation.TransGen g.Edge y x → y ∈ c := by
    intro x y hx hxy hyx
    obtain ⟨z, hz, hxz⟩ := hc.exists_edge hx
    rw [hback x y z hxy hxz hyx (hc.transGen_of_mem hz hx)]
    exact hz
  induction hxy with
  | single hxy => exact hstep hx hxy hyx
  | @tail y z hxy hyz ih =>
    have hy : y ∈ c := ih (.head hyz hyx)
    exact hstep hy hyz (hyx.trans hxy)

end Graph

namespace Grammar

variable {g : Grammar} {x y : Name}

/-! ## Circles of references -/

/-- A rule of the first name refers to the second. -/
def RefersTo (g : Grammar) (x y : Name) : Prop := ∃ r ∈ g, r.id = x ∧ y ∈ r.references

/-- Names that refer each to the next, from one back to it. -/
def IsCircle (g : Grammar) (c : List Name) : Prop :=
  c.IsChain g.RefersTo ∧ ∃ x below, c = x :: (below ++ [x])

theorem edge_dependencies (g : Grammar) : (dependencies g).Edge = g.RefersTo :=
  funext fun _ => funext fun _ => propext edge_dependencies_iff

theorem isCycle_dependencies_iff {c : List Name} : (dependencies g).IsCycle c ↔ g.IsCircle c := by
  rw [Graph.IsCycle, IsCircle, edge_dependencies]

/-! ## The names that are reported -/

/-- The names on the cycles that the walk records. -/
def circleNames (g : Grammar) : List Name := (dependencyWalk g).cycles.flatten.eraseDups

theorem mem_circleNames : x ∈ circleNames g ↔ ∃ c ∈ (dependencyWalk g).cycles, x ∈ c := by
  rw [circleNames, List.mem_eraseDups, List.mem_flatten]

/-- Only names on circles are reported. -/
theorem transGen_of_mem_circleNames (hx : x ∈ circleNames g) : Relation.TransGen g.RefersTo x x := by
  obtain ⟨c, hc, hxc⟩ := mem_circleNames.1 hx
  have hcycle := Walk.isCycle_explore _ _ c hc
  rw [← edge_dependencies]
  exact hcycle.transGen_of_mem hxc hxc

/-- A name that refers to any is one of those from which the walk starts. -/
theorem reachable_of_refersTo (h : g.RefersTo x y) : (dependencies g).Reachable (dependents g) x := by
  obtain ⟨r, hr, rfl, hy⟩ := h
  exact ⟨r.id, mem_dependents hr hy, .refl⟩

/-- Every circle shares a reference with one of which all names are reported. -/
theorem exists_named_circle {c : List Name} (hc : g.IsCircle c) :
    ∃ d, g.IsCircle d ∧ (∀ x ∈ d, x ∈ circleNames g) ∧ ∃ x y, [x, y] <:+: c ∧ [x, y] <:+: d := by
  have hcycle := isCycle_dependencies_iff.2 hc
  have hreach : ∀ x ∈ c, (dependencies g).Reachable (dependents g) x := by
    intro x hx
    obtain ⟨y, -, hxy⟩ := hcycle.exists_edge hx
    rw [edge_dependencies] at hxy
    exact reachable_of_refersTo hxy
  obtain ⟨x, y, hxy, d, hd, hclosed⟩ := Walk.exists_closed_of_isCycle hcycle hreach
  refine ⟨d, isCycle_dependencies_iff.1 (Walk.isCycle_explore _ _ d hd), ?_, x, y, hxy, hclosed.isInfix⟩
  exact fun z hz => mem_circleNames.2 ⟨d, hd, hz⟩

/-- Where each name has one reference at most that leads back to it, all names on circles are reported. -/
theorem mem_circleNames_of_transGen
    (hback : ∀ x y z, g.RefersTo x y → g.RefersTo x z → Relation.TransGen g.RefersTo y x →
      Relation.TransGen g.RefersTo z x → y = z)
    (hx : Relation.TransGen g.RefersTo x x) : x ∈ circleNames g := by
  rw [← edge_dependencies] at hback hx
  obtain ⟨c, hc, hxc⟩ := Graph.exists_isCycle_of_transGen hx
  obtain ⟨d, hd, hnamed, y, z, hyz, hyzd⟩ := exists_named_circle (isCycle_dependencies_iff.1 hc)
  have hyc : y ∈ c := hyz.subset List.mem_cons_self
  have hyd : y ∈ d := hyzd.subset List.mem_cons_self
  apply hnamed
  exact (isCycle_dependencies_iff.2 hd).mem_of_transGen hback hyd (hc.transGen_of_mem hyc hxc)
    (hc.transGen_of_mem hxc hyc)

/-! ## The finding -/

/-- Of a well-named grammar, a circle of references is the only error. -/
theorem errors_of_circle (hg : WellNamed g) (hcircle : ∃ x, Relation.TransGen g.RefersTo x x) :
    (resolve g).diagnostics.filter Diagnostic.isError = [.circularDependency (circleNames g)] := by
  have hnone : (nameDiagnostics g).countP Diagnostic.isError = 0 :=
    (countP_nameDiagnostics_eq_zero_iff g).2 hg
  have hcycles : (dependencyWalk g).cycles ≠ [] := by
    obtain ⟨x, hx⟩ := hcircle
    rw [← edge_dependencies] at hx
    obtain ⟨c, hc, hxc⟩ := Graph.exists_isCycle_of_transGen hx
    obtain ⟨d, -, hnamed, y, z, -, hyz⟩ := exists_named_circle (isCycle_dependencies_iff.1 hc)
    obtain ⟨e, he, -⟩ := mem_circleNames.1 (hnamed y (hyz.subset List.mem_cons_self))
    exact List.ne_nil_of_mem he
  have hnil : (nameDiagnostics g).filter Diagnostic.isError = [] := by
    rw [← List.length_eq_zero_iff, ← List.countP_eq_length_filter]
    exact hnone
  rw [resolve_of_no_errors hnone, if_neg (by simpa using hcycles), List.filter_append, hnil]
  rfl

/-- If names and references are in order and there is a circle of references, one error is reported. It names
each rule once, and only rules on circles. Every circle shares a reference with one of which it names all rules;
and if no rule has two references that lead back to it, it names all rules on circles. -/
theorem circularDependency_names (hg : WellNamed g)
    (hcircle : ∃ x, Relation.TransGen g.RefersTo x x) :
    ∃ names, (resolve g).diagnostics.filter Diagnostic.isError = [.circularDependency names] ∧
      names.Nodup ∧
      (∀ x ∈ names, Relation.TransGen g.RefersTo x x) ∧
      (∀ c, g.IsCircle c →
        ∃ d, g.IsCircle d ∧ (∀ x ∈ d, x ∈ names) ∧ ∃ x y, [x, y] <:+: c ∧ [x, y] <:+: d) ∧
      ((∀ x y z, g.RefersTo x y → g.RefersTo x z → Relation.TransGen g.RefersTo y x →
          Relation.TransGen g.RefersTo z x → y = z) →
        ∀ x, x ∈ names ↔ Relation.TransGen g.RefersTo x x) := by
  refine ⟨circleNames g, errors_of_circle hg hcircle, nodup_eraseDups _, ?_, ?_, ?_⟩
  · exact fun x hx => transGen_of_mem_circleNames hx
  · exact fun c hc => exists_named_circle hc
  · exact fun hback x => ⟨transGen_of_mem_circleNames, mem_circleNames_of_transGen hback⟩

/-- A circle of two rules, a rule that refers to itself, and one below both. -/
def twoCircles : Grammar :=
  [⟨"a", .intent, [[.reference "b" false], [.reference "d" false]]⟩,
    ⟨"b", .plain, [[.group [[.reference "a" true]] false]]⟩,
    ⟨"c", .intent, [[.reference "c" false, .reference "d" false]]⟩,
    ⟨"d", .plain, [[.literals ["x".toList] false]]⟩]

theorem circularDependency_names_twoCircles :
    WellNamed twoCircles ∧ (∃ x, Relation.TransGen twoCircles.RefersTo x x) ∧
      (resolve twoCircles).diagnostics.filter Diagnostic.isError =
        [.circularDependency ["a", "b", "c"]] ∧
      ∀ x, x ∈ ["a", "b", "c"] ↔ Relation.TransGen twoCircles.RefersTo x x := by
  have hg : WellNamed twoCircles := (countP_nameDiagnostics_eq_zero_iff _).1 (by decide +kernel)
  have hrefers : ∀ {x y}, twoCircles.RefersTo x y ↔
      (x, y) ∈ [("a", "b"), ("a", "d"), ("b", "a"), ("c", "c"), ("c", "d")] := by
    intro x y
    have hedges : (dependencies twoCircles).edges =
        [("a", "b"), ("a", "d"), ("b", "a"), ("c", "c"), ("c", "d")] := by decide +kernel
    rw [← edge_dependencies, Graph.Edge, hedges]
  have hcircle : ∃ x, Relation.TransGen twoCircles.RefersTo x x :=
    ⟨"c", .single (hrefers.2 (by decide))⟩
  obtain ⟨names, herrors, -, -, -, hall⟩ := circularDependency_names hg hcircle
  have hreported : (resolve twoCircles).diagnostics.filter Diagnostic.isError =
      [.circularDependency ["a", "b", "c"]] := by decide +kernel
  obtain rfl : ["a", "b", "c"] = names := by
    rw [hreported] at herrors
    simpa using herrors
  refine ⟨hg, hcircle, hreported, hall ?_⟩
  intro x y z hxy hxz hyx hzx
  -- the rule below both leads nowhere
  have hlast : ∀ {y}, ¬Relation.TransGen twoCircles.RefersTo "d" y := by
    intro y h
    obtain ⟨z, hz, -⟩ := Relation.TransGen.head'_iff.1 h
    simpa using hrefers.1 hz
  have hy : y ≠ "d" := fun h => hlast (h ▸ hyx)
  have hz : z ≠ "d" := fun h => hlast (h ▸ hzx)
  have hxy' := hrefers.1 hxy
  have hxz' := hrefers.1 hxz
  simp only [List.mem_cons, Prod.mk.injEq, List.not_mem_nil, or_false, hy, hz, and_false,
    false_or] at hxy' hxz'
  grind

/-- Two circles that share a reference: one of two rules, and one that comes to them by way of a third. -/
def crossing : Grammar :=
  [⟨"a", .intent, [[.reference "b" false], [.reference "c" false]]⟩,
    ⟨"b", .plain, [[.reference "a" false]]⟩, ⟨"c", .plain, [[.reference "b" false]]⟩]

/-- Not all rules on circles are named. When the walk comes to the third rule, the one that it refers to is
finished, and nothing is recorded. -/
theorem not_circularDependency_names : ¬∀ (g : Grammar) (names : List Name), WellNamed g →
    (∃ x, Relation.TransGen g.RefersTo x x) →
    (resolve g).diagnostics.filter Diagnostic.isError = [.circularDependency names] →
    names.Nodup ∧ ∀ x, x ∈ names ↔ Relation.TransGen g.RefersTo x x := by
  intro hall
  have hg : WellNamed crossing := (countP_nameDiagnostics_eq_zero_iff _).1 (by decide +kernel)
  have hrefers : ∀ {x y}, (x, y) ∈ [("a", "b"), ("a", "c"), ("b", "a"), ("c", "b")] →
      crossing.RefersTo x y := by
    intro x y h
    have hedges : (dependencies crossing).edges =
        [("a", "b"), ("a", "c"), ("b", "a"), ("c", "b")] := by decide +kernel
    rw [← edge_dependencies, Graph.Edge, hedges]
    exact h
  have hcircle : Relation.TransGen crossing.RefersTo "c" "c" :=
    .head (hrefers (y := "b") (by decide))
      (.head (hrefers (y := "a") (by decide)) (.single (hrefers (by decide))))
  have hreported : (resolve crossing).diagnostics.filter Diagnostic.isError =
      [.circularDependency ["a", "b"]] := by decide +kernel
  have hmem := ((hall crossing ["a", "b"] hg ⟨"c", hcircle⟩ hreported).2 "c").2 hcircle
  exact absurd hmem (by decide)

end Grammar

end UtteranceGrammar
