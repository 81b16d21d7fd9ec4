/-
What a walk does, and what it keeps.

`Visits g w us w'` relates a walk to the walk after visiting the nodes `us`: one rule for each thing
that can happen to the first of them, and the visit of a node that is entered is the visits of its
successors, from the walk that has entered it. The two visiting functions follow these rules
(`visits_visitAll`), so whatever a walk keeps is shown by one induction on the derivation, without a
look at marks being lost or at what makes the walk end.

The marks say where a node is: on the path, among the finished nodes, or not met yet (`Consistent`).
And an edge out of a finished node is settled: its target was finished before, or it closed a cycle that
has been recorded (`Settled`). The second invariant needs the first: the successors of a node are
visited while the node is the last of the path, so one that is met on the path again closes a cycle
that ends with the edge to it.
-/
import Mathlib.Data.List.Infix
import Mathlib.Data.List.Nodup
import Mathlib.Data.List.TakeWhile
import UtteranceGrammar.Dependency.Walk

set_option autoImplicit false

namespace UtteranceGrammar

/-- What holds of each element of a list together with those in front of it, when an element is added behind. -/
theorem forall_split_append_singleton {α : Type} {l : List α} {u : α} {P : List α → α → Prop} :
    (∀ before x behind, l ++ [u] = before ++ x :: behind → P before x) ↔
      (∀ before x behind, l = before ++ x :: behind → P before x) ∧ P l u := by
  constructor
  · intro h
    refine ⟨fun before x behind hl => h before x (behind ++ [u]) ?_, h l u [] rfl⟩
    rw [hl, List.append_assoc, List.cons_append]
  · rintro ⟨hl, hu⟩ before x behind hsplit
    rcases List.eq_nil_or_concat behind with rfl | ⟨behind, y, rfl⟩
    · obtain ⟨rfl, rfl⟩ := List.append_singleton_inj.1 hsplit
      exact hu
    · rw [List.concat_eq_append, ← List.cons_append, ← List.append_assoc] at hsplit
      exact hl before x behind (List.append_singleton_inj.1 hsplit).1

namespace Walk

variable {α : Type} [DecidableEq α]

/-- From `w`, visiting `us` one after the other leads to the last walk. -/
inductive Visits (g : Graph α) : Walk α → List α → Walk α → Prop where
  | nil (w : Walk α) : Visits g w [] w
  | finished {w w' : Walk α} {u : α} {us : List α} (h : w.mark u = some .finished)
      (rest : Visits g w us w') : Visits g w (u :: us) w'
  | closes {w w' : Walk α} {u : α} {us : List α} (h : w.mark u = some .onPath)
      (rest : Visits g (w.close u) us w') : Visits g w (u :: us) w'
  | enters {w below w' : Walk α} {u : α} {us : List α} (h : w.mark u = none)
      (successors : Visits g (w.enter u) (g.successors u) below)
      (rest : Visits g (below.leave u) us w') : Visits g w (u :: us) w'

/-- The visiting functions follow the rules. The count of pending edges and of nodes to visit goes
down: entering a node pays for its successors. -/
theorem visits_visitAll (g : Graph α) (w : Walk α) (us : List α) :
    Visits g w us (visitAll g w us) := by
  induction hn : pending g w + us.length using Nat.strongRecOn generalizing w us with
  | _ n ih =>
    cases us with
    | nil => exact .nil w
    | cons u us =>
      have hkeeps : w.Keeps (visit g w u) := (visiting g w u).2
      have hrest : Visits g (visit g w u) us (visitAll g (visit g w u) us) := by
        refine ih _ ?_ _ _ rfl
        have := pending_le g hkeeps
        rw [List.length_cons] at hn
        omega
      have hcons : visitAll g w (u :: us) = visitAll g (visit g w u) us := rfl
      have hvisit := visit_eq g w u
      rw [hcons]
      cases hm : w.mark u with
      | none =>
        rw [hm] at hvisit
        refine .enters hm (ih _ ?_ _ _ rfl) (hvisit ▸ hrest)
        have := pending_enter g hm
        rw [List.length_cons] at hn
        omega
      | some m =>
        rw [hm] at hvisit
        cases m with
        | finished => exact .finished hm (hvisit ▸ hrest)
        | onPath => exact .closes hm (hvisit ▸ hrest)

variable {g : Graph α} {w w' : Walk α} {u v : α} {us : List α}

/-! ## The path, and what only grows -/

/-- After a visit the path is as it was. -/
theorem Visits.path_eq (h : Visits g w us w') : w'.path = w.path := by
  induction h with
  | nil w => rfl
  | finished _ _ ih => exact ih
  | closes _ _ ih => exact ih
  | enters _ _ _ ihs ihr =>
    rw [ihr, leave, ihs, enter]
    exact List.dropLast_concat

/-- A node that is left after its successors have been visited leaves the path as it was. -/
theorem Visits.path_leave {below : Walk α} (successors : Visits g (w.enter u) us below) :
    (below.leave u).path = w.path := by
  rw [leave, successors.path_eq, enter]
  exact List.dropLast_concat

/-- Nodes are only ever added behind those that are finished. -/
theorem Visits.sorted_prefix (h : Visits g w us w') : w.sorted <+: w'.sorted := by
  induction h with
  | nil w => exact List.prefix_rfl
  | finished _ _ ih => exact ih
  | closes _ _ ih => exact ih
  | enters _ _ _ ihs ihr => exact ihs.trans ((List.prefix_append _ _).trans ihr)

/-- Cycles are only ever added behind those that are recorded. -/
theorem Visits.cycles_prefix (h : Visits g w us w') : w.cycles <+: w'.cycles := by
  induction h with
  | nil w => exact List.prefix_rfl
  | finished _ _ ih => exact ih
  | closes _ _ ih => exact (List.prefix_append _ _).trans ih
  | enters _ _ _ ihs ihr => exact ihs.trans ihr

/-! ## Where the nodes are -/

/-- The marks are those of the path and of the finished nodes, and no node is in two places. -/
structure Consistent (w : Walk α) : Prop where
  onPath_iff : ∀ v, w.mark v = some .onPath ↔ v ∈ w.path
  finished_iff : ∀ v, w.mark v = some .finished ↔ v ∈ w.sorted
  path_nodup : w.path.Nodup
  sorted_nodup : w.sorted.Nodup

omit [DecidableEq α] in
/-- At the start there are no marks, no path and no finished nodes. -/
theorem consistent_start : (start : Walk α).Consistent := by
  refine ⟨fun v => ?_, fun v => ?_, List.nodup_nil, List.nodup_nil⟩ <;> simp [start]

omit [DecidableEq α] in
/-- A list with one element more holds nothing twice if that element is new to it. -/
theorem nodup_append_singleton {l : List α} : (l ++ [u]).Nodup ↔ u ∉ l ∧ l.Nodup := by
  rw [← List.concat_eq_append, List.nodup_concat]

/-- A node that is entered has no mark, so it is neither on the path nor finished, and it becomes the last of the
path. -/
theorem Consistent.enter (hw : w.Consistent) (hm : w.mark u = none) : (w.enter u).Consistent := by
  have hpath : u ∉ w.path := by
    rw [← hw.onPath_iff, hm]
    simp
  have hsorted : u ∉ w.sorted := by
    rw [← hw.finished_iff, hm]
    simp
  refine ⟨fun v => ?_, fun v => ?_, ?_, hw.sorted_nodup⟩
  · by_cases hv : v = u
    · simp [Walk.enter, setMark, hv]
    · simp [Walk.enter, setMark, hv, hw.onPath_iff]
  · by_cases hv : v = u
    · simp [Walk.enter, setMark, hv, hsorted]
    · simp [Walk.enter, setMark, hv, hw.finished_iff]
  · exact nodup_append_singleton.2 ⟨hpath, hw.path_nodup⟩

/-- The last node of the path is left for the finished nodes, among which it has not been before. -/
theorem Consistent.leave (hw : w.Consistent) {path : List α} (hpath : w.path = path ++ [u]) :
    (w.leave u).Consistent := by
  obtain ⟨hu, hnodup⟩ : u ∉ path ∧ path.Nodup := nodup_append_singleton.1 (hpath ▸ hw.path_nodup)
  have hm : w.mark u = some .onPath := by
    rw [hw.onPath_iff, hpath]
    exact List.mem_append_right _ (List.mem_singleton_self u)
  have hsorted : u ∉ w.sorted := by
    rw [← hw.finished_iff, hm]
    simp
  have hdrop : w.path.dropLast = path := by rw [hpath, List.dropLast_concat]
  refine ⟨fun v => ?_, fun v => ?_, ?_, ?_⟩
  · by_cases hv : v = u
    · simp [Walk.leave, setMark, hv, hdrop, hu]
    · simp [Walk.leave, setMark, hv, hw.onPath_iff, hpath]
  · by_cases hv : v = u
    · simp [Walk.leave, setMark, hv]
    · simp [Walk.leave, setMark, hv, hw.finished_iff]
  · rw [Walk.leave, hdrop]
    exact hnodup
  · exact nodup_append_singleton.2 ⟨hsorted, hw.sorted_nodup⟩

/-- Recording a cycle moves no node. -/
theorem Consistent.close (hw : w.Consistent) : (w.close u).Consistent :=
  ⟨hw.onPath_iff, hw.finished_iff, hw.path_nodup, hw.sorted_nodup⟩

/-- Visits keep the marks in order. This is one induction on the rules, with a lemma for each thing that can happen.
-/
theorem Visits.consistent (h : Visits g w us w') (hw : w.Consistent) : w'.Consistent := by
  induction h with
  | nil w => exact hw
  | finished _ _ ih => exact ih hw
  | closes _ _ ih => exact ih hw.close
  | enters hm successors _ ihs ihr => exact ihr ((ihs (hw.enter hm)).leave successors.path_eq)

/-- So the marks are in order when a node is left whose successors have been visited. -/
theorem Visits.consistent_leave {below : Walk α} (successors : Visits g (w.enter u) us below)
    (hw : w.Consistent) (hm : w.mark u = none) : (below.leave u).Consistent :=
  (successors.consistent (hw.enter hm)).leave successors.path_eq

/-! ## What becomes of an edge -/

/-- The edge from `u` to `v` closed one of the cycles recorded. -/
def Closed (w : Walk α) (u v : α) : Prop := ∃ c ∈ w.cycles, [u, v] <:+ c

omit [DecidableEq α] in
/-- An edge that has closed a recorded cycle has done so for good. -/
theorem Closed.mono (h : Closed w u v) (hcycles : w.cycles <+: w'.cycles) : Closed w' u v := by
  obtain ⟨c, hc, huv⟩ := h
  exact ⟨c, hcycles.subset hc, huv⟩

/-- From a node of the path on there is something of the path. -/
theorem dropWhile_ne_nil (hv : v ∈ w.path) : w.path.dropWhile (· ≠ v) ≠ [] := by
  intro hnil
  rw [List.dropWhile_eq_nil_iff] at hnil
  simpa using hnil v hv

/-- A node on the path is found there. -/
theorem cycleTo?_of_mem (hv : v ∈ w.path) :
    w.cycleTo? v = some (w.path.dropWhile (· ≠ v) ++ [v]) := by
  unfold cycleTo?
  split
  · rename_i hnil
    exact absurd hnil (dropWhile_ne_nil hv)
  · rfl

/-- An edge from the end of the path back to the path closes a cycle that ends with it. -/
theorem closed_close {path : List α} (hpath : w.path = path ++ [u]) (hv : v ∈ w.path) :
    Closed (w.close v) u v := by
  have hne := dropWhile_ne_nil hv
  have hlast : (w.path.dropWhile (· ≠ v)).getLast hne = u := by
    have hsuffix : w.path.dropWhile (· ≠ v) <:+ path ++ [u] := hpath ▸ List.dropWhile_suffix _
    rw [hsuffix.getLast hne, List.getLast_concat]
  refine ⟨w.path.dropWhile (· ≠ v) ++ [v], ?_, ?_⟩
  · rw [close, cycleTo?_of_mem hv]
    exact List.mem_append_right _ (List.mem_singleton_self _)
  · refine ⟨(w.path.dropWhile (· ≠ v)).dropLast, ?_⟩
    rw [← List.dropLast_append_getLast hne, hlast]
    simp

/-- Successors of the last node of the path are finished, or the edges to them have closed cycles. -/
theorem Visits.finished_or_closed (h : Visits g w us w') (hw : w.Consistent) {path : List α}
    (hpath : w.path = path ++ [u]) : ∀ v ∈ us, v ∈ w'.sorted ∨ Closed w' u v := by
  induction h with
  | nil w => exact fun v hv => absurd hv List.not_mem_nil
  | @finished w w' v us hm rest ih =>
    intro x hx
    rcases List.mem_cons.1 hx with rfl | hx
    · exact .inl (rest.sorted_prefix.subset ((hw.finished_iff x).1 hm))
    · exact ih hw hpath x hx
  | @closes w w' v us hm rest ih =>
    intro x hx
    rcases List.mem_cons.1 hx with rfl | hx
    · exact .inr ((closed_close hpath ((hw.onPath_iff x).1 hm)).mono rest.cycles_prefix)
    · exact ih hw.close hpath x hx
  | @enters w below w' v us hm successors rest _ ihr =>
    intro x hx
    rcases List.mem_cons.1 hx with rfl | hx
    · refine .inl (rest.sorted_prefix.subset ?_)
      exact List.mem_append_right _ (List.mem_singleton_self x)
    · exact ihr (successors.consistent_leave hw hm) (successors.path_leave.trans hpath) x hx

/-- Of every edge out of a finished node, the target was finished before, or the edge closed a cycle. -/
def Settled (g : Graph α) (w : Walk α) : Prop :=
  ∀ before u behind, w.sorted = before ++ u :: behind →
    ∀ v, g.Edge u v → v ∈ before ∨ Closed w u v

omit [DecidableEq α] in
/-- At the start no node is finished. -/
theorem settled_start (g : Graph α) : Settled g start := by
  intro before u behind h
  exact absurd h (by simp [start])

/-- A node may be left when each edge out of it leads to a finished node or has closed a cycle. -/
theorem Settled.leave (hw : Settled g w)
    (hu : ∀ v, g.Edge u v → v ∈ w.sorted ∨ Closed w u v) : Settled g (w.leave u) :=
  forall_split_append_singleton.2 ⟨hw, hu⟩

/-- Visits keep it that edges out of finished nodes are settled. -/
theorem Visits.settled (h : Visits g w us w') (hc : w.Consistent) (hw : Settled g w) :
    Settled g w' := by
  induction h with
  | nil w => exact hw
  | finished _ _ ih => exact ih hc hw
  | closes hm rest ih =>
    refine ih hc.close fun before u behind h v hv => ?_
    exact (hw before u behind h v hv).imp_right fun hcl => hcl.mono (List.prefix_append _ _)
  | @enters w below w' u us hm successors rest ihs ihr =>
    -- while its successors are visited, `u` is the last node of the path
    have hedges := successors.finished_or_closed (hc.enter hm) rfl
    refine ihr (successors.consistent_leave hc hm) ((ihs (hc.enter hm) hw).leave fun v hv => ?_)
    exact hedges v (Graph.mem_successors.2 hv)

/-! ## The whole walk -/

/-- A walk from its roots follows the rules, from the start on. -/
theorem visits_explore (g : Graph α) (roots : List α) : Visits g start roots (g.explore roots) :=
  visits_visitAll g start roots

/-- At the end of a walk its marks are in order. -/
theorem consistent_explore (g : Graph α) (roots : List α) : (g.explore roots).Consistent :=
  (visits_explore g roots).consistent consistent_start

/-- At the end of a walk all edges out of the nodes that it lists are settled. -/
theorem settled_explore (g : Graph α) (roots : List α) : Settled g (g.explore roots) :=
  (visits_explore g roots).settled consistent_start (settled_start g)

end Walk

end UtteranceGrammar
