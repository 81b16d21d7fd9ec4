/-
Repeats make no difference to a walk.

An edge that is listed twice is followed twice, and a root that is given twice is visited twice. The second time
nothing comes of it but a cycle that has been recorded already (`Graph.explore_withoutRepeats`).

The second visit may come much later than the first one, and other nodes have been visited in between. But they
were visited from the same place: the path is what it was. So a node that was found on the path, or entered and
finished, is passed over when it is met again, or it closes the cycle that it closed before (`Walk.Passed`). This is
kept while other nodes are visited, and it lets two walks be followed side by side, one with the repeats and one
without (`Visits.alike`). What they record is then the same up to repeats. That the walk without repeats records no
cycle twice is a matter of its own: the last edge of a recorded cycle tells from which visit it comes, and no edge
is followed twice (`Visits.cycles_nodup`).
-/
import Mathlib.Data.List.Nodup
import UtteranceGrammar.Proofs.Dependency.Calls
import UtteranceGrammar.Proofs.Dependency.Circuits

set_option autoImplicit false

namespace UtteranceGrammar

/-! ## Lists without their repeats -/

section Lists

variable {α β : Type} [BEq α] [LawfulBEq α] [BEq β] [LawfulBEq β] {l m : List α}

/-- Without its repeats a list holds nothing twice. -/
theorem nodup_eraseDups (l : List α) : l.eraseDups.Nodup := by
  induction hn : l.length using Nat.strongRecOn generalizing l with
  | _ n ih =>
    cases l with
    | nil => exact List.nodup_nil
    | cons a l =>
      have hlength := List.length_filter_le (fun b => !b == a) l
      rw [List.length_cons] at hn
      rw [List.eraseDups_cons, List.nodup_cons, List.mem_eraseDups]
      refine ⟨by simp, ih _ ?_ _ rfl⟩
      omega

/-- Where nothing stands twice, there are no repeats to leave out. -/
theorem eraseDups_of_nodup (h : l.Nodup) : l.eraseDups = l := by
  induction l with
  | nil => rfl
  | cons a l ih =>
    obtain ⟨ha, hl⟩ := List.nodup_cons.1 h
    have hfilter : l.filter (fun b => !b == a) = l := by
      rw [List.filter_eq_self]
      intro b hb
      rw [Bool.not_eq_true', beq_eq_false_iff_ne]
      rintro rfl
      exact ha hb
    rw [List.eraseDups_cons, hfilter, ih hl]

/-- What is left of a list is the same if the lists to take away have the same elements. -/
theorem removeAll_congr {k : List α} (h : ∀ a, a ∈ l ↔ a ∈ m) : k.removeAll l = k.removeAll m := by
  unfold List.removeAll
  refine List.filter_congr fun a _ => ?_
  rw [Bool.not_inj_iff, Bool.eq_iff_iff, List.elem_iff, List.elem_iff, h]

/-- Nothing is left if all of a list is to be taken away. -/
theorem removeAll_eq_nil (h : ∀ a ∈ m, a ∈ l) : m.removeAll l = [] := by
  unfold List.removeAll
  rw [List.filter_eq_nil_iff]
  intro a ha
  simpa using h a ha

/-- Of a list with more behind it, the repeats in the front make no difference. -/
theorem eraseDups_append_congr {l' : List α} (h : l.eraseDups = l'.eraseDups) (m : List α) :
    (l ++ m).eraseDups = (l' ++ m).eraseDups := by
  have hmem : ∀ a, a ∈ l ↔ a ∈ l' := by
    intro a
    rw [← List.mem_eraseDups, h, List.mem_eraseDups]
  rw [List.eraseDups_append, List.eraseDups_append, h, removeAll_congr hmem]

/-- What stands in the front already adds nothing. -/
theorem eraseDups_append_of_subset (h : ∀ a ∈ m, a ∈ l) : (l ++ m).eraseDups = l.eraseDups := by
  rw [List.eraseDups_append, removeAll_eq_nil h]
  exact List.append_nil _

/-- It makes no difference whether repeats are left out before or after elements of another kind are. -/
theorem filter_eraseDups (p : α → Bool) (l : List α) :
    l.eraseDups.filter p = (l.filter p).eraseDups := by
  induction hn : l.length using Nat.strongRecOn generalizing l with
  | _ n ih =>
    cases l with
    | nil => rfl
    | cons a l =>
      have hlength := List.length_filter_le (fun b => !b == a) l
      rw [List.length_cons] at hn
      have hrest := ih _ (by omega) (l.filter fun b => !b == a) rfl
      rw [List.filter_filter] at hrest
      rw [List.eraseDups_cons]
      by_cases ha : p a = true
      · rw [List.filter_cons_of_pos ha, List.filter_cons_of_pos ha, hrest, List.eraseDups_cons,
          List.filter_filter]
        simp only [Bool.and_comm]
      · rw [List.filter_cons_of_neg ha, List.filter_cons_of_neg ha, hrest]
        refine congrArg List.eraseDups (List.filter_congr fun b _ => ?_)
        by_cases hb : b = a
        · rw [hb]
          simp [ha]
        · simp [hb]

/-- The repeats stay where they are under a map that keeps different elements of the list apart. -/
theorem map_eraseDups {f : α → β} {l : List α} (h : ∀ a ∈ l, ∀ b ∈ l, f a = f b → a = b) :
    (l.map f).eraseDups = l.eraseDups.map f := by
  induction hn : l.length using Nat.strongRecOn generalizing l with
  | _ n ih =>
    cases l with
    | nil => rfl
    | cons a l =>
      have hlength := List.length_filter_le (fun b => !b == a) l
      rw [List.length_cons] at hn
      have hinj : ∀ x ∈ l.filter (fun b => !b == a), ∀ y ∈ l.filter (fun b => !b == a), f x = f y → x = y := by
        intro x hx y hy
        exact h x (List.mem_cons_of_mem a (List.mem_of_mem_filter hx)) y
          (List.mem_cons_of_mem a (List.mem_of_mem_filter hy))
      have hfilter : (l.map f).filter (fun b => !b == f a) = (l.filter fun b => !b == a).map f := by
        rw [List.filter_map]
        refine congrArg (List.map f) (List.filter_congr fun b hb => ?_)
        rw [Function.comp_apply, Bool.not_inj_iff, Bool.eq_iff_iff, beq_iff_eq, beq_iff_eq]
        exact ⟨h b (List.mem_cons_of_mem a hb) a List.mem_cons_self, fun hba => by rw [hba]⟩
      rw [List.map_cons, List.eraseDups_cons, List.eraseDups_cons, List.map_cons, hfilter,
        ih _ (by omega) hinj rfl]

end Lists

/-! ## Graphs without their repeats -/

namespace Graph

variable {α : Type} [DecidableEq α]

/-- The graph with each edge listed once, where it was listed first. -/
def withoutRepeats (g : Graph α) : Graph α := ⟨g.edges.eraseDups⟩

/-- Without repeats among the edges a node has the same successors, each once, where it came first. Edges with one
source are told apart by their targets. -/
theorem successors_withoutRepeats (g : Graph α) (u : α) :
    g.withoutRepeats.successors u = (g.successors u).eraseDups := by
  rw [successors, successors, withoutRepeats, filter_eraseDups, map_eraseDups]
  intro e he e' he' htarget
  rw [List.mem_filter, decide_eq_true_eq] at he he'
  exact Prod.ext (he.2.trans he'.2.symm) htarget

end Graph

namespace Walk

variable {α : Type} [DecidableEq α] {g h : Graph α} {w w' v v' : Walk α} {u x y : α} {us seen roots : List α}

/-! ## Nodes visited before from the same place -/

/-- To visit the node again, from where the walk stands, will add nothing new. -/
def Passed (w : Walk α) (u : α) : Prop :=
  w.mark u = some .finished ∨ w.mark u = some .onPath ∧ ∀ c, w.cycleTo? u = some c → c ∈ w.cycles

/-- A cycle is looked up in the path alone. -/
theorem cycleTo?_congr (hpath : v.path = w.path) (u : α) : v.cycleTo? u = w.cycleTo? u := by
  unfold cycleTo?
  rw [hpath]

/-- A node that has been passed is so after other nodes have been visited from the same place: its mark stays, the
path is as it was, and no cycle is lost. -/
theorem Extends.passed (hw : w.Extends w') (hu : Passed w u) : Passed w' u := by
  rcases hu with hm | ⟨hm, hcycle⟩
  · exact .inl (hw.mark_eq u _ hm)
  · refine .inr ⟨hw.mark_eq u _ hm, fun c hc => ?_⟩
    rw [cycleTo?_congr hw.path_eq] at hc
    exact hw.cycles_prefix.subset (hcycle c hc)

/-- A node that has been visited is passed from then on. -/
theorem passed_visit (g : Graph α) (w : Walk α) (u : α) : Passed (visit g w u) u := by
  rw [visit_eq]
  split
  · rename_i hm
    exact .inl hm
  · rename_i hm
    refine .inr ⟨hm, fun c hc => ?_⟩
    have hc' : w.cycleTo? u = some c := hc
    rw [close, hc']
    exact List.mem_append_right _ (List.mem_singleton_self c)
  · refine .inl ?_
    simp only [leave, setMark, ↓reduceIte]

omit [DecidableEq α] in
/-- A node without a mark has not been met. -/
theorem Consistent.not_met (hw : w.Consistent) (hm : w.mark u = none) : ¬Met w u := by
  rw [← hw.isSome_mark_iff, hm]
  exact Bool.false_ne_true

/-! ## Two walks side by side -/

/-- The walks stand in the same place and have found the same, up to repeats of cycles. -/
structure Alike (w v : Walk α) : Prop where
  mark_eq : v.mark = w.mark
  path_eq : v.path = w.path
  sorted_eq : v.sorted = w.sorted
  cycles_eq : v.cycles.eraseDups = w.cycles.eraseDups

/-- Two walks in the same place enter a node together. -/
theorem Alike.enter (hv : w.Alike v) (u : α) : (w.enter u).Alike (v.enter u) := by
  refine ⟨?_, ?_, hv.sorted_eq, hv.cycles_eq⟩
  · unfold Walk.enter setMark
    rw [hv.mark_eq]
  · simp only [Walk.enter, hv.path_eq]

/-- Two walks in the same place leave a node together. -/
theorem Alike.leave (hv : w.Alike v) (u : α) : (w.leave u).Alike (v.leave u) := by
  refine ⟨?_, ?_, ?_, hv.cycles_eq⟩
  · unfold Walk.leave setMark
    rw [hv.mark_eq]
  · simp only [Walk.leave, hv.path_eq]
  · simp only [Walk.leave, hv.sorted_eq]

/-- Two walks in the same place close the same cycle. -/
theorem Alike.close (hv : w.Alike v) (u : α) : (w.close u).Alike (v.close u) := by
  refine ⟨hv.mark_eq, hv.path_eq, hv.sorted_eq, ?_⟩
  rw [Walk.close, Walk.close, cycleTo?_congr hv.path_eq]
  exact eraseDups_append_congr hv.cycles_eq _

/-- To close a cycle again is to close none. -/
theorem Alike.close_left (hv : w.Alike v) (hu : ∀ c, w.cycleTo? u = some c → c ∈ w.cycles) :
    (w.close u).Alike v := by
  refine ⟨hv.mark_eq, hv.path_eq, hv.sorted_eq, ?_⟩
  rw [hv.cycles_eq]
  refine (eraseDups_append_of_subset ?_).symm
  intro c hc
  exact hu c (Option.mem_toList.1 hc)

/-- What is left to visit, each node once, if the first one has not been visited. -/
theorem eraseDups_removeAll_cons (hu : u ∉ seen) :
    ((u :: us).removeAll seen).eraseDups = u :: (us.removeAll (u :: seen)).eraseDups := by
  have hkeep : (u :: us).removeAll seen = u :: us.removeAll seen := by
    simp only [List.removeAll, List.filter_cons, List.elem_eq_contains, List.contains_eq_mem, hu,
      decide_false, Bool.not_false, ↓reduceIte]
  have hrest : (us.removeAll seen).filter (fun x => !x == u) = us.removeAll (u :: seen) := by
    unfold List.removeAll
    rw [List.filter_filter]
    refine List.filter_congr fun x _ => ?_
    rw [List.elem_cons]
    cases hx : x == u <;> simp
  rw [hkeep, List.eraseDups_cons, hrest]

/-- A node that has been visited is not left to visit. -/
theorem removeAll_cons_of_mem (hu : u ∈ seen) : (u :: us).removeAll seen = us.removeAll seen := by
  simp only [List.removeAll, List.filter_cons, List.elem_eq_contains, List.contains_eq_mem, hu,
    decide_true, Bool.not_true, Bool.false_eq_true, ↓reduceIte]

/-- Beside a walk goes one through the graph without repeats, which visits each node once and not those that have
been visited before from the same place. -/
theorem Visits.alike (hh : ∀ u, h.successors u = (g.successors u).eraseDups) (hvisits : Visits g w us w')
    (hw : w.Consistent) (hv : w.Alike v) (hseen : ∀ x ∈ seen, Passed w x) :
    ∃ v', Visits h v (us.removeAll seen).eraseDups v' ∧ w'.Alike v' := by
  induction hvisits generalizing v seen with
  | nil w => exact ⟨v, .nil v, hv⟩
  | @finished w w' u us hm rest ih =>
    by_cases hu : u ∈ seen
    · rw [removeAll_cons_of_mem hu]
      exact ih hw hv hseen
    · have hpassed : ∀ x ∈ u :: seen, Passed w x := List.forall_mem_cons.2 ⟨.inl hm, hseen⟩
      obtain ⟨v', hrest, hv'⟩ := ih hw hv hpassed
      rw [eraseDups_removeAll_cons hu]
      exact ⟨v', .finished (hv.mark_eq ▸ hm) hrest, hv'⟩
  | @closes w w' u us hm rest ih =>
    have hvisit : Visits g w [u] (w.close u) := .closes hm (.nil _)
    have hclose : w.Extends (w.close u) := hvisit.extends hw
    have hpassed : ∀ x ∈ seen, Passed (w.close u) x := fun x hx => hclose.passed (hseen x hx)
    by_cases hu : u ∈ seen
    · -- the cycle has been recorded at the first visit
      have hrecorded : ∀ c, w.cycleTo? u = some c → c ∈ w.cycles := by
        rcases hseen u hu with hm' | ⟨-, hrecorded⟩
        · rw [hm] at hm'
          cases hm'
        · exact hrecorded
      rw [removeAll_cons_of_mem hu]
      exact ih hw.close (hv.close_left hrecorded) hpassed
    · have hu' : Passed (w.close u) u := by
        have hvisited := passed_visit g w u
        rw [visit_eq, hm] at hvisited
        exact hvisited
      obtain ⟨v', hrest, hv'⟩ := ih hw.close (hv.close u) (List.forall_mem_cons.2 ⟨hu', hpassed⟩)
      rw [eraseDups_removeAll_cons hu]
      exact ⟨v', .closes (hv.mark_eq ▸ hm) hrest, hv'⟩
  | @enters w below w' u us hm successors rest ihs ihr =>
    have hvisit : Visits g w [u] (below.leave u) := .enters hm successors (.nil _)
    have hleave : w.Extends (below.leave u) := hvisit.extends hw
    -- a node without a mark has not been visited
    have hu : u ∉ seen := by
      intro hu
      rcases hseen u hu with hm' | ⟨hm', -⟩
      · rw [hm] at hm'
        cases hm'
      · rw [hm] at hm'
        cases hm'
    obtain ⟨below', hsuccessors, hbelow⟩ :=
      ihs (hw.enter hm) (hv.enter u) (fun x hx => absurd hx List.not_mem_nil)
    have hpassed : ∀ x ∈ u :: seen, Passed (below.leave u) x := by
      refine List.forall_mem_cons.2 ⟨.inl ?_, fun x hx => hleave.passed (hseen x hx)⟩
      simp only [leave, setMark, ↓reduceIte]
    obtain ⟨v', hrest, hv'⟩ := ihr (hvisit.consistent hw) (hbelow.leave u) hpassed
    rw [eraseDups_removeAll_cons hu]
    rw [List.removeAll_nil, ← hh] at hsuccessors
    exact ⟨v', .enters (hv.mark_eq ▸ hm) hsuccessors hrest, hv'⟩

/-! ## Walks without repeats -/

/-- The last edge of the cycle that an edge to `u` closes leads to `u` from the last node of the path. -/
theorem suffix_of_cycleTo? {c : List α} (hc : w.cycleTo? u = some c) :
    ∃ x, w.path.getLast? = some x ∧ [x, u] <:+ c := by
  obtain ⟨-, below, rfl⟩ := cycleTo?_eq_some hc
  have hsuffix := dropLast_suffix_of_cycleTo? hc
  rw [← List.cons_append, List.dropLast_concat] at hsuffix
  obtain ⟨front, hfront⟩ := hsuffix
  obtain ⟨rest, x, hrest⟩ := List.eq_nil_or_concat (u :: below) |>.resolve_left (List.cons_ne_nil u below)
  rw [hrest] at hfront
  refine ⟨x, ?_, rest, ?_⟩
  · rw [← hfront, List.concat_eq_append, ← List.append_assoc, List.getLast?_concat]
  · rw [← List.cons_append, hrest, List.concat_eq_append, List.append_assoc]
    rfl

/-- Of the edges that have closed cycles, one more is the edge from the last node of the path to `u`. -/
theorem Closed.of_close (hclosed : Closed (w.close u) x y) :
    Closed w x y ∨ w.path.getLast? = some x ∧ y = u := by
  obtain ⟨c, hc, hxy⟩ := hclosed
  rw [close, List.mem_append] at hc
  rcases hc with hold | hnew
  · exact .inl ⟨c, hold, hxy⟩
  · obtain ⟨z, hz, hzu⟩ := suffix_of_cycleTo? (Option.mem_toList.1 hnew)
    have heq : [x, y] = [z, u] :=
      (List.suffix_of_suffix_length_le hxy hzu (Nat.le_refl 2)).eq_of_length rfl
    obtain ⟨rfl, hy⟩ := List.cons.inj heq
    exact .inr ⟨hz, (List.cons.inj hy).1⟩

/-- While nodes are visited, cycles are closed by edges to them from the last node of the path, and by edges out of
nodes that are entered meanwhile. -/
theorem Visits.of_closed (hvisits : Visits g w us w') (hw : w.Consistent) (hclosed : Closed w' x y) :
    Closed w x y ∨ w.path.getLast? = some x ∧ y ∈ us ∨ ¬Met w x := by
  induction hvisits with
  | nil w => exact .inl hclosed
  | finished _ _ ih =>
    exact (ih hw hclosed).imp_right (Or.imp_left (And.imp_right (List.mem_cons_of_mem _)))
  | @closes w w' u us hm rest ih =>
    rcases ih hw.close hclosed with hbefore | ⟨hx, hy⟩ | hx
    · refine hbefore.of_close.imp_right fun ⟨hx, hy⟩ => .inl ⟨hx, ?_⟩
      rw [hy]
      exact List.mem_cons_self
    · exact .inr (.inl ⟨hx, List.mem_cons_of_mem u hy⟩)
    · exact .inr (.inr hx)
  | @enters w below w' u us hm successors rest ihs ihr =>
    have hvisit : Visits g w [u] (below.leave u) := .enters hm successors (.nil _)
    rcases ihr (hvisit.consistent hw) hclosed with hbefore | ⟨hx, hy⟩ | hx
    · rcases ihs (hw.enter hm) hbefore with hstart | ⟨hx, -⟩ | hx
      · exact .inl hstart
      · obtain rfl : u = x := Option.some.inj (List.getLast?_concat.symm.trans hx)
        exact .inr (.inr (hw.not_met hm))
      · exact .inr (.inr fun hmet => hx (hmet.imp_right (List.mem_append_left _)))
    · rw [successors.path_leave] at hx
      exact .inr (.inl ⟨hx, List.mem_cons_of_mem u hy⟩)
    · exact .inr (.inr fun hmet => hx (hvisit.met_mono hmet))

/-- Where no node has a successor twice, a visit records no cycle twice, if none of the nodes to be visited has
closed one from where the walk stands. -/
theorem Visits.cycles_nodup (hg : ∀ u, (g.successors u).Nodup) (hvisits : Visits g w us w') (hw : w.Consistent)
    (htraced : Traced w) (hus : us.Nodup)
    (hopen : ∀ x, w.path.getLast? = some x → ∀ u ∈ us, ¬Closed w x u) (hnodup : w.cycles.Nodup) :
    w'.cycles.Nodup := by
  induction hvisits with
  | nil w => exact hnodup
  | finished _ _ ih =>
    exact ih hw htraced hus.of_cons (fun x hx => (List.forall_mem_cons.1 (hopen x hx)).2) hnodup
  | @closes w w' u us hm rest ih =>
    obtain ⟨hu, hus⟩ := List.nodup_cons.1 hus
    apply ih hw.close (htraced.close hw hm) hus
    · intro x hx v hv hclosed
      rcases hclosed.of_close with hbefore | ⟨-, rfl⟩
      · exact hopen x hx v (List.mem_cons_of_mem u hv) hbefore
      · exact hu hv
    · cases hc : w.cycleTo? u with
      | none =>
        rw [close, hc, Option.toList_none, List.append_nil]
        exact hnodup
      | some c =>
        -- its last edge has closed no cycle before
        obtain ⟨x, hx, hxu⟩ := suffix_of_cycleTo? hc
        rw [close, hc, Option.toList_some]
        refine nodup_append_singleton.2 ⟨fun hmem => ?_, hnodup⟩
        exact hopen x hx u List.mem_cons_self ⟨c, hmem, hxu⟩
  | @enters w below w' u us hm successors rest ihs ihr =>
    obtain ⟨hu, hus⟩ := List.nodup_cons.1 hus
    have hvisit : Visits g w [u] (below.leave u) := .enters hm successors (.nil _)
    have hbelow : below.cycles.Nodup := by
      apply ihs (hw.enter hm) (htraced.enter u) (hg u) _ hnodup
      -- a node without a mark is on no recorded cycle
      rintro x hx v - ⟨c, hc, hxv⟩
      obtain rfl : u = x := Option.some.inj (List.getLast?_concat.symm.trans hx)
      exact hw.not_met hm ((htraced c hc).2 u (hxv.subset List.mem_cons_self))
    apply ihr (hvisit.consistent hw) (hvisit.traced hw htraced) hus _ hbelow
    intro x hx v hv hclosed
    rw [successors.path_leave] at hx
    rcases hvisit.of_closed hw hclosed with hbefore | ⟨-, hvu⟩ | hmet
    · exact hopen x hx v (List.mem_cons_of_mem u hv) hbefore
    · rw [List.mem_singleton.1 hvu] at hv
      exact hu hv
    · exact hmet (.inr (List.mem_of_getLast? hx))

/-! ## The whole walk -/

/-- There is one way to visit nodes. -/
theorem Visits.eq_visitAll (hvisits : Visits g w us w') : w' = visitAll g w us := by
  have hcons : ∀ (w : Walk α) (u : α) (us : List α), visitAll g w (u :: us) = visitAll g (visit g w u) us :=
    fun _ _ _ => rfl
  induction hvisits with
  | nil w => rfl
  | finished hm _ ih => rw [ih, hcons, visit_eq, hm]
  | closes hm _ ih => rw [ih, hcons, visit_eq, hm]
  | enters hm _ _ ihs ihr => rw [ihr, hcons, visit_eq, hm, ihs]

/-- The walk and the one through the graph without repeats stand in the same place at the end. -/
theorem alike_explore (g : Graph α) (roots : List α) :
    (g.explore roots).Alike (g.withoutRepeats.explore roots.eraseDups) := by
  have hstart : (start : Walk α).Alike start := ⟨rfl, rfl, rfl, rfl⟩
  obtain ⟨v, hvisits, hv⟩ := (visits_explore g roots).alike g.successors_withoutRepeats consistent_start
    hstart (fun x hx => absurd hx List.not_mem_nil)
  rw [List.removeAll_nil] at hvisits
  have hexplore : v = g.withoutRepeats.explore roots.eraseDups := hvisits.eq_visitAll
  rw [← hexplore]
  exact hv

/-- No cycle is recorded twice where no node has a successor twice and no root is given twice. -/
theorem nodup_cycles_explore {g : Graph α} (hg : ∀ u, (g.successors u).Nodup) {roots : List α}
    (hroots : roots.Nodup) : (g.explore roots).cycles.Nodup := by
  apply (visits_explore g roots).cycles_nodup hg consistent_start _ hroots
  · intro x hx
    cases hx
  · exact List.nodup_nil
  · exact fun c hc => absurd hc List.not_mem_nil

end Walk

namespace Graph

/-- Without repeats among edges and roots, a walk lists the same nodes in the same order, and it records the same
cycles, each once, where it was recorded first. -/
theorem explore_withoutRepeats {α : Type} [DecidableEq α] (g : Graph α) (roots : List α) :
    (g.withoutRepeats.explore roots.eraseDups).sorted = (g.explore roots).sorted ∧
      (g.withoutRepeats.explore roots.eraseDups).cycles = (g.explore roots).cycles.eraseDups := by
  have halike := Walk.alike_explore g roots
  have hnodup : (g.withoutRepeats.explore roots.eraseDups).cycles.Nodup := by
    refine Walk.nodup_cycles_explore (fun u => ?_) (nodup_eraseDups roots)
    rw [successors_withoutRepeats]
    exact nodup_eraseDups _
  refine ⟨halike.sorted_eq, ?_⟩
  rw [← halike.cycles_eq, eraseDups_of_nodup hnodup]

end Graph

end UtteranceGrammar
