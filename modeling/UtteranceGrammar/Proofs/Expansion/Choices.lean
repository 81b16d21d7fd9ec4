/-
The texts of a sequence as choices from its alternations.

A sequence is expanded from the left, two parts at a time, and what has been put together is never left out again.
So it is not plain to see what becomes of a chain of parts that may be left out. It is this: one text for each way
of taking from every alternation one of its texts or, if it may be left out, nothing
(`Variants.perm_followedByAll`). The texts taken are joined by single spaces, with one exception. Where the first
two alternations are left out, an empty text stands for both, and it is joined by a space to whatever comes next.

The step that carries the induction is one part more: each text so far goes on with every text of the part, and
stays as it is if the part may be left out (`Variants.perm_followedBy`). The order of the texts is another matter.
The empty choices come last, part by part and not choice by choice, so only without them are the texts in the
order of the choices.
-/
import Mathlib.Algebra.Group.Nat.Defs
import Mathlib.Data.List.Induction
import Mathlib.Data.List.Perm.Basic
import Mathlib.Data.List.ReduceOption
import UtteranceGrammar.Proofs.Expansion.Faults

set_option autoImplicit false

namespace UtteranceGrammar

/-! ## Selections -/

section Selections

variable {α : Type}

/-- All ways of taking one element from each list, in lexicographic order: what is taken from the first list
changes slowest. -/
def selections : List (List α) → List (List α)
  | [] => [[]]
  | xs :: xss => xs.flatMap fun x => (selections xss).map (x :: ·)

/-- There are as many selections as the product of the lengths says. -/
theorem length_selections (xss : List (List α)) :
    (selections xss).length = (xss.map List.length).prod := by
  induction xss with
  | nil => rfl
  | cons xs xss ih =>
    simp only [selections, List.length_flatMap, List.length_map, ih, List.map_cons, List.prod_cons,
      List.map_const', List.sum_replicate_nat]

/-- What is taken from the last list changes fastest. -/
theorem selections_concat (xss : List (List α)) (xs : List α) :
    selections (xss ++ [xs]) = (selections xss).flatMap fun s => xs.map fun x => s ++ [x] := by
  induction xss with
  | nil => simp [selections, List.map_eq_flatMap]
  | cons ys xss ih =>
    simp only [List.cons_append, selections, ih, List.map_flatMap, List.flatMap_assoc, List.flatMap_map,
      List.map_map, Function.comp_def]

/-- From a single list each of its elements can be taken. -/
theorem selections_singleton (xs : List α) : selections [xs] = xs.map fun x => [x] := by
  rw [List.map_eq_flatMap]
  rfl

/-- From two lists each element of the first can be taken with each of the second. -/
theorem selections_pair (xs ys : List α) :
    selections [xs, ys] = xs.flatMap fun x => ys.map fun y => [x, y] := by
  rw [selections, selections_singleton]
  simp only [List.map_map, Function.comp_def]

/-- A selection has one element for each list. -/
theorem length_of_mem_selections {xss : List (List α)} {s : List α} (hs : s ∈ selections xss) :
    s.length = xss.length := by
  induction xss generalizing s with
  | nil =>
    obtain rfl := List.mem_singleton.1 hs
    rfl
  | cons xs xss ih =>
    obtain ⟨x, -, hs⟩ := List.mem_flatMap.1 hs
    obtain ⟨t, ht, rfl⟩ := List.mem_map.1 hs
    rw [List.length_cons, List.length_cons, ih ht]

end Selections

/-! ## Joined texts -/

/-- The space in front of a choice that leaves out the first two parts and a later one not. -/
def lead : List (Option Text) → Text
  | none :: none :: later => if later.all Option.isNone then [] else [' ']
  | _ => []

/-- The texts of a choice, joined by spaces. -/
def joined (choice : List (Option Text)) : Text := lead choice ++ [' '].intercalate choice.reduceOption

/-- One text more at the end is set off by one separator more. -/
theorem intercalate_concat (c : Char) {ps : List Text} (hps : ps ≠ []) (p : Text) :
    [c].intercalate (ps ++ [p]) = [c].intercalate ps ++ c :: p := by
  induction ps with
  | nil => exact absurd rfl hps
  | cons q ps ih =>
    cases ps with
    | nil => simp [List.intercalate_cons_cons]
    | cons r ps =>
      rw [List.cons_append, List.cons_append, List.intercalate_cons_cons, List.intercalate_cons_cons,
        ← List.cons_append, ih (List.cons_ne_nil _ _)]
      simp only [List.append_assoc]

/-- Once two parts are decided on, the space in front depends on a later one only if nothing has been taken. -/
theorem lead_concat {choice : List (Option Text)} (hlength : 2 ≤ choice.length)
    (htaken : choice.reduceOption ≠ []) (c : Option Text) : lead (choice ++ [c]) = lead choice := by
  match choice, hlength with
  | none :: none :: later, _ =>
    have hlater : later.all Option.isNone = false := by
      rw [Bool.eq_false_iff]
      intro hall
      exact htaken (List.filterMap_eq_nil_iff.2 (by simpa using hall))
    simp [lead, List.all_append, hlater]
  | none :: some _ :: _, _ => rfl
  | some _ :: _ :: _, _ => rfl

/-- Where all is left out there is no text, and no space for it either. -/
theorem joined_replicate_none (n : Nat) : joined (List.replicate n none) = [] := by
  match n with
  | 0 => rfl
  | 1 => rfl
  | n + 2 => simp [joined, lead, List.replicate_succ, List.reduceOption_replicate_none]

/-- What is left out changes nothing. -/
theorem joined_concat_none {choice : List (Option Text)} (hlength : 2 ≤ choice.length) :
    joined (choice ++ [none]) = joined choice := by
  by_cases htaken : choice.reduceOption = []
  · obtain ⟨n, rfl⟩ := (List.reduceOption_eq_nil_iff choice).1 htaken
    rw [← List.replicate_succ', joined_replicate_none, joined_replicate_none]
  · rw [joined, lead_concat hlength htaken, List.reduceOption_append, joined]
    simp

/-- A text taken from a part behind two others is joined by a space, also if nothing has been taken before. -/
theorem joined_concat_some {choice : List (Option Text)} (hlength : 2 ≤ choice.length) (x : Text) :
    joined (choice ++ [some x]) = Variants.spaced (joined choice) x := by
  by_cases htaken : choice.reduceOption = []
  · obtain ⟨n, rfl⟩ := (List.reduceOption_eq_nil_iff choice).1 htaken
    match n, hlength with
    | n + 2, _ =>
      rw [joined_replicate_none]
      simp [joined, lead, List.replicate_succ, List.reduceOption_append, Variants.spaced]
  · have hconcat : (choice ++ [some x]).reduceOption = choice.reduceOption ++ [x] := by
      rw [List.reduceOption_append]
      rfl
    rw [joined, lead_concat hlength htaken, hconcat, intercalate_concat ' ' htaken, joined,
      Variants.spaced, List.append_assoc]

/-- Two texts that are both taken are joined by a space. -/
theorem joined_pair (x y : Text) : joined [some x, some y] = Variants.spaced x y := by
  simp [joined, lead, Variants.spaced, List.intercalate_cons_cons]

/-! ## Parts in a row -/

namespace Variants

/-- What can be taken from a part: one of its texts, or nothing if it may be left out. -/
def choices (v : Variants) : List (Option Text) :=
  v.texts.map some ++ if v.optional then [none] else []

/-- There is one choice for each text, and one more if the part may be left out. -/
theorem length_choices (v : Variants) :
    v.choices.length = v.texts.length + if v.optional then 1 else 0 := by
  rw [choices, List.length_append, List.length_map]
  cases v.optional <;> rfl

/-- Something is made of each text, and of what is left if the part may be left out. -/
theorem map_choices (v : Variants) (f : Option Text → Text) :
    v.choices.map f = (v.texts.map fun x => f (some x)) ++ if v.optional then [f none] else [] := by
  rw [choices, List.map_append, List.map_map]
  cases v.optional <;> rfl

/-- What becomes of a text when a part follows it. -/
def continuations (r : Variants) (t : Text) : List Text :=
  r.texts.map (spaced t) ++ if r.optional then [t] else []

/-- To keep or to drop each element of a list is to keep or to drop the list. -/
theorem flatMap_singleton_ite (ts : List Text) (c : Bool) :
    (ts.flatMap fun t => if c then [t] else []) = if c then ts else [] := by
  cases c <;> simp

/-- What becomes of some texts when a part follows them is all pairs, and the texts themselves if the part may be
left out. The order is another one, with the pairs together. -/
theorem perm_continuations (ts : List Text) (r : Variants) :
    (ts.flatMap r.continuations).Perm (pairs ts r.texts ++ if r.optional then ts else []) := by
  have hsplit := List.flatMap_append_perm ts (fun t => r.texts.map (spaced t))
    fun t => if r.optional then [t] else []
  rw [flatMap_singleton_ite] at hsplit
  exact hsplit.symm

/-- **One part more.** Every text of a part that is not left out goes on with each text of the next one, or stays
as it is if the next one may be left out. -/
theorem perm_followedBy {l : Variants} (hl : l.optional = false) (r : Variants) :
    (l.followedBy r).texts.Perm (l.texts.flatMap r.continuations) := by
  simp only [followedBy, hl, Bool.false_and, Bool.false_eq_true, if_false, List.nil_append, List.append_nil]
  exact (perm_continuations l.texts r).symm

/-- The first two parts have a text for each choice from them. -/
theorem perm_followedBy_of_first (l r : Variants) :
    (l.followedBy r).texts.Perm ((selections [l.choices, r.choices]).map joined) := by
  have hselections : (selections [l.choices, r.choices]).map joined
      = l.choices.flatMap fun a => r.choices.map fun b => joined [a, b] := by
    simp only [selections_pair, List.map_flatMap, List.map_map, Function.comp_def]
  have hchoices : l.choices = l.texts.map some ++ if l.optional then [none] else [] := rfl
  have htaken : ∀ x, (r.choices.map fun b => joined [some x, b]) = r.continuations x := by
    intro x
    rw [map_choices, continuations, List.map_congr_left fun y _ => joined_pair x y]
    simp [joined, lead]
  have hleft : (r.choices.map fun b => joined [none, b])
      = r.texts ++ if r.optional then [[]] else [] := by
    rw [map_choices]
    simp [joined, lead]
  rw [hselections, hchoices, List.flatMap_append, List.flatMap_map]
  simp only [htaken]
  cases hl : l.optional with
  | false =>
    rw [if_neg Bool.false_ne_true, List.flatMap_nil, List.append_nil]
    exact perm_followedBy hl r
  | true =>
    rw [if_pos rfl, List.flatMap_singleton, hleft]
    simp only [followedBy, hl, Bool.true_and, if_true]
    -- what leaves out the first part stands before what leaves out the second one
    refine .trans ?_ ((perm_continuations l.texts r).symm.append_right _)
    rw [List.append_assoc]
    exact (List.perm_append_comm_assoc _ _ _).append_left _

/-- The last of the parts that follow is joined last. -/
theorem followedByAll_concat (v : Variants) (vs : List Variants) (r : Variants) :
    v.followedByAll (vs ++ [r]) = (v.followedByAll vs).followedBy r := by
  rw [followedByAll, List.foldl_append]
  rfl

/-- What has been put together is not left out again. -/
theorem optional_followedByAll (v w : Variants) (vs : List Variants) :
    (v.followedByAll (w :: vs)).optional = false := by
  induction vs using List.reverseRecOn with
  | nil => rfl
  | append_singleton vs r _ =>
    rw [← List.cons_append, followedByAll_concat]
    rfl

/-- Two parts and more have a text for each choice from all of them. -/
theorem perm_followedByAll (v w : Variants) (vs : List Variants) :
    (v.followedByAll (w :: vs)).texts.Perm
      ((selections ((v :: w :: vs).map choices)).map joined) := by
  induction vs using List.reverseRecOn with
  | nil => exact perm_followedBy_of_first v w
  | append_singleton vs r ih =>
    have hstep : ∀ s ∈ selections ((v :: w :: vs).map choices),
        (r.choices.map fun c => joined (s ++ [c])) = r.continuations (joined s) := by
      intro s hs
      have hlength : 2 ≤ s.length := by
        rw [length_of_mem_selections hs, List.length_map, List.length_cons, List.length_cons]
        omega
      rw [map_choices, continuations, joined_concat_none hlength,
        List.map_congr_left fun x _ => joined_concat_some hlength x]
    have hselections : (selections ((v :: (w :: vs ++ [r])).map choices)).map joined
        = ((selections ((v :: w :: vs).map choices)).map joined).flatMap r.continuations := by
      rw [← List.cons_append, List.map_append, List.map_singleton, selections_concat,
        List.map_flatMap, List.flatMap_map]
      refine List.flatMap_congr fun s hs => ?_
      rw [← hstep s hs, List.map_map]
      rfl
    rw [← List.cons_append, followedByAll_concat, hselections]
    exact (perm_followedBy (optional_followedByAll v w vs) r).trans (ih.flatMap_right _)

/-- If no part may be left out, the texts stand in the order of the choices. -/
theorem texts_followedByAll {v : Variants} {vs : List Variants} (hv : v.optional = false)
    (hvs : ∀ w ∈ vs, w.optional = false) :
    (v.followedByAll vs).texts = (selections ((v :: vs).map texts)).map [' '].intercalate := by
  induction vs using List.reverseRecOn with
  | nil =>
    rw [List.map_singleton, selections_singleton, List.map_map]
    refine ((List.map_congr_left fun x _ => ?_).trans (List.map_id v.texts)).symm
    exact List.intercalate_singleton
  | append_singleton vs r ih =>
    rw [List.forall_mem_append, List.forall_mem_singleton] at hvs
    have hfirst : (v.followedByAll vs).optional = false := by
      cases vs with
      | nil => exact hv
      | cons w vs => exact optional_followedByAll v w vs
    have hpairs : ((v.followedByAll vs).followedBy r).texts = pairs (v.followedByAll vs).texts r.texts := by
      simp [followedBy, hfirst, hvs.2]
    rw [followedByAll_concat, hpairs, ih hvs.1, pairs, List.flatMap_map, ← List.cons_append,
      List.map_append, List.map_singleton, selections_concat, List.map_flatMap]
    refine List.flatMap_congr fun s hs => ?_
    have hne : s ≠ [] := by
      rw [← List.length_pos_iff, length_of_mem_selections hs, List.map_cons, List.length_cons]
      omega
    rw [List.map_map]
    exact List.map_congr_left fun x _ => (intercalate_concat ' ' hne x).symm

end Variants

end UtteranceGrammar
