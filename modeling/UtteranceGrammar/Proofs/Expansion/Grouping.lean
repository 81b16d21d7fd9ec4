/-
Parentheses that change nothing.

A sequence is put together from the left, two parts at a time, and only a part that has not been put together
yet can be left out. So it matters where parentheses stand: `a, (b?, c?)` has texts that `a, b?, c?` has not.
`Sequence.Parenthesizes` lists the places where they make no difference, and `Sequence.expand_parenthesized` says
that they make none: the texts are the same, as often and in the same order, or the fault is the same.

At the front of a sequence there is little to prove, since two parts or more that stand there are put together
before anything else is. Further behind the parts have to be put together in another order, and this is where all
depends on the marks. If neither of two parts may be left out, the one in front of them may well be: what arises
from leaving it out is then the pairs of the two, on either way (`Part.followedBy_assoc`). In an alternation the
texts of terms are listed one after the other, and there is nothing to put together.
-/
import UtteranceGrammar.Proofs.Expansion.Replacement

set_option autoImplicit false

namespace UtteranceGrammar

/-- The second sequence is the first one with one more pair of parentheses, at any depth. -/
inductive Sequence.Parenthesizes : Sequence → Sequence → Prop where
  /-- Around two or more alternations at the front. -/
  | front (run behind : Sequence) (hrun : 2 ≤ run.length) :
    Parenthesizes (run ++ behind) ([.group run false] :: behind)
  /-- Around alternations none of which may be left out. -/
  | required (before run behind : Sequence) (hrun : run ≠ [])
    (hrequired : ∀ g ∈ run, Alternation.isOptional g = false) :
    Parenthesizes (before ++ (run ++ behind)) (before ++ [.group run false] :: behind)
  /-- Around two or more terms of an alternation. -/
  | terms (before : Sequence) (ts run us : Alternation) (behind : Sequence) (hrun : 2 ≤ run.length) :
    Parenthesizes (before ++ (ts ++ (run ++ us)) :: behind)
      (before ++ (ts ++ .group [run] false :: us) :: behind)
  /-- Somewhere in a group. -/
  | inside {body body' : Sequence} (h : Parenthesizes body body') (optional : Bool) (before : Sequence)
    (ts us : Alternation) (behind : Sequence) :
    Parenthesizes (before ++ (ts ++ .group body optional :: us) :: behind)
      (before ++ (ts ++ .group body' optional :: us) :: behind)

/-! ## Parts put together beforehand -/

namespace Part

variable {α : Type} {I : Interpretation α}

/-- Where neither of two parts may be left out, it makes no difference whether they are put together with what
stands in front of them one after the other or both at once. -/
theorem followedBy_assoc (hspaced : ∀ x y z, I.spaced (I.spaced x y) z = I.spaced x (I.spaced y z))
    (p : Part α) {q r : Part α} (hq : q.optional = false) (hr : r.optional = false) :
    (p.followedBy I q).followedBy I r = p.followedBy I (q.followedBy I r) := by
  have hpairs : ∀ xs : List α,
      ((xs.flatMap fun x => q.results.map (I.spaced x)).flatMap fun y => r.results.map (I.spaced y)) =
        xs.flatMap fun x =>
          (q.results.flatMap fun y => r.results.map (I.spaced y)).map (I.spaced x) := by
    intro xs
    have hjoined : ∀ x y, I.spaced (I.spaced x y) = fun z => I.spaced x (I.spaced y z) :=
      fun x y => funext (hspaced x y)
    simp only [List.flatMap_assoc, List.flatMap_map, List.map_flatMap, List.map_map, Function.comp_def,
      hjoined]
  cases hp : p.optional with
  | false =>
    simp only [followedBy, hp, hq, hr, Bool.false_and, Bool.false_eq_true, if_false, List.append_nil, hpairs]
  | true =>
    -- what leaves out `p` is the texts of `q` on the left and their pairs with those of `r` on the right
    simp only [followedBy, hp, hq, hr, Bool.and_false, Bool.false_eq_true, if_false, if_true,
      List.append_nil, List.flatMap_append, hpairs]

/-- Parts put together, as one part that may not be left out. -/
def enclosed (I : Interpretation α) (ps : List (Part α)) : Part α := ⟨inSequence I ps, false⟩

/-- Folding further parts onto a first one puts them all together as one part, unless that first part stands alone
and may be left out. -/
theorem foldl_eq_enclosed {p : Part α} {ps : List (Part α)} (h : ps ≠ [] ∨ p.optional = false) :
    ps.foldl (followedBy I) p = enclosed I (p :: ps) := by
  rw [enclosed, inSequence, ← optional_foldl I h]

/-- Parts that may not be left out can be put together before they follow another part. -/
theorem foldl_followedBy (hspaced : ∀ x y z, I.spaced (I.spaced x y) z = I.spaced x (I.spaced y z))
    (p : Part α) {q : Part α} {qs : List (Part α)} (hq : q.optional = false)
    (hqs : ∀ r ∈ qs, r.optional = false) :
    (q :: qs).foldl (followedBy I) p = p.followedBy I (enclosed I (q :: qs)) := by
  induction qs using List.reverseRecOn with
  | nil =>
    rw [← foldl_eq_enclosed (.inr hq)]
    rfl
  | append_singleton qs r ih =>
    rw [List.forall_mem_append, List.forall_mem_singleton] at hqs
    have hfront : (enclosed I (q :: qs)).followedBy I r = enclosed I (q :: (qs ++ [r])) := by
      rw [← foldl_eq_enclosed (.inr hq), ← foldl_eq_enclosed (.inr hq), List.foldl_append]
      rfl
    calc (q :: (qs ++ [r])).foldl (followedBy I) p
        = ((q :: qs).foldl (followedBy I) p).followedBy I r := by
          rw [← List.cons_append, List.foldl_append]
          rfl
      _ = (p.followedBy I (enclosed I (q :: qs))).followedBy I r := by rw [ih hqs.1]
      _ = p.followedBy I ((enclosed I (q :: qs)).followedBy I r) := followedBy_assoc hspaced p rfl hqs.2
      _ = p.followedBy I (enclosed I (q :: (qs ++ [r]))) := by rw [hfront]

/-- Parts at the front may be put together first, unless it is a single one that may be left out. -/
theorem inSequence_append {p : Part α} {ps : List (Part α)} (h : ps ≠ [] ∨ p.optional = false)
    (rs : List (Part α)) : inSequence I (p :: ps ++ rs) = inSequence I (enclosed I (p :: ps) :: rs) := by
  rw [List.cons_append, inSequence, inSequence, List.foldl_append, foldl_eq_enclosed h]

/-- Parts none of which may be left out may be put together first wherever they stand. -/
theorem inSequence_required
    (hspaced : ∀ x y z, I.spaced (I.spaced x y) z = I.spaced x (I.spaced y z)) (before : List (Part α))
    {run : List (Part α)} (hrun : run ≠ []) (hrequired : ∀ p ∈ run, p.optional = false)
    (behind : List (Part α)) :
    inSequence I (before ++ (run ++ behind)) = inSequence I (before ++ enclosed I run :: behind) := by
  obtain ⟨q, qs, rfl⟩ := List.exists_cons_of_ne_nil hrun
  rw [List.forall_mem_cons] at hrequired
  cases before with
  | nil => exact inSequence_append (.inr hrequired.1) behind
  | cons p ps =>
    show ((ps ++ (q :: qs ++ behind)).foldl (followedBy I) p).results =
      ((ps ++ enclosed I (q :: qs) :: behind).foldl (followedBy I) p).results
    rw [List.foldl_append, List.foldl_append, List.foldl_append,
      foldl_followedBy hspaced _ hrequired.1 hrequired.2, List.foldl_cons]

end Part

/-- Marked texts are joined by appending, which is associative. -/
theorem Interpretation.marked_spaced_assoc (x y z : Text) :
    marked.spaced (marked.spaced x y) z = marked.spaced x (marked.spaced y z) :=
  List.append_assoc x (' ' :: y) (' ' :: z)

/-! ## Patterns one after the other -/

section Append

variable {α : Type} (I : Interpretation α) (table : Name → List α)

/-- The results of terms one after the other. -/
theorem Alternation.evaluate_append (ts us : List Term) :
    Alternation.evaluate I table (ts ++ us) =
      Alternation.evaluate I table ts ++ Alternation.evaluate I table us := by
  induction ts with
  | nil => rfl
  | cons t ts ih => rw [List.cons_append, evaluate, evaluate, ih, List.append_assoc]

/-- The parts of patterns one after the other. -/
theorem Sequence.parts_append (gs hs : List (List Term)) :
    Sequence.parts I table (gs ++ hs) = Sequence.parts I table gs ++ Sequence.parts I table hs := by
  induction gs with
  | nil => rfl
  | cons g gs ih => rw [List.cons_append, parts, parts, ih, List.cons_append]

/-- A sequence in parentheses is one part. -/
theorem Sequence.parts_group (run behind : Sequence) :
    Sequence.parts I table ([.group run false] :: behind) =
      Part.enclosed I (Sequence.parts I table run) :: Sequence.parts I table behind := by
  rw [parts, Alternation.evaluate, Alternation.evaluate, List.append_nil, Term.evaluate]
  rfl

/-- A pattern without marks on its alternations has no part that may be left out. -/
theorem Sequence.required_of_mem_parts {gs : List (List Term)}
    (h : ∀ g ∈ gs, Alternation.isOptional g = false) :
    ∀ p ∈ Sequence.parts I table gs, p.optional = false := by
  induction gs with
  | nil => exact fun p hp => absurd hp List.not_mem_nil
  | cons g gs ih =>
    rw [List.forall_mem_cons] at h
    rw [parts, List.forall_mem_cons]
    exact ⟨h.1, ih h.2⟩

variable (lookup : Lookup) (rule : Name)

/-- The faults of terms one after the other. -/
theorem Alternation.faultsWithin_append (ts us : List Term) :
    Alternation.faultsWithin lookup rule (ts ++ us) =
      Alternation.faultsWithin lookup rule ts ++ Alternation.faultsWithin lookup rule us := by
  induction ts with
  | nil => rfl
  | cons t ts ih => rw [List.cons_append, faultsWithin, faultsWithin, ih, List.append_assoc]

/-- The faults of patterns one after the other. -/
theorem Sequence.faultsWithin_append (gs hs : List (List Term)) :
    Sequence.faultsWithin lookup rule (gs ++ hs) =
      Sequence.faultsWithin lookup rule gs ++ Sequence.faultsWithin lookup rule hs := by
  induction gs with
  | nil => rfl
  | cons g gs ih =>
    rw [List.cons_append, faultsWithin, faultsWithin, ih]
    simp only [List.append_assoc]

theorem faultOfNone_of_ne_nil {β : Type} {parts : List β} (h : parts ≠ []) :
    faultOfNone rule parts = [] :=
  faultOfNone_eq_nil_iff.2 (List.isEmpty_eq_false_iff.2 h)

/-- A sequence in parentheses has the faults that it has without them. -/
theorem Sequence.faultsWithin_group {run : Sequence} (hrun : run ≠ []) (behind : Sequence) :
    Sequence.faultsWithin lookup rule ([.group run false] :: behind) =
      Sequence.faultsWithin lookup rule (run ++ behind) := by
  rw [faultsWithin, faultsWithin_append, Alternation.faultsWithin, Alternation.faultsWithin,
    List.append_nil, Term.faults, faultOfNone_of_ne_nil rule hrun, List.append_nil,
    faultOfNone_of_ne_nil rule (List.cons_ne_nil _ _), List.append_nil]

end Append

/-! ## Where parentheses change nothing -/

namespace Sequence

variable (lookup : Lookup) (rule : Name)

/-- Two sequences with the same faults and, over marked texts, the same results are expanded alike. -/
theorem expand_eq_of {gs gs' : Sequence} (hfaults : faults lookup rule gs = faults lookup rule gs')
    (hevaluate : evaluate .marked lookup.table gs = evaluate .marked lookup.table gs') :
    expand lookup rule gs = expand lookup rule gs' := by
  rw [expand_eq, expand_eq, hfaults, hevaluate]

/-- A run in parentheses, between other alternations, has the faults that it has without them. -/
theorem faults_group (before : Sequence) {run : Sequence} (hrun : run ≠ []) (behind : Sequence) :
    faults lookup rule (before ++ (run ++ behind)) =
      faults lookup rule (before ++ [.group run false] :: behind) := by
  have hne : before ++ (run ++ behind) ≠ [] := by simp [hrun]
  rw [faults, faults, faultsWithin_append lookup rule before, faultsWithin_append lookup rule before,
    faultsWithin_group lookup rule hrun, faultOfNone_of_ne_nil rule hne,
    faultOfNone_of_ne_nil rule (by simp)]

/-- Parentheses around two or more alternations at the front change nothing. -/
theorem expand_front {run : Sequence} (hrun : 2 ≤ run.length) (behind : Sequence) :
    expand lookup rule (run ++ behind) = expand lookup rule ([.group run false] :: behind) := by
  rcases run with _ | ⟨g, _ | ⟨h, run⟩⟩
  · simp at hrun
  · simp at hrun
  · apply expand_eq_of
    · exact faults_group lookup rule [] (List.cons_ne_nil g (h :: run)) behind
    · rw [evaluate, evaluate, parts_append, parts_group]
      exact Part.inSequence_append (.inl (List.cons_ne_nil _ _)) _

/-- Parentheses around alternations none of which may be left out change nothing, wherever they stand. -/
theorem expand_required (before : Sequence) {run : Sequence} (hrun : run ≠ [])
    (hrequired : ∀ g ∈ run, Alternation.isOptional g = false) (behind : Sequence) :
    expand lookup rule (before ++ (run ++ behind)) =
      expand lookup rule (before ++ [.group run false] :: behind) := by
  apply expand_eq_of
  · exact faults_group lookup rule before hrun behind
  · rw [evaluate, evaluate, parts_append, parts_append, parts_append, parts_group]
    exact Part.inSequence_required Interpretation.marked_spaced_assoc _ (parts_ne_nil hrun)
      (required_of_mem_parts _ _ hrequired) _

/-- Only a single term is asked for its mark. -/
theorem isOptional_terms {run : Alternation} (hrun : 2 ≤ run.length) (ts us : Alternation) :
    Alternation.isOptional (ts ++ (run ++ us)) = false ∧
      Alternation.isOptional (ts ++ .group [run] false :: us) = false := by
  have hlong : ∀ xs : Alternation, 2 ≤ xs.length → Alternation.isOptional xs = false := by
    intro xs hxs
    match xs, hxs with
    | _ :: _ :: _, _ => rfl
  refine ⟨hlong _ (by simp only [List.length_append]; omega), ?_⟩
  rcases ts with _ | ⟨t, ts⟩
  · cases us with
    | nil => rfl
    | cons u us => rfl
  · exact hlong _ (by simp only [List.cons_append, List.length_cons, List.length_append]; omega)

/-- Parentheses around two or more terms of an alternation change nothing. -/
theorem expand_terms (before : Sequence) (ts : Alternation) {run : Alternation} (hrun : 2 ≤ run.length)
    (us : Alternation) (behind : Sequence) :
    expand lookup rule (before ++ (ts ++ (run ++ us)) :: behind) =
      expand lookup rule (before ++ (ts ++ .group [run] false :: us) :: behind) := by
  have hne : run ≠ [] := by
    rintro rfl
    simp at hrun
  obtain ⟨hmarks, hmarks'⟩ := isOptional_terms hrun ts us
  apply expand_eq_of
  · have hterms : Alternation.faultsWithin lookup rule (ts ++ (run ++ us)) =
        Alternation.faultsWithin lookup rule (ts ++ .group [run] false :: us) := by
      simp only [Alternation.faultsWithin_append, Alternation.faultsWithin, Term.faults, faultsWithin,
        faultOfNone_of_ne_nil rule hne, faultOfNone_of_ne_nil rule (List.cons_ne_nil _ _),
        List.append_nil]
    have hsome : ts ++ (run ++ us) ≠ [] := by simp [hne]
    have hgroup : ts ++ .group [run] false :: us ≠ [] := by simp
    rw [faults, faults, faultsWithin_append, faultsWithin_append, faultsWithin, faultsWithin, hterms,
      faultOfNone_of_ne_nil rule hsome, faultOfNone_of_ne_nil rule hgroup]
    simp [faultOfNone]
  · have hterms : Alternation.evaluate .marked lookup.table (ts ++ (run ++ us)) =
        Alternation.evaluate .marked lookup.table (ts ++ .group [run] false :: us) := by
      simp only [Alternation.evaluate_append, Alternation.evaluate, Term.evaluate, parts,
        Part.inSequence, List.foldl_nil]
    rw [evaluate, evaluate, parts_append, parts_append, parts, parts, hterms, hmarks, hmarks']

end Sequence

/-- **Redundant parentheses.** Around two or more alternations at the front of a sequence, around alternations
that may not be left out, and around two or more terms of an alternation, parentheses make no difference to
expansion, whatever is referred to and at whatever depth they stand. -/
theorem Sequence.expand_parenthesized (lookup : Lookup) (rule : Name) {gs gs' : Sequence}
    (h : Parenthesizes gs gs') :
    Sequence.expand lookup rule gs = Sequence.expand lookup rule gs' := by
  induction h with
  | front run behind hrun => exact expand_front lookup rule hrun behind
  | required before run behind hrun hrequired =>
    exact expand_required lookup rule before hrun hrequired behind
  | terms before ts run us behind hrun => exact expand_terms lookup rule before ts hrun us behind
  | @inside body body' h optional before ts us behind ih =>
    -- the two groups are terms with the same texts, in the same place
    have hgroups : Term.expand lookup rule (.group body optional) =
        Term.expand lookup rule (.group body' optional) := ih
    rw [expand, expand, expandEach_around (by rfl) hgroups fun _ _ => rfl]

/-! ## A pattern with many parentheses -/

/-- An alternation of single words, which may be left out if it is one word and `optional` is true. -/
def said (optional : Bool) (words : List String) : Alternation :=
  words.map fun word => .literals [word.toList] optional

/-- `[now]?, [please]?, [go], CITY, [by bus] | [by train] | [on foot]` -/
def ride : Sequence :=
  [said true ["now"], said true ["please"], said false ["go"], [.reference "CITY" false],
    said false ["by bus", "by train", "on foot"]]

/-- `([now]?, [please]?), ([go], CITY), ([by bus] | [by train]) | [on foot]` -/
def rideInGroups : Sequence :=
  [[.group [said true ["now"], said true ["please"]] false],
    [.group [said false ["go"], [.reference "CITY" false]] false],
    [.group [said false ["by bus", "by train"]] false, .literals ["on foot".toList] false]]

/-- The texts of `CITY`, and of no other rule. -/
def bothCities : Lookup := fun id => if id = "CITY" then some ["Brno".toList, "Prague".toList] else none

/-- Each pair of parentheses is redundant, so all of them together are: the same twenty-four texts. -/
theorem Sequence.expand_parenthesized_ride :
    Sequence.expand bothCities "Ride" ride = Sequence.expand bothCities "Ride" rideInGroups ∧
    (Sequence.expand bothCities "Ride" ride).map List.length = .ok 24 := by
  have hfront := expand_parenthesized bothCities "Ride"
    (.front [said true ["now"], said true ["please"]] (ride.drop 2) (by decide))
  have hrequired := expand_parenthesized bothCities "Ride"
    (.required (rideInGroups.take 1) [said false ["go"], [.reference "CITY" false]] (ride.drop 4)
      (by decide) (by decide))
  have hterms := expand_parenthesized bothCities "Ride"
    (.terms (rideInGroups.take 2) [] (said false ["by bus", "by train"]) (said false ["on foot"]) []
      (by decide))
  exact ⟨hfront.trans (hrequired.trans hterms), by decide +kernel⟩

/-- Behind another part, parentheses around parts that may be left out do make a difference. -/
example :
    Sequence.expand bothCities "Ride" [said false ["go"], said true ["right"], said true ["now"]] =
      .ok (["go right now", "go now", "go right", "go"].map String.toList) ∧
    Sequence.expand bothCities "Ride"
        [said false ["go"], [.group [said true ["right"], said true ["now"]] false]] =
      .ok (["go right now", "go now", "go right", "go "].map String.toList) := by
  decide +kernel

end UtteranceGrammar
