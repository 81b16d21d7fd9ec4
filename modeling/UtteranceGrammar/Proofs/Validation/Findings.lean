/-
What resolution reports, and how it judges.

The findings come in one stream, in four parts: names given again, references to no rule, rules that nothing
uses, and a circle of references, which is looked for only where there was no error before. Each part is said
here without the lists that resolution keeps along the way. A name is given again if a rule in front bears it
(`repeatedNames`), a reference dangles wherever in a pattern it stands (`danglingReferences`), and of the rules
of one name only the first can be found unused (`neverUsed`).

The verdict is not a second opinion: it is the number of errors in that stream (`Grammar.resolve_reports`).
-/
import Mathlib.Data.List.Infix
import UtteranceGrammar.Proofs.Validation.Acceptance

set_option autoImplicit false

namespace UtteranceGrammar

/-! ## Where references stand -/

mutual

/-- The term and all terms in it, in reading order. -/
def Term.subterms : Term → List Term
  | .literals items optional => [.literals items optional]
  | .reference id optional => [.reference id optional]
  | .group body optional => .group body optional :: Sequence.subterms body

/-- The terms of an alternation and all terms in them, in reading order. -/
def Alternation.subterms : List Term → List Term
  | [] => []
  | t :: ts => t.subterms ++ Alternation.subterms ts

/-- All terms in a sequence, at any depth, in reading order. -/
def Sequence.subterms : List (List Term) → List Term
  | [] => []
  | g :: gs => Alternation.subterms g ++ Sequence.subterms gs

end

/-- The rule that a term itself refers to, if it is a reference. -/
def Term.target? : Term → Option Name
  | .reference id _ => some id
  | .literals _ _ | .group _ _ => none

mutual

/-- The targets among the subterms are the references, in their order. -/
theorem Term.filterMap_target?_subterms : ∀ t : Term, t.subterms.filterMap Term.target? = t.references
  | .literals _ _ => rfl
  | .reference _ _ => rfl
  | .group body _ => by
    rw [Term.subterms, List.filterMap_cons_none rfl, Sequence.filterMap_target?_subterms body,
      Term.references]

theorem Alternation.filterMap_target?_subterms : ∀ ts : List Term,
    (Alternation.subterms ts).filterMap Term.target? = Alternation.references ts
  | [] => rfl
  | t :: ts => by
    rw [Alternation.subterms, List.filterMap_append, Term.filterMap_target?_subterms t,
      Alternation.filterMap_target?_subterms ts, Alternation.references]

theorem Sequence.filterMap_target?_subterms : ∀ gs : List (List Term),
    (Sequence.subterms gs).filterMap Term.target? = Sequence.references gs
  | [] => rfl
  | g :: gs => by
    rw [Sequence.subterms, List.filterMap_append, Alternation.filterMap_target?_subterms g,
      Sequence.filterMap_target?_subterms gs, Sequence.references]

end

namespace Grammar

/-! ## The findings, without the lists kept along the way -/

/-- Each rule, with the rules in front of it. -/
def withEarlier (g : Grammar) : List (Rule × List Rule) := g.zip g.inits

/-- Each place at which a rule is referred to: the rule that it stands in, and the name that stands there. -/
def occurrences (g : Grammar) : List (Name × Name) :=
  g.flatMap fun r => ((Sequence.subterms r.body).filterMap Term.target?).map (r.id, ·)

/-- A finding for each rule whose name a rule in front of it bears. -/
def repeatedNames (g : Grammar) : List Diagnostic :=
  ((withEarlier g).filter fun p => p.1.id ∈ ids p.2).map fun p => .duplicateRule p.1.id

/-- A finding for each place at which a name stands that no rule bears. -/
def danglingReferences (g : Grammar) : List Diagnostic :=
  ((occurrences g).filter fun p => p.2 ∉ ids g).map fun p => .undefinedReference p.1 p.2

/-- A finding for each rule that is the first of its name and no intent, and stands at no place. -/
def neverUsed (g : Grammar) : List Diagnostic :=
  ((withEarlier g).filter fun p =>
    p.1.id ∉ ids p.2 ∧ p.1.kind ≠ .intent ∧ p.1.id ∉ (occurrences g).map Prod.snd).map
      fun p => .unusedRule p.1.id

/-! ## They are what resolution finds -/

/-- Of the rules of which `q` holds, the first rule comes first; all others have it in front of them. -/
theorem map_fst_filter_withEarlier (q : Rule × List Rule → Bool) (r : Rule) (rs : List Rule) :
    ((withEarlier (r :: rs)).filter q).map Prod.fst =
      (if q (r, []) then [r] else []) ++
        ((withEarlier rs).filter fun p => q (p.1, r :: p.2)).map Prod.fst := by
  have hcons : withEarlier (r :: rs) = (r, []) :: (withEarlier rs).map fun p => (p.1, r :: p.2) := by
    rw [withEarlier, List.inits_cons, List.zip_cons_cons, List.zip_map_right]
    rfl
  rw [hcons, List.filter_cons, List.filter_map]
  split <;> simp [Function.comp_def]

/-- Whether the rule's name is among `earlier` or borne by a rule in front of it. -/
def isRepeat (earlier : List Name) (p : Rule × List Rule) : Bool :=
  p.1.id ∈ earlier ++ ids p.2

/-- The first rule has no rule in front of it. -/
theorem isRepeat_first (earlier : List Name) (r : Rule) :
    isRepeat earlier (r, []) = decide (r.id ∈ earlier) := by
  rw [isRepeat, ids, List.map_nil, List.append_nil]

/-- A rule in front bears one more of the earlier names. -/
theorem isRepeat_cons (earlier : List Name) (r : Rule) (p : Rule × List Rule) :
    isRepeat earlier (p.1, r :: p.2) = isRepeat (r.id :: earlier) p := by
  simp only [isRepeat, ids, List.map_cons, List.mem_append, List.mem_cons, or_left_comm, or_assoc]

/-- A name that is there already adds nothing. -/
theorem isRepeat_cons_of_mem {earlier : List Name} {id : Name} (hid : id ∈ earlier)
    (p : Rule × List Rule) : isRepeat (id :: earlier) p = isRepeat earlier p := by
  have hsame : p.1.id = id → p.1.id ∈ earlier := fun h => h ▸ hid
  rw [isRepeat, isRepeat, decide_eq_decide, List.cons_append, List.mem_cons, List.mem_append]
  constructor
  · rintro (h | h)
    · exact .inl (hsame h)
    · exact h
  · exact .inr

/-- What resolution keeps along the way are the names of the rules in front. -/
theorem firstsAfter_repeatsAfter (earlier : List Name) (rs : List Rule) :
    firstsAfter earlier rs = ((withEarlier rs).filter (!isRepeat earlier ·)).map Prod.fst ∧
      repeatsAfter earlier rs = ((withEarlier rs).filter (isRepeat earlier)).map Prod.fst := by
  induction rs generalizing earlier with
  | nil => exact ⟨rfl, rfl⟩
  | cons r rs ih =>
    rw [map_fst_filter_withEarlier, map_fst_filter_withEarlier, firstsAfter, repeatsAfter]
    simp only [isRepeat_first, isRepeat_cons]
    by_cases hr : r.id ∈ earlier
    · -- a name met before is not kept again
      obtain ⟨hfirsts, hrepeats⟩ := ih earlier
      simp only [isRepeat_cons_of_mem hr, hr, hfirsts, hrepeats]
      exact ⟨rfl, rfl⟩
    · obtain ⟨hfirsts, hrepeats⟩ := ih (r.id :: earlier)
      simp only [hr, hfirsts, hrepeats]
      exact ⟨rfl, rfl⟩

/-- Resolution finds the names that are repeated. -/
theorem duplicateRules_eq (g : Grammar) : duplicateRules g = repeatedNames g := by
  rw [duplicateRules, repeats, (firstsAfter_repeatsAfter [] g).2, repeatedNames, List.map_map]
  refine congrArg _ (List.filter_congr fun p _ => ?_)
  simp [isRepeat]

/-- Resolution finds the references that dangle. -/
theorem undefinedReferences_eq (g : Grammar) : undefinedReferences g = danglingReferences g := by
  rw [undefinedReferences, danglingReferences, occurrences, List.filter_flatMap, List.map_flatMap]
  refine List.flatMap_congr fun r _ => ?_
  rw [Sequence.filterMap_target?_subterms, List.filter_map, List.map_map]
  rfl

theorem map_snd_occurrences (g : Grammar) : (occurrences g).map Prod.snd = references g := by
  rw [occurrences, references, List.map_flatMap]
  refine List.flatMap_congr fun r _ => ?_
  rw [Sequence.filterMap_target?_subterms, List.map_map]
  exact List.map_id _

/-- Resolution finds the rules that are never used. -/
theorem unusedRules_eq (g : Grammar) : unusedRules g = neverUsed g := by
  rw [unusedRules, firsts, (firstsAfter_repeatsAfter [] g).1, neverUsed, List.filter_map,
    List.filter_filter, List.map_map, map_snd_occurrences]
  refine congrArg _ (List.filter_congr fun p _ => ?_)
  simp [isRepeat, Bool.and_comm, Bool.and_left_comm]

theorem nameDiagnostics_eq (g : Grammar) :
    nameDiagnostics g = repeatedNames g ++ danglingReferences g ++ neverUsed g := by
  rw [nameDiagnostics, duplicateRules_eq, undefinedReferences_eq, unusedRules_eq]

/-! ## The whole stream, and the verdict -/

/-- In a well-named grammar the walk meets a cycle exactly if a rule refers to itself, be it through other
rules. -/
theorem cycles_ne_nil_iff {g : Grammar} (hg : WellNamed g) :
    (dependencyWalk g).cycles ≠ [] ↔ ∃ r ∈ g, Relation.TransGen g.Refers r r := by
  have hacyclic : (dependencyWalk g).cycles = [] ↔ Acyclic g := by
    constructor
    · intro hcycles
      have horder := resolve_eq_ok_iff.2 ⟨hg, hcycles, rfl⟩
      exact ((exists_order_iff g).1 ⟨_, horder⟩).2
    · exact cycles_eq_nil_of_acyclic hg
  rw [Ne, hacyclic, Acyclic]
  push Not
  rfl

/-- Where names alone give rise to errors, no circle is looked for. -/
theorem resolve_of_errors {g : Grammar} {n : Nat}
    (h : (nameDiagnostics g).countP Diagnostic.isError = n + 1) :
    resolve g = ⟨nameDiagnostics g, .error ⟨n + 1⟩⟩ := by
  rw [resolve, h, if_pos (Nat.succ_pos n)]

/-- Where they give rise to none, all depends on whether the walk meets a cycle. -/
theorem resolve_of_no_errors {g : Grammar}
    (h : (nameDiagnostics g).countP Diagnostic.isError = 0) :
    resolve g =
      if (dependencyWalk g).cycles.isEmpty then
        ⟨nameDiagnostics g, .ok (arrange g (dependencyWalk g).sorted)⟩
      else
        ⟨nameDiagnostics g ++ [.circularDependency (dependencyWalk g).cycles.flatten.eraseDups],
          .error ⟨1⟩⟩ := by
  rw [resolve, h, if_neg (Nat.lt_irrefl 0)]

/-- Resolution reports each name given again, each dangling reference and each rule never used, in this order;
and behind them one circle, if there was no error so far and a rule refers to itself. If there are errors in
all that, the verdict is their number, and otherwise there is an order. -/
theorem resolve_reports (g : Grammar) :
    ∃ named circles, (resolve g).diagnostics = named ++ circles ∧
      named = repeatedNames g ++ danglingReferences g ++ neverUsed g ∧
      (circles = [] ∨ ∃ rules, circles = [.circularDependency rules]) ∧
      (circles ≠ [] ↔
        named.countP Diagnostic.isError = 0 ∧ ∃ r ∈ g, Relation.TransGen g.Refers r r) ∧
      match (resolve g).diagnostics.countP Diagnostic.isError with
      | 0 => ∃ order, (resolve g).order = .ok order
      | n + 1 => (resolve g).order = .error ⟨n + 1⟩ := by
  rw [← nameDiagnostics_eq]
  cases herrors : (nameDiagnostics g).countP Diagnostic.isError with
  | succ n =>
    have hresolve := resolve_of_errors herrors
    refine ⟨nameDiagnostics g, [], ?_, rfl, .inl rfl, ?_, ?_⟩
    · rw [hresolve, List.append_nil]
    · rw [herrors]
      simp
    · rw [hresolve, herrors]
  | zero =>
    have hcycles := cycles_ne_nil_iff ((countP_nameDiagnostics_eq_zero_iff g).1 herrors)
    have hresolve := resolve_of_no_errors herrors
    cases hwalk : (dependencyWalk g).cycles with
    | nil =>
      rw [hwalk, List.isEmpty_nil, if_pos rfl] at hresolve
      refine ⟨nameDiagnostics g, [], ?_, rfl, .inl rfl, ?_, ?_⟩
      · rw [hresolve, List.append_nil]
      · rw [herrors, ← hcycles, hwalk]
        simp
      · rw [hresolve, herrors]
        exact ⟨_, rfl⟩
    | cons c cs =>
      rw [hwalk, List.isEmpty_cons, if_neg Bool.false_ne_true] at hresolve
      refine ⟨nameDiagnostics g, [.circularDependency (c :: cs).flatten.eraseDups], ?_, rfl,
        .inr ⟨_, rfl⟩, ?_, ?_⟩
      · rw [hresolve]
      · rw [herrors, ← hcycles, hwalk]
        simp
      · -- the circle is the one error
        rw [hresolve, List.countP_append, herrors]
        rfl

-- a name given twice, a reference to nothing from the second of the two, and a rule that refers to itself
example :
    let g : Grammar :=
      [⟨"a", .plain, [[.reference "b" false]]⟩, ⟨"a", .intent, [[.group [[.reference "c" true]] false]]⟩,
        ⟨"b", .entity, [[.reference "b" false]]⟩]
    (resolve g).diagnostics =
        [.duplicateRule "a", .undefinedReference "a" "c", .unusedRule "a"] ∧
      (resolve g).order.toOption = none := by
  decide +kernel

end Grammar

end UtteranceGrammar
