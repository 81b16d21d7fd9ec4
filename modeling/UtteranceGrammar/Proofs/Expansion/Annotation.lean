/-
Expansion is annotated evaluation.

`Rule.annotate` computes the utterances of a rule with no marks: it evaluates the pattern over annotated
texts, puts one more span around each result if the rule is an entity, and cleans. Expansion gets there
by another way, through marked texts that are decoded in the end. The two agree as long as the marks
cannot be mistaken, that is for rules that are `Markable`: what is written in them has no marks of its
own, and no entity's name ends the head of its spans.

The agreement is carried by an invariant on what has been expanded so far (`Annotates`): each marked
text denotes the utterance beside it, and the utterances are those of annotated evaluation. Adding a
rule keeps it, because the rules that it refers to have been added before and are not added again. So
all of an ordered grammar expands, unless there is a hollow rule in it; then the first such rule is
named (`Grammar.expand_of_ordered`).
-/
import UtteranceGrammar.Proofs.Expansion.Faults
import UtteranceGrammar.Proofs.Markup.Denotation
import UtteranceGrammar.Proofs.Validation.Order

set_option autoImplicit false

namespace UtteranceGrammar

open Markup (Denotes)

/-! ## One rule -/

/-- The marks put around a rule's texts cannot be mistaken. -/
structure Rule.Markable (r : Rule) : Prop where
  free : ∀ s ∈ r.items, Markup.Free s
  name : r.kind = .entity → ']' ∉ r.id.toList

/-- The utterances of a rule, given those of the rules that it refers to. -/
def Rule.annotate (table : Name → List Utterance) (r : Rule) : List Utterance :=
  let us := Sequence.evaluate .annotated table r.body
  Utterance.clean (if r.kind = .entity then us.map (Utterance.labelled r.id) else us)

/-- A rule's utterances depend only on those of the rules that it refers to. -/
theorem Rule.annotate_congr {table table' : Name → List Utterance} {r : Rule}
    (h : ∀ id ∈ r.references, table id = table' id) : r.annotate table = r.annotate table' := by
  rw [annotate, annotate, Sequence.evaluate_congr h]

/-- Joining marked texts joins the utterances that they denote. -/
theorem keeps_denotes : Interpretation.Keeps Denotes .marked .annotated :=
  ⟨fun hl hr => hl.spaced hr, Markup.Denotes.ofText (by decide)⟩

namespace Expansion

/-- The utterances of the last rule of a name. -/
def utterancesOf (x : Expansion) (id : Name) : List Utterance :=
  ((x.get? id).map ExpandedRule.utterances).getD []

/-- An entry that is added is found under its name. Under all other names what was found before is found still. -/
theorem get?_append (x : Expansion) (e : ExpandedRule) (id : Name) :
    get? ⟨x.rules ++ [e]⟩ id = if e.rule.id = id then some e else x.get? id := by
  rw [get?, get?, List.reverse_append, List.reverse_singleton, List.singleton_append,
    List.find?_cons]
  by_cases h : e.rule.id = id <;> simp [h]

/-- Where no name has two entries, every entry is found under its name. -/
theorem get?_of_mem {x : Expansion} (hids : x.order.Nodup) {e : ExpandedRule} (he : e ∈ x.rules) :
    x.get? e.rule.id = some e := by
  have hkeys : (x.rules.reverse.map fun b : ExpandedRule => b.rule.id).Nodup := by
    rw [List.map_reverse, List.nodup_reverse]
    exact hids
  exact find?_key hkeys (List.mem_reverse.2 he)

/-- The names of the entries are those of the rules. -/
theorem order_eq {x : Expansion} {rules : List Rule}
    (h : x.rules.map ExpandedRule.rule = rules) : x.order = Grammar.ids rules := by
  rw [order, Grammar.ids, ← h, List.map_map]
  rfl

/-- What can be looked up are the names of the entries. -/
theorem isSome_lookup {x : Expansion} {id : Name} : (x.lookup id).isSome = true ↔ id ∈ x.order := by
  rw [lookup, Option.isSome_map, get?, List.find?_isSome]
  simp only [List.mem_reverse, decide_eq_true_eq, order, List.mem_map]

/-- Each marked text of a rule denotes the utterance beside it. -/
def Denoting (x : Expansion) : Prop :=
  ∀ e ∈ x.rules, List.Forall₂ Denotes e.marked e.utterances

/-- What is looked up under a name are marked texts that denote the utterances found there, or there are neither. -/
theorem Denoting.forall₂_table {x : Expansion} (hx : x.Denoting) (id : Name) :
    List.Forall₂ Denotes (x.lookup.table id) (x.utterancesOf id) := by
  rw [Lookup.table, lookup, utterancesOf]
  cases h : x.get? id with
  | none => exact .nil
  | some e => exact hx e (List.mem_reverse.1 (List.mem_of_find?_eq_some h))

end Expansion

/-- What the pattern of a rule folds to over marked texts denotes what it folds to over utterances. -/
theorem Expansion.Denoting.forall₂_evaluate {x : Expansion} (hx : x.Denoting) {r : Rule}
    (hr : r.Markable) :
    List.Forall₂ Denotes (Sequence.evaluate .marked x.lookup.table r.body)
      (Sequence.evaluate .annotated x.utterancesOf r.body) :=
  Sequence.forall₂_evaluate keeps_denotes r.body
    (fun s hs => Markup.Denotes.ofText (hr.free s hs)) fun id _ => hx.forall₂_table id

/-- With every reference at hand, a rule is expanded to its annotated evaluation unless it is hollow. -/
theorem Rule.expand_of_found {x : Expansion} {r : Rule} (hr : r.Markable) (hx : x.Denoting)
    (href : ∀ id ∈ r.references, id ∈ x.order) :
    if r.isHollow then r.expand x.lookup = .error (.emptyPattern r.id)
    else ∃ marked, r.expand x.lookup = .ok ⟨r, marked, r.annotate x.utterancesOf⟩ ∧
      List.Forall₂ Denotes marked (r.annotate x.utterancesOf) := by
  have hexpand : Sequence.expand x.lookup r.id r.body = _ :=
    Sequence.expand_of_found fun id hid => Expansion.isSome_lookup.2 (href id hid)
  have hbody := hx.forall₂_evaluate hr
  -- an entity's results are wrapped here and labelled there
  have hproduced : List.Forall₂ Denotes
      (if r.kind = .entity
        then (Sequence.evaluate .marked x.lookup.table r.body).map (Markup.wrap r.id)
        else Sequence.evaluate .marked x.lookup.table r.body)
      (if r.kind = .entity
        then (Sequence.evaluate .annotated x.utterancesOf r.body).map (Utterance.labelled r.id)
        else Sequence.evaluate .annotated x.utterancesOf r.body) := by
    split
    · rename_i hkind
      exact List.rel_map (fun _ _ h => h.wrap (hr.name hkind)) hbody
    · exact hbody
  have hclean := Markup.forall₂_clean hproduced
  rw [isHollow, expand, produce, hexpand]
  split
  · rfl
  · refine ⟨_, ?_, hclean⟩
    show (List.mapM utterance _ >>= fun us => pure _) = _
    rw [Markup.mapM_utterance hclean]
    rfl

/-! ## An ordered grammar -/

namespace Expansion

/-- The rules have been expanded in this order, with marked texts that denote their utterances, and
these are the annotated evaluations of the rules. -/
structure Annotates (x : Expansion) (rules : List Rule) : Prop where
  rules_eq : x.rules.map ExpandedRule.rule = rules
  denoting : x.Denoting
  utterances_eq : ∀ e ∈ x.rules, e.utterances = e.rule.annotate x.utterancesOf

/-- The names of the entries are those of the rules, in the order of expansion. -/
theorem Annotates.order_eq {x : Expansion} {rules : List Rule} (hx : x.Annotates rules) :
    x.order = Grammar.ids rules :=
  Expansion.order_eq hx.rules_eq

/-- A rule can be added that neither it nor a rule before it refers to. -/
theorem Annotates.append {x : Expansion} {rules : List Rule} {r : Rule} {marked : List Text}
    (hx : x.Annotates rules) (hmarked : List.Forall₂ Denotes marked (r.annotate x.utterancesOf))
    (hself : r.id ∉ r.references) (hrefs : ∀ s ∈ rules, r.id ∉ s.references) :
    Annotates ⟨x.rules ++ [⟨r, marked, r.annotate x.utterancesOf⟩]⟩ (rules ++ [r]) := by
  -- only the name of the new rule is looked up differently now
  have htable : ∀ id, id ≠ r.id → utterancesOf
      ⟨x.rules ++ [⟨r, marked, r.annotate x.utterancesOf⟩]⟩ id = x.utterancesOf id := by
    intro id hne
    rw [utterancesOf, get?_append, if_neg (Ne.symm hne), utterancesOf]
  refine ⟨?_, ?_, ?_⟩
  · rw [List.map_append, hx.rules_eq]
    rfl
  · intro e he
    rcases List.mem_append.1 he with he | he
    · exact hx.denoting e he
    · rw [List.mem_singleton.1 he]
      exact hmarked
  · intro e he
    rcases List.mem_append.1 he with he | he
    · rw [hx.utterances_eq e he]
      have hmem : e.rule ∈ rules := by
        rw [← hx.rules_eq]
        exact List.mem_map_of_mem he
      refine Rule.annotate_congr fun id hin => (htable id ?_).symm
      rintro rfl
      exact hrefs e.rule hmem hin
    · rw [List.mem_singleton.1 he]
      refine Rule.annotate_congr fun id hin => (htable id ?_).symm
      rintro rfl
      exact hself hin

/-- One more rule in order is expanded and annotated, unless it is hollow. -/
theorem Annotates.add {x : Expansion} {rules : List Rule} {r : Rule} (hx : x.Annotates rules)
    (hr : r.Markable) (hord : Grammar.Ordered (rules ++ [r])) (hnew : r.id ∉ Grammar.ids rules) :
    if r.isHollow then x.add r = .error (.emptyPattern r.id)
    else ∃ y, x.add r = .ok y ∧ y.Annotates (rules ++ [r]) := by
  have hrefs : ∀ id ∈ r.references, id ∈ Grammar.ids rules := hord rules r [] rfl
  have hexpand := Rule.expand_of_found hr hx.denoting (by rw [hx.order_eq]; exact hrefs)
  by_cases hhollow : r.isHollow = true
  · rw [if_pos hhollow] at hexpand ⊢
    rw [Expansion.add, hexpand]
    rfl
  · rw [if_neg hhollow] at hexpand ⊢
    obtain ⟨marked, hmarks, hdenotes⟩ := hexpand
    refine ⟨⟨x.rules ++ [⟨r, marked, r.annotate x.utterancesOf⟩]⟩, ?_, hx.append hdenotes ?_ ?_⟩
    · rw [Expansion.add, hmarks]
      rfl
    · exact fun hself => hnew (hrefs r.id hself)
    · exact fun s hs hmem => hnew (hord.of_append.mem_ids hs hmem)

end Expansion

namespace Grammar

/-- The last rule is expanded when all others have been. -/
theorem expand_append (rules : List Rule) (r : Rule) :
    expand (rules ++ [r]) = expand rules >>= fun x => x.add r := by
  rw [expand, expand, List.foldlM_append]
  refine congrArg _ (funext fun x => ?_)
  rw [List.foldlM_cons]
  cases x.add r <;> rfl

/-- Rules in order are expanded, all of them, unless one is hollow; then the first such one is named. -/
theorem expand_of_ordered {rules : List Rule} (hord : Ordered rules) (hids : (ids rules).Nodup)
    (hmark : ∀ r ∈ rules, r.Markable) :
    match rules.find? Rule.isHollow with
    | some r => expand rules = .error (.emptyPattern r.id)
    | none => ∃ x, expand rules = .ok x ∧ x.Annotates rules := by
  induction rules using List.reverseRecOn with
  | nil =>
    refine ⟨⟨[]⟩, rfl, rfl, ?_, ?_⟩ <;>
      exact fun e he => absurd he List.not_mem_nil
  | append_singleton rules r ih =>
    obtain ⟨hnodup, hnew⟩ := nodup_ids_append_singleton.1 hids
    rw [List.forall_mem_append] at hmark
    have hrules := ih hord.of_append hnodup hmark.1
    rw [List.find?_append, expand_append]
    cases hfind : rules.find? Rule.isHollow with
    | some s =>
      -- expansion has ended before `r` is reached
      rw [hfind] at hrules
      show (expand rules >>= _) = _
      rw [hrules]
      rfl
    | none =>
      rw [hfind] at hrules
      obtain ⟨x, hx, hann⟩ := hrules
      have hadd := hann.add (hmark.2 r (List.mem_singleton_self r)) hord hnew
      rw [hx, Option.none_or]
      by_cases hhollow : r.isHollow = true
      · rw [if_pos hhollow] at hadd
        rw [List.find?_cons_of_pos hhollow]
        exact hadd
      · rw [if_neg hhollow] at hadd
        rw [List.find?_cons_of_neg hhollow]
        exact hadd

end Grammar

end UtteranceGrammar
