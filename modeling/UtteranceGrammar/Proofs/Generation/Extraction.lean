/-
A group of a pattern as a rule of its own.

A group can be taken out of a pattern: a reference to a new name stands in its place, and a plain rule of that
name, wherever it is put, gets the group's sequence for its pattern (`Grammar.Extraction`). What the group folds
to is used as it is, while the texts of a rule are cleaned before others see them. So the two can differ, but not
if the group folds only to texts that are not blank and have no white space at their ends. Then all rules that
were there before have the same marked texts and the same utterances as before (`Grammar.Extraction.generate`).

The new rule fits into any order of expansion right in front of the rule that it was taken from. That settles
that resolution accepts the new grammar, though it may order it in another way. What comes of it is known
beforehand: the old expansion, with the new pattern in its place and the new rule added, is settled, and so it
is what the new rules are expanded to in any order.
-/
import UtteranceGrammar.Proofs.Expansion.Replacement
import UtteranceGrammar.Proofs.Generation.Agreement
import UtteranceGrammar.Proofs.Generation.Independence

set_option autoImplicit false

namespace UtteranceGrammar

/-- Tidy texts need no cleaning. -/
theorem Rule.clean_of_tidy {texts : List Text} (h : ∀ s ∈ texts, s.Tidy) : clean texts = texts := by
  have htrim : texts.map Text.trim = texts := by
    rw [List.map_congr_left fun s hs => (h s hs).2]
    exact List.map_id texts
  rw [clean, htrim, List.filter_eq_self]
  intro s hs
  rw [Bool.not_eq_true', List.isEmpty_eq_false_iff]
  exact (h s hs).1

namespace Grammar

/-- A group that is taken out of the pattern of a rule. -/
structure Extraction where
  /-- The rules in front of it. -/
  front : List Rule
  /-- The rule with the group. -/
  rule : Rule
  /-- The rules behind it. -/
  rear : List Rule
  /-- The sequence in the group. -/
  inner : Sequence
  optional : Bool
  /-- The name that the group gets. -/
  name : Name
  /-- The pattern of the rule, with a reference in place of the group. -/
  body : Sequence
  /-- The rules in front of the new one. -/
  before : List Rule
  /-- The rules behind the new one. -/
  behind : List Rule
  fresh : name ∉ ids (front ++ rule :: rear)
  replaces : Sequence.Replaces (.group inner optional) (.reference name optional) rule.body body
  split : before ++ behind = front ++ { rule with body := body } :: rear

namespace Extraction

variable (k : Extraction)

/-- The grammar with the group in its place. -/
def original : Grammar := k.front ++ k.rule :: k.rear

/-- The rule that refers to the group by its name. -/
def emended : Rule := { k.rule with body := k.body }

/-- The group as a rule. -/
def added : Rule := ⟨k.name, .plain, k.inner⟩

/-- The grammar with the group as a rule. -/
def result : Grammar := k.before ++ k.added :: k.behind

/-! ## The rules -/

theorem perm_original : k.original.Perm (k.rule :: (k.front ++ k.rear)) := List.perm_middle

/-- Wherever it is put, the new rule comes on top of those that were there. -/
theorem perm_result : k.result.Perm (k.added :: k.emended :: (k.front ++ k.rear)) := by
  have hold : (k.before ++ k.behind).Perm (k.emended :: (k.front ++ k.rear)) := by
    rw [k.split]
    exact List.perm_middle
  exact List.perm_middle.trans (hold.cons k.added)

/-- One name comes on top of those that were there. -/
theorem perm_ids_result : (ids k.result).Perm (k.name :: ids k.original) := by
  have hresult := k.perm_result.map Rule.id
  have horiginal := k.perm_original.map Rule.id
  exact hresult.trans (horiginal.symm.cons k.name)

/-- What the new rule refers to, the group's rule did. -/
theorem references_added {x : Name} (hx : x ∈ k.added.references) : x ∈ k.rule.references :=
  k.replaces.mem_references hx

/-- The group's rule now refers to what it did or to the new name. -/
theorem references_emended {x : Name} (hx : x ∈ k.emended.references) :
    x ∈ k.rule.references ∨ x = k.name :=
  (k.replaces.mem_or_mem hx).imp_right List.mem_singleton.1

/-- The new name being fresh, names stay unique and defined. -/
theorem wellNamed_result (hg : WellNamed k.original) : WellNamed k.result := by
  have hids : ∀ x, x ∈ ids k.result ↔ x = k.name ∨ x ∈ ids k.original := by
    intro x
    rw [k.perm_ids_result.mem_iff, List.mem_cons]
  have hrule : k.rule ∈ k.original := k.perm_original.mem_iff.2 List.mem_cons_self
  refine ⟨?_, ?_⟩
  · rw [k.perm_ids_result.nodup_iff, List.nodup_cons]
    exact ⟨k.fresh, hg.nodup⟩
  · intro r hr x hx
    rw [hids]
    rcases List.mem_cons.1 (k.perm_result.mem_iff.1 hr) with rfl | hr
    · exact .inr (hg.defined k.rule hrule x (k.references_added hx))
    rcases List.mem_cons.1 hr with rfl | hr
    · exact (k.references_emended hx).symm.imp_right (hg.defined k.rule hrule x)
    · exact .inr (hg.defined r (k.perm_original.mem_iff.2 (List.mem_cons_of_mem _ hr)) x hx)

/-- In an order, the new rule fits in right in front of the old one. -/
theorem ordered_insert {earlier later : List Rule} (h : Ordered (earlier ++ k.rule :: later)) :
    Ordered (earlier ++ k.added :: k.emended :: later) := by
  induction later using List.reverseRecOn with
  | nil =>
    obtain ⟨hearlier, hrule⟩ := ordered_append_singleton.1 h
    have hadded : Ordered (earlier ++ [k.added]) := by
      refine ordered_append_singleton.2 ⟨hearlier, ?_⟩
      intro x hx
      exact hrule x (k.references_added hx)
    rw [List.append_cons]
    refine ordered_append_singleton.2 ⟨hadded, ?_⟩
    intro x hx
    rw [ids, List.map_append, List.mem_append, List.map_singleton, List.mem_singleton]
    exact (k.references_emended hx).imp_left (hrule x)
  | append_singleton later r ih =>
    rw [← List.cons_append, ← List.append_assoc] at h
    rw [← List.cons_append, ← List.cons_append, ← List.append_assoc]
    obtain ⟨hlater, hr⟩ := ordered_append_singleton.1 h
    refine ordered_append_singleton.2 ⟨ih hlater, ?_⟩
    intro x hx
    have hmem := hr x hx
    simp only [ids, List.map_append, List.map_cons, List.mem_append, List.mem_cons] at hmem ⊢
    exact hmem.imp_right .inr

/-- What could be put in order still can. -/
theorem exists_order {order : List Rule} (horder : (resolve k.original).order = .ok order) :
    ∃ order', (resolve k.result).order = .ok order' := by
  have hperm := perm_of_resolve horder
  have hwell := k.wellNamed_result (resolve_eq_ok_iff.1 horder).1
  obtain ⟨earlier, later, rfl⟩ :=
    List.append_of_mem (hperm.mem_iff.2 (k.perm_original.mem_iff.2 List.mem_cons_self))
  have hothers : (earlier ++ later).Perm (k.front ++ k.rear) :=
    (List.perm_middle.symm.trans (hperm.trans k.perm_original)).cons_inv
  have hresult : (earlier ++ k.added :: k.emended :: later).Perm k.result := by
    have hmiddle : (earlier ++ k.added :: k.emended :: later).Perm
        (k.added :: k.emended :: (earlier ++ later)) :=
      List.perm_middle.trans (List.perm_middle.cons k.added)
    exact hmiddle.trans (((hothers.cons k.emended).cons k.added).trans k.perm_result.symm)
  refine (exists_order_iff k.result).2 ⟨hwell, not_transGen_self hresult ?_ ?_⟩
  · exact (hresult.map Rule.id).nodup_iff.2 hwell.nodup
  · exact k.ordered_insert (ordered_of_resolve horder)

/-! ## The expansion -/

/-- The entry of the rule, under its new pattern; other entries stay. -/
def emend (e : ExpandedRule) : ExpandedRule :=
  if e.rule = k.rule then { e with rule := k.emended } else e

theorem id_emend (e : ExpandedRule) : (k.emend e).rule.id = e.rule.id := by
  rw [emend]
  split
  · rename_i heq
    rw [heq]
    rfl
  · rfl

theorem marked_emend (e : ExpandedRule) : (k.emend e).marked = e.marked := by
  rw [emend]
  split <;> rfl

theorem utterances_emend (e : ExpandedRule) : (k.emend e).utterances = e.utterances := by
  rw [emend]
  split <;> rfl

/-- The expansion with the new pattern in place of the old one, and with the new rule. -/
def expansion (x : Expansion) (d : ExpandedRule) : Expansion := ⟨x.rules.map k.emend ++ [d]⟩

variable {k} {x : Expansion} {d : ExpandedRule}

/-- The new entry is found under its name, and the others as they have been changed. -/
theorem get?_expansion (hd : d.rule = k.added) (id : Name) :
    (k.expansion x d).get? id = if k.name = id then some d else (x.get? id).map k.emend := by
  have hfind : Expansion.get? ⟨x.rules.map k.emend⟩ id = (x.get? id).map k.emend := by
    rw [Expansion.get?, ← List.map_reverse, List.find?_map]
    simp only [Function.comp_def, id_emend]
    rfl
  rw [expansion, Expansion.get?_append ⟨x.rules.map k.emend⟩, hd, hfind]
  rfl

/-- Under any other name there is what was there. -/
theorem lookup_expansion (hd : d.rule = k.added) {id : Name} (hid : id ≠ k.name) :
    (k.expansion x d).lookup id = x.lookup id := by
  have hmarked : ExpandedRule.marked ∘ k.emend = ExpandedRule.marked := funext k.marked_emend
  rw [Expansion.lookup, get?_expansion hd, if_neg (Ne.symm hid), Option.map_map, hmarked,
    Expansion.lookup]

/-- Under the new name there are the texts of the new entry. -/
theorem lookup_expansion_name (hd : d.rule = k.added) :
    (k.expansion x d).lookup k.name = some d.marked := by
  rw [Expansion.lookup, get?_expansion hd, if_pos rfl, Option.map_some]

/-- The new rule can be expanded, and its marked texts are those that the group folds to. -/
theorem exists_added (hg : Expressible k.original) (hx : x.Denoting)
    (href : ∀ id ∈ k.rule.references, id ∈ x.order)
    (htidy : ∀ texts, Sequence.expand x.lookup k.rule.id k.inner = .ok texts → ∀ s ∈ texts, s.Tidy) :
    ∃ d, k.added.expand x.lookup = .ok d ∧
      Sequence.expand x.lookup k.rule.id k.inner = .ok d.marked := by
  have hrule : k.rule.Expressible := hg k.rule (k.perm_original.mem_iff.2 List.mem_cons_self)
  have hhollow : Sequence.isHollow k.inner = false := k.replaces.not_hollow hrule.not_hollow
  have hfound : ∀ id ∈ Sequence.references k.inner, (x.lookup id).isSome = true := by
    intro id hid
    exact Expansion.isSome_lookup.2 (href id (k.references_added hid))
  have hfolds : ∀ rule, Sequence.expand x.lookup rule k.inner =
      .ok (Sequence.evaluate .marked x.lookup.table k.inner) := by
    intro rule
    rw [Sequence.expand_of_found hfound, hhollow]
    rfl
  have hmarkable : k.added.Markable := by
    refine ⟨?_, nofun⟩
    intro s hs
    exact hrule.markable.free s (k.replaces.mem_items hs)
  have hexpand := Rule.expand_of_found hmarkable hx fun id hid => Expansion.isSome_lookup.1 (hfound id hid)
  rw [if_neg (by rw [Rule.isHollow, added, hhollow]; exact Bool.false_ne_true)] at hexpand
  obtain ⟨marked, hexpand, -⟩ := hexpand
  refine ⟨_, hexpand, ?_⟩
  -- cleaning has nothing to do
  obtain ⟨texts, _, hproduce, -, heq⟩ := Rule.expand_eq_ok_iff.1 hexpand
  have htexts : Sequence.evaluate .marked x.lookup.table k.inner = texts := by
    rw [Rule.produce, added, hfolds] at hproduce
    exact Except.ok.inj hproduce
  have hmarked : marked = Rule.clean texts := congrArg ExpandedRule.marked heq
  rw [hfolds, hmarked, htexts, Rule.clean_of_tidy]
  exact htidy texts (by rw [hfolds, htexts])

/-- The rule produces under its new pattern what it did under the old one. -/
theorem produce_emended (hd : d.rule = k.added)
    (hfolds : Sequence.expand x.lookup k.rule.id k.inner = .ok d.marked)
    (hnew : ∀ id ∈ k.rule.references, id ≠ k.name) :
    k.emended.produce (k.expansion x d).lookup = k.rule.produce x.lookup := by
  have hterm : Term.expand x.lookup k.rule.id (.group k.inner k.optional) =
      Term.expand (k.expansion x d).lookup k.rule.id (.reference k.name k.optional) := by
    rw [Term.expand, lookup_expansion_name hd]
    exact hfolds
  have hbody : Sequence.expand x.lookup k.rule.id k.rule.body =
      Sequence.expand (k.expansion x d).lookup k.rule.id k.body := by
    apply k.replaces.expand_eq rfl hterm
    intro id hid
    exact (lookup_expansion hd (hnew id hid)).symm
  rw [Rule.produce, Rule.produce, hbody]
  rfl

/-- The expansion of the new grammar is settled, if that of the old one is. -/
theorem settled_expansion (hx : x.Settled) (hadded : k.added.expand x.lookup = .ok d)
    (hfolds : Sequence.expand x.lookup k.rule.id k.inner = .ok d.marked)
    (hnew : ∀ r ∈ k.original, ∀ id ∈ r.references, id ≠ k.name)
    (hrules : ∀ e ∈ x.rules, e.rule ∈ k.original) : (k.expansion x d).Settled := by
  have hd : d.rule = k.added := Rule.rule_of_expand hadded
  have hrule : ∀ id ∈ k.rule.references, id ≠ k.name :=
    hnew k.rule (k.perm_original.mem_iff.2 List.mem_cons_self)
  intro d' hd'
  rcases List.mem_append.1 hd' with hmem | hmem
  · obtain ⟨e, he, rfl⟩ := List.mem_map.1 hmem
    have hexpand := hx e he
    rw [emend]
    by_cases heq : e.rule = k.rule
    · rw [if_pos heq]
      rw [heq] at hexpand
      obtain ⟨texts, utterances, hproduce, hutterances, rfl⟩ := Rule.expand_eq_ok_iff.1 hexpand
      rw [← produce_emended hd hfolds hrule] at hproduce
      exact Rule.expand_eq_ok_iff.2 ⟨texts, utterances, hproduce, hutterances, rfl⟩
    · rw [if_neg heq, Rule.expand_congr fun id hid => lookup_expansion hd (hnew _ (hrules e he) id hid)]
      exact hexpand
  · obtain rfl := List.mem_singleton.1 hmem
    rw [hd, Rule.expand_congr fun id hid => lookup_expansion hd (hrule id (k.references_added hid))]
    exact hadded

/-- The new name comes last. -/
theorem order_expansion (hd : d.rule = k.added) : (k.expansion x d).order = x.order ++ [k.name] := by
  rw [Expansion.order, expansion, List.map_append, List.map_map, List.map_singleton, hd]
  simp only [Function.comp_def, id_emend]
  rfl

/-- The rules of the new grammar all have their entries. -/
theorem exists_entry (hd : d.rule = k.added) (hids : (ids k.original).Nodup)
    (hentry : ∀ r ∈ k.original, ∃ e ∈ x.rules, e.rule = r) :
    ∀ r ∈ k.result, ∃ e ∈ (k.expansion x d).rules, e.rule = r := by
  have hemend : ∀ r ∈ k.original, ∃ e ∈ x.rules, e.rule = r ∧ k.emend e ∈ (k.expansion x d).rules := by
    intro r hr
    obtain ⟨e, he, rfl⟩ := hentry r hr
    exact ⟨e, he, rfl, List.mem_append_left _ (List.mem_map_of_mem he)⟩
  intro r hr
  rcases List.mem_cons.1 (k.perm_result.mem_iff.1 hr) with rfl | hr
  · exact ⟨d, List.mem_append_right _ (List.mem_singleton_self d), hd⟩
  rcases List.mem_cons.1 hr with rfl | hr
  · obtain ⟨e, -, he, hmem⟩ := hemend k.rule (k.perm_original.mem_iff.2 List.mem_cons_self)
    refine ⟨k.emend e, hmem, ?_⟩
    rw [emend, if_pos he]
  · -- a rule beside the one that is changed
    obtain ⟨e, -, rfl, hmem⟩ := hemend r (k.perm_original.mem_iff.2 (List.mem_cons_of_mem _ hr))
    have hnodup := k.perm_original.nodup_iff.1 (List.Nodup.of_map _ hids)
    have hne : e.rule ≠ k.rule := by
      intro heq
      rw [heq] at hr
      exact (List.nodup_cons.1 hnodup).1 hr
    refine ⟨k.emend e, hmem, ?_⟩
    rw [emend, if_neg hne]

/-- A group that folds to tidy texts only may be a rule as well: the new grammar generates, and all rules that were
there have the same marked texts and the same utterances in it. -/
theorem generate_result {source : Text} (hsource : parse source = .ok k.original)
    (hx : (generate k.original).outcome = .ok x)
    (htidy : ∀ texts, Sequence.expand x.lookup k.rule.id k.inner = .ok texts → ∀ s ∈ texts, s.Tidy) :
    ∃ y, (generate k.result).outcome = .ok y ∧
      ∀ r ∈ k.original, ∃ e e', x.get? r.id = some e ∧ y.get? r.id = some e' ∧
        e'.marked = e.marked ∧ e'.utterances = e.utterances := by
  obtain ⟨order, horder, hann⟩ := annotates_of_generate hsource hx
  obtain ⟨hsettled, hids, hperm⟩ := settled_of_generate hx
  have hwell : WellNamed k.original := (resolve_eq_ok_iff.1 horder).1
  have horiginal : x.order.Perm (ids k.original) := by
    rw [hann.order_eq]
    exact (perm_of_resolve horder).map Rule.id
  have hnew : ∀ r ∈ k.original, ∀ id ∈ r.references, id ≠ k.name := by
    rintro r hr id hid rfl
    exact k.fresh (hwell.defined r hr k.name hid)
  have hrule : k.rule ∈ k.original := k.perm_original.mem_iff.2 List.mem_cons_self
  obtain ⟨d, hadded, hfolds⟩ := exists_added (expressible_of_parse hsource) hann.denoting
    (fun id hid => horiginal.mem_iff.2 (hwell.defined k.rule hrule id hid)) htidy
  have hd : d.rule = k.added := Rule.rule_of_expand hadded
  have hsettled' := settled_expansion hsettled hadded hfolds hnew fun e he =>
    hperm.mem_iff.1 (List.mem_map_of_mem he)
  have hids' : (k.expansion x d).order.Nodup := by
    rw [order_expansion hd, ← List.concat_eq_append, List.nodup_concat, horiginal.mem_iff]
    exact ⟨k.fresh, hids⟩
  obtain ⟨order', horder'⟩ := k.exists_order horder
  obtain ⟨y, hy, -, hyields⟩ := yieldsAs_of_settled hsettled' hids' horder'
    (exists_entry hd hwell.nodup fun r hr => List.mem_map.1 (hperm.mem_iff.2 hr))
  refine ⟨y, hy, ?_⟩
  intro r hr
  -- the rule, or what it has become
  obtain ⟨s, hs, hid⟩ : ∃ s ∈ k.result, s.id = r.id := by
    rcases List.mem_cons.1 (k.perm_original.mem_iff.1 hr) with rfl | hr
    · exact ⟨k.emended, k.perm_result.mem_iff.2 (List.mem_cons_of_mem _ List.mem_cons_self), rfl⟩
    · exact ⟨r, k.perm_result.mem_iff.2 (List.mem_cons_of_mem _ (List.mem_cons_of_mem _ hr)), rfl⟩
  obtain ⟨e', -, he', hy'⟩ := hyields s hs
  have hne : k.name ≠ r.id := by
    rintro heq
    exact k.fresh (heq ▸ List.mem_map_of_mem hr)
  rw [hid, get?_expansion hd, if_neg hne] at he'
  obtain ⟨e, he, rfl⟩ := Option.map_eq_some_iff.1 he'
  rw [hid] at hy'
  exact ⟨e, k.emend e, he, hy', k.marked_emend e, k.utterances_emend e⟩

end Extraction

/-- A ride, perhaps with a city to ride to. -/
def rideRule : Rule :=
  ⟨"Ride", .intent, [[.literals ["ride".toList] false],
    [.group [[.literals ["to".toList] false], [.reference "CITY" false]] true]]⟩

/-- The way to the city gets a name. -/
def rideExtraction : Extraction where
  front := []
  rule := rideRule
  rear := [cityRule]
  inner := [[.literals ["to".toList] false], [.reference "CITY" false]]
  optional := true
  name := "WAY"
  body := [[.literals ["ride".toList] false], [.reference "WAY" true]]
  before := [⟨"Ride", .intent, [[.literals ["ride".toList] false], [.reference "WAY" true]]⟩]
  behind := [cityRule]
  fresh := by decide
  replaces := .here [[.literals ["ride".toList] false]] [] [] []
  split := rfl

/-- The texts of the rides. -/
def rideExpansion : Expansion where
  rules :=
    let prague : Entity := ⟨"CITY", "Prague".toList, 0, 6⟩
    let brno : Entity := ⟨"CITY", "Brno".toList, 0, 4⟩
    [⟨cityRule, [Markup.wrap "CITY" "Prague".toList, Markup.wrap "CITY" "Brno".toList],
        [⟨"Prague".toList, [prague]⟩, ⟨"Brno".toList, [brno]⟩]⟩,
      ⟨rideRule,
        ["ride to ".toList ++ Markup.wrap "CITY" "Prague".toList,
          "ride to ".toList ++ Markup.wrap "CITY" "Brno".toList, "ride".toList],
        [⟨"ride to Prague".toList, [prague.shift 8]⟩, ⟨"ride to Brno".toList, [brno.shift 8]⟩,
          ⟨"ride".toList, []⟩]⟩]

/-- Rides, with the way to the city taken out of the rule. -/
theorem generate_result_rides :
    parse "intent Ride: [ride], ([to], CITY)?; entity CITY: [Prague, Brno];".toList =
        .ok rideExtraction.original ∧
      (generate rideExtraction.original).outcome = .ok rideExpansion ∧
      (∀ texts, Sequence.expand rideExpansion.lookup "Ride" rideExtraction.inner = .ok texts →
        ∀ s ∈ texts, s.Tidy) ∧
      ∃ y, (generate rideExtraction.result).outcome = .ok y ∧
        ∀ r ∈ rideExtraction.original, ∃ e e', rideExpansion.get? r.id = some e ∧
          y.get? r.id = some e' ∧ e'.marked = e.marked ∧ e'.utterances = e.utterances := by
  have hsource : parse "intent Ride: [ride], ([to], CITY)?; entity CITY: [Prague, Brno];".toList =
      .ok rideExtraction.original := by decide +kernel
  have hx : (generate rideExtraction.original).outcome = .ok rideExpansion := by decide +kernel
  have htidy : ∀ texts,
      Sequence.expand rideExpansion.lookup "Ride" rideExtraction.inner = .ok texts →
        ∀ s ∈ texts, s.Tidy := by
    have hfolds : Sequence.expand rideExpansion.lookup "Ride" rideExtraction.inner =
        .ok ["to ".toList ++ Markup.wrap "CITY" "Prague".toList,
          "to ".toList ++ Markup.wrap "CITY" "Brno".toList] := by decide +kernel
    intro texts htexts
    rw [hfolds] at htexts
    rw [← Except.ok.inj htexts]
    decide
  exact ⟨hsource, hx, htidy, Extraction.generate_result hsource hx htidy⟩

end Grammar

end UtteranceGrammar
