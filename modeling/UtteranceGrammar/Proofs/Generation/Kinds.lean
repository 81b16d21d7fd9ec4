/-
What becomes of a grammar whose rules change their kinds.

Whether a rule is an entity decides on the spans around its results, and a span has a part in how they are
trimmed: white space is cut only as far as no span starts or ends in it. So the kinds could be seen in the
texts. They cannot be where there is nothing to trim, that is where all that a pattern folds to is a text that
is not blank and has no white space at its ends (`Rule.FoldsTidy`). Cleaning then leaves everything as it is,
with or without spans, and all that a kind does is to add one span behind the others.

The two generations are compared by `Utterance.AgreeOn`: the same text, and the same spans as far as their names
count. Joining keeps that relation. A rule that is an entity in both grammars puts the same span around both
results; one that is an entity in one of them only has a name that does not count. So the relation is carried
along the order of expansion, from the rules referred to to the rule that refers to them
(`Grammar.generate_withKinds`).
-/
import UtteranceGrammar.Proofs.Generation.Spans
import UtteranceGrammar.Proofs.Validation.Acceptance

set_option autoImplicit false

namespace UtteranceGrammar

/-! ## Utterances that agree -/

namespace Utterance

/-- The spans whose names count, in their order. -/
def counted (counts : Name → Bool) (u : Utterance) : List Entity :=
  u.entities.filter fun e => counts e.name

/-- The same text, and the same spans as far as their names count. -/
structure AgreeOn (counts : Name → Bool) (u v : Utterance) : Prop where
  text : u.text = v.text
  counted : u.counted counts = v.counted counts

variable {counts : Name → Bool} {u v u' v' : Utterance}

theorem AgreeOn.refl (u : Utterance) : u.AgreeOn counts u := ⟨rfl, rfl⟩

theorem AgreeOn.symm (h : u.AgreeOn counts v) : v.AgreeOn counts u := ⟨h.text.symm, h.counted.symm⟩

/-- The spans that count in a joined text, those of its right part moved. -/
theorem counted_spaced (l r : Utterance) :
    (l.spaced r).counted counts =
      (r.counted counts).map (Entity.shift (l.text.length + 1)) ++ l.counted counts := by
  rw [Utterance.counted, spaced, List.filter_append, List.filter_map]
  rfl

/-- A label adds a span that counts if its name does. -/
theorem counted_labelled (name : Name) (u : Utterance) :
    (u.labelled name).counted counts =
      u.counted counts ++ if counts name then [⟨name, u.text, 0, u.text.length⟩] else [] := by
  rw [Utterance.counted, labelled, List.filter_append, List.filter_singleton, Bool.cond_eq_ite]
  rfl

/-- Joining keeps agreement. -/
theorem AgreeOn.spaced (h : u.AgreeOn counts v) (h' : u'.AgreeOn counts v') :
    (u.spaced u').AgreeOn counts (v.spaced v') := by
  refine ⟨?_, ?_⟩
  · rw [Utterance.spaced, Utterance.spaced, h.text, h'.text]
  · rw [counted_spaced, counted_spaced, h.text, h.counted, h'.counted]

/-- A label on both sides keeps agreement. -/
theorem AgreeOn.labelled (h : u.AgreeOn counts v) (name : Name) :
    (u.labelled name).AgreeOn counts (v.labelled name) := by
  refine ⟨h.text, ?_⟩
  rw [counted_labelled, counted_labelled, h.counted, h.text]

/-- A span whose name does not count makes no difference. -/
theorem AgreeOn.labelled_left (h : u.AgreeOn counts v) {name : Name} (hname : counts name = false) :
    (u.labelled name).AgreeOn counts v := by
  refine ⟨h.text, ?_⟩
  rw [counted_labelled, hname, h.counted]
  exact List.append_nil _

end Utterance

/-- Joining keeps agreement. -/
theorem keeps_agreeOn (counts : Name → Bool) :
    Interpretation.Keeps (Utterance.AgreeOn counts) .annotated .annotated :=
  ⟨fun hl hr => hl.spaced hr, .refl _⟩

/-! ## One rule -/

namespace Rule

/-- All that the rule's pattern folds to, once its marks are taken out, is a text that is not blank and has no
white space at its ends. -/
def FoldsTidy (lookup : Lookup) (r : Rule) : Prop :=
  ∀ texts, Sequence.expand lookup r.id r.body = .ok texts →
    ∀ s ∈ texts, ∀ u, Markup.decode s = .ok u → u.text.Tidy

theorem toOption_eq_some_iff {ε α : Type} {e : Except ε α} {a : α} :
    e.toOption = some a ↔ e = .ok a := by
  cases e <;> simp [Except.toOption]

instance (lookup : Lookup) (r : Rule) : Decidable (r.FoldsTidy lookup) :=
  decidable_of_iff
    (∀ texts ∈ (Sequence.expand lookup r.id r.body).toOption, ∀ s ∈ texts,
      ∀ u ∈ (Markup.decode s).toOption, u.text.Tidy)
    (by simp only [Option.mem_def, toOption_eq_some_iff, FoldsTidy])

/-- The rule under another kind. -/
def withKind (r : Rule) (kind : RuleKind) : Rule := { r with kind := kind }

/-- What is tidy needs no cleaning. -/
theorem annotate_of_tidy {table : Name → List Utterance} {r : Rule}
    (h : ∀ u ∈ Sequence.evaluate .annotated table r.body, u.text.Tidy) :
    r.annotate table =
      if r.kind = .entity then (Sequence.evaluate .annotated table r.body).map (Utterance.labelled r.id)
      else Sequence.evaluate .annotated table r.body := by
  rw [annotate]
  split
  · exact Utterance.clean_map_labelled r.id _
  · exact Utterance.clean_of_tidy h

/-- A rule under two kinds, with references that agree: its utterances agree, as its name counts only if both
kinds put a span around them. -/
theorem forall₂_annotate {counts : Name → Bool} {table table' : Name → List Utterance} {r : Rule}
    {kind : RuleKind} (hcounts : counts r.id = true ↔ r.kind = .entity ∧ kind = .entity)
    (htidy : ∀ u ∈ Sequence.evaluate .annotated table r.body, u.text.Tidy)
    (href : ∀ id ∈ r.references, List.Forall₂ (Utterance.AgreeOn counts) (table id) (table' id)) :
    List.Forall₂ (Utterance.AgreeOn counts) (r.annotate table) ((r.withKind kind).annotate table') := by
  have hbody : List.Forall₂ (Utterance.AgreeOn counts) (Sequence.evaluate .annotated table r.body)
      (Sequence.evaluate .annotated table' r.body) :=
    Sequence.forall₂_evaluate (keeps_agreeOn counts) r.body (fun s _ => .refl _) href
  -- the texts are the same, so those of the second evaluation are tidy too
  have htidy' : ∀ v ∈ Sequence.evaluate .annotated table' r.body, v.text.Tidy := by
    intro v hv
    obtain ⟨u, hu, huv⟩ := exists_of_forall₂ hbody hv
    rw [← huv.text]
    exact htidy u hu
  rw [annotate_of_tidy htidy, annotate_of_tidy (r := r.withKind kind) htidy']
  change List.Forall₂ _ _ (if kind = .entity
    then (Sequence.evaluate .annotated table' r.body).map (Utterance.labelled r.id)
    else Sequence.evaluate .annotated table' r.body)
  by_cases hr : r.kind = .entity
  · by_cases hkind : kind = .entity
    · rw [if_pos hr, if_pos hkind]
      exact List.rel_map (fun _ _ h => h.labelled r.id) hbody
    · -- only the first result is enclosed, in a span that does not count
      have hname : counts r.id = false := by
        rw [← Bool.not_eq_true, hcounts]
        exact fun h => hkind h.2
      rw [if_pos hr, if_neg hkind, List.forall₂_map_left_iff]
      exact hbody.imp fun _ _ h => h.labelled_left hname
  · have hname : counts r.id = false := by
      rw [← Bool.not_eq_true, hcounts]
      exact fun h => hr h.1
    by_cases hkind : kind = .entity
    · rw [if_neg hr, if_pos hkind, List.forall₂_map_right_iff]
      exact hbody.imp fun _ _ h => (h.symm.labelled_left hname).symm
    · rw [if_neg hr, if_neg hkind]
      exact hbody

/-- What the pattern folds to over utterances is tidy, if it is so over marked texts. -/
theorem FoldsTidy.evaluate {x : Expansion} {r : Rule} (h : r.FoldsTidy x.lookup) (hr : r.Expressible)
    (hx : x.Denoting) (href : ∀ id ∈ r.references, id ∈ x.order) :
    ∀ u ∈ Sequence.evaluate .annotated x.utterancesOf r.body, u.text.Tidy := by
  have hexpand : Sequence.expand x.lookup r.id r.body =
      .ok (Sequence.evaluate .marked x.lookup.table r.body) := by
    rw [Sequence.expand_of_found fun id hid => Expansion.isSome_lookup.2 (href id hid), ← isHollow,
      hr.not_hollow]
    rfl
  intro u hu
  obtain ⟨marked, hmarked, hdenotes⟩ := exists_of_forall₂ (hx.forall₂_evaluate hr.markable) hu
  exact h _ hexpand marked hmarked u hdenotes.decode_eq

end Rule

/-! ## Other kinds -/

namespace Grammar

variable {g : Grammar} {kinds : Rule → RuleKind}

/-- The grammar with its rules under other kinds. -/
def withKinds (kinds : Rule → RuleKind) (g : Grammar) : Grammar := g.map fun r => r.withKind (kinds r)

/-- Whether the name is that of a rule that is an entity and stays one. -/
def staysEntity (g : Grammar) (kinds : Rule → RuleKind) (name : Name) : Bool :=
  g.any fun r => decide (r.id = name ∧ r.kind = .entity ∧ kinds r = .entity)

/-- Names being unique, it is the rule itself that has to stay an entity. -/
theorem staysEntity_iff (hids : (ids g).Nodup) {r : Rule} (hr : r ∈ g) :
    g.staysEntity kinds r.id = true ↔ r.kind = .entity ∧ kinds r = .entity := by
  rw [staysEntity, List.any_eq_true]
  constructor
  · rintro ⟨s, hs, h⟩
    obtain ⟨hid, hkinds⟩ := of_decide_eq_true h
    obtain rfl := eq_of_id_eq hids hs hr hid
    exact hkinds
  · intro hkinds
    exact ⟨r, hr, decide_eq_true ⟨rfl, hkinds⟩⟩

theorem ids_withKinds : ids (g.withKinds kinds) = ids g := by
  rw [ids, withKinds, List.map_map]
  rfl

/-- The walk through the dependencies does not look at kinds. -/
theorem dependencyWalk_withKinds : dependencyWalk (g.withKinds kinds) = dependencyWalk g := by
  have hgraph : dependencies (g.withKinds kinds) = dependencies g := by
    rw [dependencies, withKinds, List.flatMap_map]
    rfl
  have hroots : dependents (g.withKinds kinds) = dependents g := by
    rw [dependents, withKinds, List.filter_map, List.map_map]
    rfl
  rw [dependencyWalk, hgraph, hroots, dependencyWalk]

/-- Resolution does not look at kinds, but to find rules unused. -/
theorem exists_order_withKinds (kinds : Rule → RuleKind) {order : List Rule}
    (h : (resolve g).order = .ok order) :
    ∃ order', (resolve (g.withKinds kinds)).order = .ok order' := by
  obtain ⟨hg, hcycles, -⟩ := resolve_eq_ok_iff.1 h
  refine ⟨_, resolve_eq_ok_iff.2 ⟨⟨?_, ?_⟩, ?_, rfl⟩⟩
  · rw [ids_withKinds]
    exact hg.nodup
  · intro r hr
    obtain ⟨s, hs, rfl⟩ := List.mem_map.1 hr
    rw [ids_withKinds]
    exact hg.defined s hs
  · rw [dependencyWalk_withKinds]
    exact hcycles

/-- Whether a grammar can be written does not depend on its kinds. -/
theorem Expressible.withKinds (hg : g.Expressible) : (g.withKinds kinds).Expressible := by
  intro r hr
  obtain ⟨s, hs, rfl⟩ := List.mem_map.1 hr
  exact ⟨(hg s hs).name, (hg s hs).body_ne_nil, (hg s hs).body⟩

end Grammar

/-! ## Generation -/

namespace Expansion.Annotates

variable {x x' : Expansion} {order order' : List Rule}

/-- The utterances of a grammar agree with those of the grammar under other kinds, along the order of
expansion. -/
theorem forall₂_withKinds {g : Grammar} {kinds : Rule → RuleKind} (hx : x.Annotates order)
    (hx' : x'.Annotates order') (hg : g.Expressible) (horder : (g.resolve).order = .ok order)
    (horder' : (g.withKinds kinds).resolve.order = .ok order')
    (htidy : ∀ r ∈ g, r.FoldsTidy x.lookup) :
    ∀ r ∈ order, List.Forall₂ (Utterance.AgreeOn (g.staysEntity kinds)) (x.utterancesOf r.id)
      (x'.utterancesOf r.id) := by
  have hids := Grammar.nodup_ids_of_resolve horder
  have hids' := Grammar.nodup_ids_of_resolve horder'
  have hord := Grammar.ordered_of_resolve horder
  refine hord.induct hids ?_
  intro r hr ih
  have hmem : r ∈ g := (Grammar.perm_of_resolve horder).mem_iff.1 hr
  have hmem' : r.withKind (kinds r) ∈ order' :=
    (Grammar.perm_of_resolve horder').mem_iff.2 (List.mem_map_of_mem hmem)
  have href : ∀ id ∈ r.references, id ∈ x.order := by
    intro id hid
    rw [hx.order_eq]
    exact hord.mem_ids hr hid
  obtain ⟨-, -, heq⟩ := hx.utterancesOf_eq hids hr
  obtain ⟨-, -, heq'⟩ := hx'.utterancesOf_eq hids' hmem'
  rw [heq]
  change List.Forall₂ _ _ (x'.utterancesOf (r.withKind (kinds r)).id)
  rw [heq']
  refine Rule.forall₂_annotate ?_ ?_ ?_
  · exact Grammar.staysEntity_iff (Grammar.resolve_eq_ok_iff.1 horder).1.nodup hmem
  · exact (htidy r hmem).evaluate (hg r hmem) hx.denoting href
  · intro id hid
    obtain ⟨s, hs, rfl⟩ := List.mem_map.1 (hord.mem_ids hr hid)
    exact ih s hs hid

end Expansion.Annotates

namespace Grammar

/-- The kinds of the rules are not seen in the texts. If all that the patterns of a grammar fold to is tidy, then
under any other kinds the grammar generates too, each rule has the same texts, and the spans of the rules that are
entities in both grammars are the same, in the same order and at the same offsets. -/
theorem generate_withKinds {source : Text} {g : Grammar} {x : Expansion} (hsource : parse source = .ok g)
    (hx : (generate g).outcome = .ok x) (htidy : ∀ r ∈ g, r.FoldsTidy x.lookup)
    (kinds : Rule → RuleKind) :
    ∃ x', (generate (g.withKinds kinds)).outcome = .ok x' ∧
      ∀ r ∈ g, ∃ e e', x.get? r.id = some e ∧ x'.get? r.id = some e' ∧ e'.texts = e.texts ∧
        List.Forall₂ (fun u v => u.counted (g.staysEntity kinds) = v.counted (g.staysEntity kinds))
          e.utterances e'.utterances := by
  have hg := expressible_of_parse hsource
  obtain ⟨order, horder, hann⟩ := annotates_of_generate hsource hx
  obtain ⟨order', horder'⟩ := exists_order_withKinds kinds horder
  obtain ⟨x', hx', hann'⟩ := exists_annotates_of_resolve hg.withKinds horder'
  refine ⟨x', hx', ?_⟩
  intro r hr
  have hmem : r ∈ order := (perm_of_resolve horder).mem_iff.2 hr
  have hmem' : r.withKind (kinds r) ∈ order' :=
    (perm_of_resolve horder').mem_iff.2 (List.mem_map_of_mem hr)
  obtain ⟨e, he, -⟩ := hann.utterancesOf_eq (nodup_ids_of_resolve horder) hmem
  obtain ⟨e', (he' : x'.get? r.id = some e'), -⟩ :=
    hann'.utterancesOf_eq (nodup_ids_of_resolve horder') hmem'
  have hagree := hann.forall₂_withKinds hann' hg horder horder' htidy r hmem
  rw [Expansion.utterancesOf_of_get? he, Expansion.utterancesOf_of_get? he'] at hagree
  refine ⟨e, e', he, he', ?_, hagree.imp fun _ _ h => h.counted⟩
  have htexts : List.Forall₂ Eq (e.utterances.map Utterance.text) (e'.utterances.map Utterance.text) :=
    List.rel_map (fun _ _ h => h.text) hagree
  rw [ExpandedRule.texts, ExpandedRule.texts]
  exact (List.forall₂_eq_eq_eq ▸ htexts).symm

/-- Cities are no entities any more, and flights are ones. -/
def flightKinds (r : Rule) : RuleKind := if r.id = "CITY" then .plain else .entity

/-- Flights with cities no longer entities: the texts stay, and so do the spans of the ways. -/
theorem generate_withKinds_flights :
    parse "intent Fly: [fly], ROUTE?; entity ROUTE: [to], CITY; entity CITY: [Prague, Brno];".toList =
        .ok flights ∧
      (generate flights).outcome = .ok flightsExpansion ∧
      (∀ r ∈ flights, r.FoldsTidy flightsExpansion.lookup) ∧
      ∃ x', (generate (flights.withKinds flightKinds)).outcome = .ok x' ∧
        ∀ r ∈ flights, ∃ e e', flightsExpansion.get? r.id = some e ∧ x'.get? r.id = some e' ∧
          e'.texts = e.texts ∧
          List.Forall₂ (fun u v => u.counted (flights.staysEntity flightKinds) =
            v.counted (flights.staysEntity flightKinds)) e.utterances e'.utterances := by
  have htidy : ∀ r ∈ flights, r.FoldsTidy flightsExpansion.lookup := by decide +kernel
  exact ⟨parse_flights, generate_flights, htidy,
    generate_withKinds parse_flights generate_flights htidy flightKinds⟩

end Grammar

end UtteranceGrammar
