/-
White space in what is generated.

The texts of a rule are cleaned while their marks are still in them, and a mark is no white space. So cleaning does
not see white space behind a mark, nor that nothing at all stands between two of them, and an entity's texts have a
mark at either end. What is tidy for sure is the marked text. Taking the marks out leaves a tidy text unless a span
in it is not tidy itself (`Markup.Denotes.tidy`), and where a span comes from an entity, its text is what the
entity's pattern folds to, uncleaned.

Untidy texts have one source, the nothing that is left of two parts that may both be left out. In front of a rule
that is no entity, cleaning takes away what remains of it. Elsewhere it stays: at either end of an entity's text, and
beside the space that joins a group to other parts. Whether that happens is told by the outlines of the patterns.
All texts of a rule and of the rules that it refers to are tidy if and only if no outline of an entity among them
has white space at its ends (`Grammar.tidy_of_generate`), and they are sparse besides if and only if no outline has a
gap. Whether the texts of one rule are sparse, be they tidy or not, is told by its slots
(`Grammar.sparse_of_generate` says both).

The proofs go along the order of expansion. Towards the texts, what a rule refers to looks like a solid because it
has been dealt with before. Towards the outlines it does so by assumption, but there must be texts of it for an
outline to be met by one (`Expansion.Annotates.exists_inked`). With slots there is one way only, as they go with the
utterances one by one (`Expansion.Annotates.forall₂_traces`).
-/
import UtteranceGrammar.Proofs.Expansion.Outlines
import UtteranceGrammar.Proofs.Expansion.Slots
import UtteranceGrammar.Proofs.Generation.Independence
import UtteranceGrammar.Proofs.Generation.Spans

set_option autoImplicit false

namespace UtteranceGrammar

/-! ## Marks taken out -/

namespace Forest

/-- What begins with no white space does so without its marks, if its spans are tidy. -/
theorem solidStart_plain {f : Forest} {start : Nat} (hspans : ∀ e ∈ spans start f, e.text.Tidy)
    (h : Text.SolidStart f.render) : Text.SolidStart f.plain := by
  induction f using induct generalizing start with
  | nil => exact absurd h Text.not_solidStart_nil
  | text s f ih =>
    rw [render, Segment.render] at h
    rw [plain, Segment.plain]
    by_cases hs : s.1 = []
    · rw [hs, List.nil_append] at h ⊢
      exact ih hspans h
    · exact (h.of_append hs).append _
  | span name body f _ _ =>
    rw [spans, Segment.spans, List.cons_append, List.forall_mem_cons] at hspans
    rw [plain, Segment.plain]
    exact (Text.tidy_iff.1 hspans.1).1.append _

/-- What ends with no white space does so without its marks, if its spans are tidy. -/
theorem solidEnd_plain {f : Forest} {start : Nat} (hspans : ∀ e ∈ spans start f, e.text.Tidy)
    (h : Text.SolidEnd f.render) : Text.SolidEnd f.plain := by
  induction f using List.reverseRecOn with
  | nil => exact absurd h Text.not_solidEnd_nil
  | append_singleton f s ih =>
    rw [spans_append, List.forall_mem_append] at hspans
    rw [plain_append]
    cases s with
    | text s =>
      rw [render_append, render, render, Segment.render, List.append_nil] at h
      rw [plain, plain, Segment.plain, List.append_nil]
      by_cases hs : s.1 = []
      · rw [hs, List.append_nil] at h ⊢
        exact ih hspans.1 h
      · exact (h.of_append hs).append_left _
    | span name body =>
      rw [spans, Segment.spans, List.cons_append, List.forall_mem_cons] at hspans
      rw [plain, plain, Segment.plain, List.append_nil]
      exact (Text.tidy_iff.1 hspans.2.1).2.append_left _

end Forest

/-- A tidy marked text denotes an utterance with a tidy text, unless the text of a span in it is untidy. -/
theorem Markup.Denotes.tidy {marked : Text} {u : Utterance} (h : Markup.Denotes marked u)
    (hmarked : marked.Tidy) (hspans : ∀ e ∈ u.entities, e.text.Tidy) : u.text.Tidy := by
  obtain ⟨f, rfl, rfl⟩ := h
  have hall : ∀ e ∈ Forest.spans 0 f, e.text.Tidy := fun e he => hspans e (List.mem_reverse.2 he)
  rw [Text.tidy_iff] at hmarked ⊢
  exact ⟨f.solidStart_plain hall hmarked.1, f.solidEnd_plain hall hmarked.2⟩

/-- What is left by cleaning has been trimmed and is not empty. -/
theorem Rule.tidy_of_mem_clean {texts : List Text} {s : Text} (h : s ∈ clean texts) : s.Tidy := by
  obtain ⟨hmem, hne⟩ := List.mem_filter.1 h
  obtain ⟨t, -, rfl⟩ := List.mem_map.1 hmem
  rw [Bool.not_eq_true', List.isEmpty_eq_false_iff] at hne
  exact ⟨hne, Text.trim_trim t⟩

/-! ## One rule -/

namespace Rule

variable {table : Name → List Utterance} {r : Rule}

/-- The literal texts that can be written are tidy. -/
theorem Expressible.tidy (h : r.Expressible) : ∀ s ∈ r.items, s.Tidy := by
  intro s hs
  obtain ⟨hne, htrim, -⟩ := Sequence.AllExpressible.isItem r.body h.body s hs
  exact ⟨hne, htrim⟩

/-- An utterance of the rule and a result of its pattern differ in their spans and in white space at their ends. -/
theorem exists_trim_eq_of_mem_annotate {u : Utterance} (hu : u ∈ r.annotate table) :
    ∃ v ∈ Sequence.evaluate .annotated table r.body, Text.trim v.text = Text.trim u.text := by
  by_cases hkind : r.kind = .entity
  · rw [annotate_of_entity hkind] at hu
    obtain ⟨v, hv, rfl⟩ := List.mem_map.1 hu
    exact ⟨v, hv, rfl⟩
  · obtain ⟨v, hv, rfl⟩ := exists_of_mem_annotate hkind hu
    exact ⟨v, hv, v.trim_text_trim.symm⟩

/-- A result of the pattern is not lost if there is more in it than white space. -/
theorem exists_mem_annotate {v : Utterance} (hv : v ∈ Sequence.evaluate .annotated table r.body)
    (hinked : Text.trim v.text ≠ []) : ∃ u ∈ r.annotate table, Text.trim u.text = Text.trim v.text := by
  by_cases hkind : r.kind = .entity
  · rw [annotate_of_entity hkind]
    exact ⟨v.labelled r.id, List.mem_map_of_mem hv, rfl⟩
  · refine ⟨v.trim, ?_, v.trim_text_trim⟩
    have hne : v.trim.text ≠ [] := by
      intro hnil
      rw [← v.trim_text_trim, hnil] at hinked
      exact hinked rfl
    rw [annotate, if_neg hkind, Utterance.clean, List.mem_filter, Bool.not_eq_true', Utterance.isEmpty,
      Bool.and_eq_false_iff, List.isEmpty_eq_false_iff]
    exact ⟨List.mem_map_of_mem hv, .inl hne⟩

end Rule

/-! ## Along the order of expansion -/

namespace Expansion.Annotates

variable {x : Expansion} {rules : List Rule} (hx : x.Annotates rules) (hids : (Grammar.ids rules).Nodup)
  (hord : Grammar.Ordered rules) (hwritten : ∀ r ∈ rules, r.Expressible)

include hx hids hord hwritten

/-- There is an utterance of every rule, with more in it than white space. -/
theorem exists_inked : ∀ r ∈ rules, ∃ u ∈ x.utterancesOf r.id, Text.trim u.text ≠ [] := by
  refine hord.induct hids fun r hr ih => ?_
  obtain ⟨-, -, heq⟩ := hx.utterancesOf_eq hids hr
  have hbody : ∃ v ∈ Sequence.evaluate .annotated x.utterancesOf r.body, Text.trim v.text ≠ [] := by
    apply (hwritten r hr).exists_mem_evaluate
    · intro v w hv _ hnil
      rw [Text.trim_eq_nil_iff] at hnil
      exact hv (Text.trim_eq_nil_iff.2 fun c hc => hnil c (List.mem_append_left _ hc))
    · intro s hs hnil
      have htidy := (hwritten r hr).tidy s hs
      exact htidy.1 (htidy.2.symm.trans hnil)
    · exact hord.forall_references hr ih
  obtain ⟨v, hv, hinked⟩ := hbody
  obtain ⟨u, hu, htrim⟩ := Rule.exists_mem_annotate hv hinked
  rw [heq]
  exact ⟨u, hu, by rwa [htrim]⟩

/-- The outlines of a rule are those of what its pattern folds to, if all that it refers to looks like a solid. -/
theorem outlines_met {R : Outline → Utterance → Prop} (hkeeps : Interpretation.Keeps R .outlined .annotated)
    {r : Rule} (hr : r ∈ rules) (hlit : ∀ s ∈ r.items, R .solid (.ofText s))
    (href : ∀ id ∈ r.references, ∀ u ∈ x.utterancesOf id, R .solid u) :
    (∀ o ∈ r.outlines, ∃ u ∈ Sequence.evaluate .annotated x.utterancesOf r.body, R o u) ∧
      ∀ u ∈ Sequence.evaluate .annotated x.utterancesOf r.body, ∃ o ∈ r.outlines, R o u := by
  have hsome : ∀ id ∈ r.references, x.utterancesOf id ≠ [] := by
    refine hord.forall_references hr fun s hs _ => ?_
    obtain ⟨u, hu, -⟩ := hx.exists_inked hids hord hwritten s hs
    exact List.ne_nil_of_mem hu
  exact Rule.outlines_met hkeeps hlit fun id hid => ⟨hsome id hid, href id hid⟩

/-- The outlines of a rule tell of the ends of what its pattern folds to, if all that it refers to is tidy. -/
theorem bounds_met {r : Rule} (hr : r ∈ rules)
    (href : ∀ id ∈ r.references, ∀ u ∈ x.utterancesOf id, u.text.Tidy) :
    (∀ o ∈ r.outlines, ∃ u ∈ Sequence.evaluate .annotated x.utterancesOf r.body, o.Bounds u.text) ∧
      ∀ u ∈ Sequence.evaluate .annotated x.utterancesOf r.body, ∃ o ∈ r.outlines, o.Bounds u.text := by
  refine hx.outlines_met hids hord hwritten Outline.keeps_bounds hr (fun s hs => ?_) fun id hid u hu => ?_
  · exact Outline.bounds_solid ((hwritten r hr).tidy s hs)
  · exact Outline.bounds_solid (href id hid u hu)

/-- What the rule's pattern folds to fits its outlines, if no two spaces meet in what it refers to or says itself. -/
theorem fits_met {r : Rule} (hr : r ∈ rules) (hitems : ∀ s ∈ r.items, s.Sparse)
    (href : ∀ id ∈ r.references, ∀ u ∈ x.utterancesOf id, u.text.Tidy ∧ u.text.Sparse) :
    (∀ o ∈ r.outlines, ∃ u ∈ Sequence.evaluate .annotated x.utterancesOf r.body, o.Fits u.text) ∧
      ∀ u ∈ Sequence.evaluate .annotated x.utterancesOf r.body, ∃ o ∈ r.outlines, o.Fits u.text := by
  refine hx.outlines_met hids hord hwritten Outline.keeps_fits hr (fun s hs => ?_) fun id hid u hu => ?_
  · exact Outline.fits_solid ((hwritten r hr).tidy s hs) (hitems s hs)
  · exact Outline.fits_solid (href id hid u hu).1 (href id hid u hu).2

/-! ## Tidy texts -/

/-- If no entity among some rules has white space at the ends of its outlines, all texts and all spans of these
rules are tidy. The rules have to hold those that they refer to. -/
theorem tidy (hmarked : ∀ e ∈ x.rules, ∀ m ∈ e.marked, m.Tidy) {among : Rule → Prop}
    (hclosed : ∀ r s, s ∈ rules → s.id ∈ r.references → among r → among s)
    (hends : ∀ r ∈ rules, among r → r.kind = .entity → r.EndsSolid) :
    ∀ r ∈ rules, among r →
      ∀ u ∈ x.utterancesOf r.id, u.text.Tidy ∧ ∀ p ∈ u.labels, p.2.Tidy := by
  refine hord.induct hids fun r hr ih hamong u hu => ?_
  obtain ⟨e, hget, heq⟩ := hx.utterancesOf_eq hids hr
  have hrefs : ∀ id ∈ r.references, ∀ v ∈ x.utterancesOf id,
      v.text.Tidy ∧ ∀ p ∈ v.labels, p.2.Tidy :=
    hord.forall_references hr fun s hs hid => ih s hs hid (hclosed r s hs hid hamong)
  have hannotate := hu
  rw [heq] at hannotate
  have hlabels : ∀ p ∈ u.labels, p.2.Tidy ∨ r.kind = .entity ∧ p.2 = u.text := by
    intro p hp
    rcases Rule.label_of_mem_annotate hannotate hp with ⟨id, hid, v, hv, hpv⟩ | ⟨hkind, rfl⟩
    · exact .inl ((hrefs id hid v hv).2 p hpv)
    · exact .inr ⟨hkind, rfl⟩
  have htext : u.text.Tidy := by
    by_cases hkind : r.kind = .entity
    · rw [Rule.annotate_of_entity hkind] at hannotate
      obtain ⟨v, hv, rfl⟩ := List.mem_map.1 hannotate
      have hmet := hx.bounds_met hids hord hwritten hr fun id hid w hw => (hrefs id hid w hw).1
      obtain ⟨o, ho, hbounds⟩ := hmet.2 v hv
      exact hbounds.tidy_iff.2 (hends r hr hamong hkind o ho)
    · -- a tidy marked text denotes the utterance, and all spans in it are inherited
      have he : e ∈ x.rules := List.mem_reverse.1 (List.mem_of_find?_eq_some hget)
      rw [utterancesOf_of_get? hget] at hu
      obtain ⟨m, hm, hdenotes⟩ := exists_of_forall₂ (hx.denoting e he) hu
      refine hdenotes.tidy (hmarked e he m hm) fun d hd => ?_
      exact (hlabels _ (List.mem_map_of_mem hd)).resolve_right fun hown => hkind hown.1
  refine ⟨htext, fun p hp => ?_⟩
  rcases hlabels p hp with hp | ⟨-, hp⟩
  · exact hp
  · rw [hp]
    exact htext

/-- If the texts of an entity are tidy, and those of the rules that it refers to, no outline of it has white space at
its ends. -/
theorem endsSolid {r : Rule} (hr : r ∈ rules) (hkind : r.kind = .entity)
    (htidy : ∀ u ∈ x.utterancesOf r.id, u.text.Tidy)
    (href : ∀ id ∈ r.references, ∀ u ∈ x.utterancesOf id, u.text.Tidy) : r.EndsSolid := by
  intro o ho
  obtain ⟨v, hv, hbounds⟩ := (hx.bounds_met hids hord hwritten hr href).1 o ho
  obtain ⟨-, -, heq⟩ := hx.utterancesOf_eq hids hr
  rw [heq, Rule.annotate_of_entity hkind, List.forall_mem_map] at htidy
  exact hbounds.tidy_iff.1 (htidy v hv)

/-! ## Sparse texts -/

/-- If the texts of some rules are tidy and their outlines have no gap, the texts are sparse. -/
theorem sparse {among : Rule → Prop}
    (hclosed : ∀ r s, s ∈ rules → s.id ∈ r.references → among r → among s)
    (hitems : ∀ r ∈ rules, ∀ s ∈ r.items, s.Sparse)
    (htidy : ∀ r ∈ rules, among r → ∀ u ∈ x.utterancesOf r.id, u.text.Tidy)
    (hgap : ∀ r ∈ rules, among r → r.GapFree) :
    ∀ r ∈ rules, among r → ∀ u ∈ x.utterancesOf r.id, u.text.Sparse := by
  refine hord.induct hids fun r hr ih hamong u hu => ?_
  obtain ⟨-, -, heq⟩ := hx.utterancesOf_eq hids hr
  have htrim := (htidy r hr hamong u hu).2
  rw [heq] at hu
  obtain ⟨v, hv, hvtrim⟩ := Rule.exists_trim_eq_of_mem_annotate hu
  have hrefs : ∀ id ∈ r.references, ∀ w ∈ x.utterancesOf id, w.text.Tidy ∧ w.text.Sparse := by
    refine hord.forall_references hr fun s hs hid w hw => ?_
    have hsamong := hclosed r s hs hid hamong
    exact ⟨htidy s hs hsamong w hw, ih s hs hid hsamong w hw⟩
  obtain ⟨o, ho, hfits⟩ := (hx.fits_met hids hord hwritten hr (hitems r hr) hrefs).2 v hv
  rw [← htrim, ← hvtrim]
  exact hfits.sparse_iff.2 (hgap r hr hamong o ho)

/-- If the texts of a rule are tidy and sparse, and those of the rules that it refers to, no outline of it has a
gap. -/
theorem gapFree {r : Rule} (hr : r ∈ rules) (hitems : ∀ s ∈ r.items, s.Sparse)
    (htexts : ∀ u ∈ x.utterancesOf r.id, u.text.Tidy ∧ u.text.Sparse)
    (href : ∀ id ∈ r.references, ∀ u ∈ x.utterancesOf id, u.text.Tidy ∧ u.text.Sparse) : r.GapFree := by
  intro o ho
  obtain ⟨v, hv, hfits⟩ := (hx.fits_met hids hord hwritten hr hitems href).1 o ho
  rw [← hfits.sparse_iff]
  by_cases hnil : Text.trim v.text = []
  · rw [hnil]
    decide
  · obtain ⟨u, hu, htrim⟩ := Rule.exists_mem_annotate hv hnil
    obtain ⟨-, -, heq⟩ := hx.utterancesOf_eq hids hr
    rw [← heq] at hu
    obtain ⟨htidy, hsparse⟩ := htexts u hu
    rw [← htrim, htidy.2]
    exact hsparse

/-- The slots of a rule are those of its utterances, one by one, if no literal has two spaces side by side. -/
theorem forall₂_traces (hitems : ∀ r ∈ rules, ∀ s ∈ r.items, s.Sparse) :
    ∀ r ∈ rules, List.Forall₂ Traces (Grammar.slots rules r.id) (x.utterancesOf r.id) := by
  refine hord.induct hids fun r hr ih => ?_
  obtain ⟨-, -, heq⟩ := hx.utterancesOf_eq hids hr
  rw [hord.slots_eq hids r hr, heq]
  refine Rule.forall₂_traces (hwritten r hr).markable (fun s hs => ?_) (hord.forall_references hr ih)
  exact ⟨(hwritten r hr).tidy s hs, hitems r hr s hs⟩

/-! ## Texts and outlines -/

/-- The texts of some rules are tidy just if no entity among them has white space at the ends of its outlines. -/
theorem tidy_iff (hmarked : ∀ e ∈ x.rules, ∀ m ∈ e.marked, m.Tidy) {among : Rule → Prop}
    (hclosed : ∀ r s, s ∈ rules → s.id ∈ r.references → among r → among s) :
    (∀ r ∈ rules, among r → ∀ u ∈ x.utterancesOf r.id, u.text.Tidy) ↔
      ∀ r ∈ rules, among r → r.kind = .entity → r.EndsSolid := by
  constructor
  · intro htidy r hr hamong hkind
    apply hx.endsSolid hids hord hwritten hr hkind (htidy r hr hamong)
    exact hord.forall_references hr fun s hs hid => htidy s hs (hclosed r s hs hid hamong)
  · intro hends r hr hamong u hu
    exact (hx.tidy hids hord hwritten hmarked hclosed hends r hr hamong u hu).1

/-- They are tidy and sparse just if no outline of any of them has a gap either. -/
theorem sparse_iff (hmarked : ∀ e ∈ x.rules, ∀ m ∈ e.marked, m.Tidy) {among : Rule → Prop}
    (hclosed : ∀ r s, s ∈ rules → s.id ∈ r.references → among r → among s)
    (hitems : ∀ r ∈ rules, ∀ s ∈ r.items, s.Sparse) :
    (∀ r ∈ rules, among r → ∀ u ∈ x.utterancesOf r.id, u.text.Tidy ∧ u.text.Sparse) ↔
      ∀ r ∈ rules, among r → (r.kind = .entity → r.EndsSolid) ∧ r.GapFree := by
  have htidy := hx.tidy_iff hids hord hwritten hmarked hclosed
  constructor
  · intro htexts r hr hamong
    refine ⟨htidy.1 (fun s hs hsamong u hu => (htexts s hs hsamong u hu).1) r hr hamong, ?_⟩
    apply hx.gapFree hids hord hwritten hr (hitems r hr) (htexts r hr hamong)
    exact hord.forall_references hr fun s hs hid => htexts s hs (hclosed r s hs hid hamong)
  · intro hall
    have htidy' := htidy.2 fun r hr hamong => (hall r hr hamong).1
    intro r hr hamong u hu
    refine ⟨htidy' r hr hamong u hu, ?_⟩
    exact hx.sparse hids hord hwritten hclosed hitems htidy' (fun s hs hsamong => (hall s hs hsamong).2)
      r hr hamong u hu

end Expansion.Annotates

/-! ## All texts -/

/-- What holds of the entries of annotated rules holds of what is looked up under the rules' names. -/
theorem Expansion.Annotates.forall_entries_iff {x : Expansion} {rules : List Rule} (hx : x.Annotates rules)
    (hids : (Grammar.ids rules).Nodup) {among : Rule → Prop} {P : Utterance → Prop} :
    (∀ e ∈ x.rules, among e.rule → ∀ u ∈ e.utterances, P u) ↔
      ∀ r ∈ rules, among r → ∀ u ∈ x.utterancesOf r.id, P u := by
  rw [← hx.order_eq] at hids
  rw [← hx.rules_eq, List.forall_mem_map]
  refine forall₂_congr fun e he => ?_
  rw [utterancesOf_of_get? (get?_of_mem hids he)]

namespace Grammar

variable {source : Text} {g : Grammar} {x : Expansion}

/-- Marked texts are tidy, whatever the kind of the rule. -/
theorem tidy_marked_of_generate (hx : (generate g).outcome = .ok x) :
    ∀ e ∈ x.rules, ∀ m ∈ e.marked, m.Tidy := by
  intro e he m hm
  obtain ⟨texts, utterances, -, -, heq⟩ := Rule.expand_eq_ok_iff.1 ((settled_of_generate hx).1 e he)
  rw [heq] at hm
  exact Rule.tidy_of_mem_clean hm

/-- The rules reached from a rule by references hold those that they refer to. -/
theorem closed_reached {order : List Rule} (horder : (resolve g).order = .ok order) (r s t : Rule)
    (ht : t ∈ order) (href : t.id ∈ s.references) (hreach : Relation.ReflTransGen g.Refers r s) :
    Relation.ReflTransGen g.Refers r t :=
  hreach.tail ⟨(perm_of_resolve horder).mem_iff.1 ht, href⟩

/-- A text that is blank or has white space at its ends has a span in it of which the same is true. All texts of a
rule and of the rules that it refers to, be it through others, are tidy just if the patterns of the entities among
them leave no white space at the ends, whatever is left out. -/
theorem tidy_of_generate (hsource : parse source = .ok g) (hx : (generate g).outcome = .ok x) :
    ∀ r ∈ x.rules,
      (∀ u ∈ r.utterances, u.text.Tidy ∨ ∃ e ∈ u.entities, ¬e.text.Tidy) ∧
      ((∀ s ∈ x.rules, Relation.ReflTransGen g.Refers r.rule s.rule → ∀ u ∈ s.utterances, u.text.Tidy) ↔
        ∀ s ∈ x.rules, Relation.ReflTransGen g.Refers r.rule s.rule →
          s.rule.kind = .entity → s.rule.EndsSolid) := by
  obtain ⟨order, horder, hann⟩ := annotates_of_generate hsource hx
  have hids := nodup_ids_of_resolve horder
  have hmarked := tidy_marked_of_generate hx
  have hwritten : ∀ r ∈ order, r.Expressible := fun r hr =>
    expressible_of_parse hsource r ((perm_of_resolve horder).mem_iff.1 hr)
  intro r hr
  refine ⟨fun u hu => ?_, ?_⟩
  · obtain ⟨m, hm, hdenotes⟩ := exists_of_forall₂ (hann.denoting r hr) hu
    by_contra! hall
    exact hall.1 (hdenotes.tidy (hmarked r hr m hm) hall.2)
  · have htidy := hann.tidy_iff hids (ordered_of_resolve horder) hwritten hmarked (closed_reached horder r.rule)
    rw [hann.forall_entries_iff hids, htidy, ← hann.rules_eq, List.forall_mem_map]

/-- The flights, each rule with what tells whether its texts are tidy. -/
theorem tidy_of_generate_flights :
    parse "intent Fly: [fly], ROUTE?; entity ROUTE: [to], CITY; entity CITY: [Prague, Brno];".toList =
        .ok flights ∧
      (generate flights).outcome = .ok flightsExpansion ∧
      ∀ r ∈ flightsExpansion.rules,
        (∀ u ∈ r.utterances, u.text.Tidy ∨ ∃ e ∈ u.entities, ¬e.text.Tidy) ∧
        ((∀ s ∈ flightsExpansion.rules, Relation.ReflTransGen flights.Refers r.rule s.rule →
            ∀ u ∈ s.utterances, u.text.Tidy) ↔
          ∀ s ∈ flightsExpansion.rules, Relation.ReflTransGen flights.Refers r.rule s.rule →
            s.rule.kind = .entity → s.rule.EndsSolid) :=
  ⟨parse_flights, generate_flights, tidy_of_generate parse_flights generate_flights⟩

/-- An entity of which both parts may be left out. -/
def extraRule : Rule :=
  ⟨"EXTRA", .entity, [[.literals ["please".toList] true], [.literals ["now".toList] true]]⟩

/-- The texts of the entity, the last of them blank. -/
def extraExpansion : Expansion where
  rules :=
    let texts := ["please now".toList, "now".toList, "please".toList, []]
    [⟨extraRule, texts.map (Markup.wrap "EXTRA"),
      texts.map fun s => Utterance.labelled "EXTRA" (.ofText s)⟩]

/-- Not all texts are tidy: an entity can have a blank one. -/
theorem not_tidy_of_generate : ¬∀ (source : Text) (g : Grammar) (x : Expansion), parse source = .ok g →
    (generate g).outcome = .ok x → ∀ r ∈ x.rules, ∀ u ∈ r.utterances, u.text.Tidy := by
  intro hall
  have hsource : parse "entity EXTRA: [please]?, [now]?;".toList = .ok [extraRule] := by decide +kernel
  have hx : (generate [extraRule]).outcome = .ok extraExpansion := by decide +kernel
  have hblank : ¬∀ r ∈ extraExpansion.rules, ∀ u ∈ r.utterances, u.text.Tidy := by decide +kernel
  exact hblank (hall _ _ _ hsource hx)

/-- If no literal text has two spaces side by side, then the texts of a rule have none just if no two spaces meet in
its slots: in what its pattern, and those of the rules that it refers to, come to with one word for every literal.
And the texts of the rule and of the rules that it refers to, be it through others, have none and are tidy just if the
patterns of these rules leave no space beside another one, and those of the entities among them none at the ends,
whatever is left out. -/
theorem sparse_of_generate (hsource : parse source = .ok g) (hx : (generate g).outcome = .ok x)
    (hitems : ∀ r ∈ g, ∀ s ∈ r.items, s.Sparse) :
    ∀ r ∈ x.rules,
      ((∀ u ∈ r.utterances, u.text.Sparse) ↔
        ∀ p ∈ slots (x.rules.map ExpandedRule.rule) r.rule.id, Slot.GapFree p) ∧
      ((∀ s ∈ x.rules, Relation.ReflTransGen g.Refers r.rule s.rule →
          ∀ u ∈ s.utterances, u.text.Tidy ∧ u.text.Sparse) ↔
        ∀ s ∈ x.rules, Relation.ReflTransGen g.Refers r.rule s.rule →
          (s.rule.kind = .entity → s.rule.EndsSolid) ∧ s.rule.GapFree) := by
  obtain ⟨order, horder, hann⟩ := annotates_of_generate hsource hx
  have hids := nodup_ids_of_resolve horder
  have hord := ordered_of_resolve horder
  have hmem : ∀ r ∈ order, r ∈ g := fun r hr => (perm_of_resolve horder).mem_iff.1 hr
  have hwritten : ∀ r ∈ order, r.Expressible := fun r hr => expressible_of_parse hsource r (hmem r hr)
  have hsparse : ∀ r ∈ order, ∀ s ∈ r.items, s.Sparse := fun r hr => hitems r (hmem r hr)
  intro r hr
  constructor
  · have hrule : r.rule ∈ order := hann.rules_eq ▸ List.mem_map_of_mem hr
    have htraces := hann.forall₂_traces hids hord hwritten hsparse r.rule hrule
    rw [← hann.order_eq] at hids
    rw [Expansion.utterancesOf_of_get? (Expansion.get?_of_mem hids hr)] at htraces
    rw [hann.rules_eq]
    exact Traces.forall_sparse_iff htraces
  · have hboth := hann.sparse_iff hids hord hwritten (tidy_marked_of_generate hx)
      (closed_reached horder r.rule) hsparse
    rw [hann.forall_entries_iff hids, hboth, ← hann.rules_eq, List.forall_mem_map]

/-- The flights, each rule with what tells whether two spaces meet in its texts. -/
theorem sparse_of_generate_flights :
    parse "intent Fly: [fly], ROUTE?; entity ROUTE: [to], CITY; entity CITY: [Prague, Brno];".toList =
        .ok flights ∧
      (generate flights).outcome = .ok flightsExpansion ∧
      (∀ r ∈ flights, ∀ s ∈ r.items, s.Sparse) ∧
      ∀ r ∈ flightsExpansion.rules,
        ((∀ u ∈ r.utterances, u.text.Sparse) ↔
          ∀ p ∈ slots (flightsExpansion.rules.map ExpandedRule.rule) r.rule.id, Slot.GapFree p) ∧
        ((∀ s ∈ flightsExpansion.rules, Relation.ReflTransGen flights.Refers r.rule s.rule →
            ∀ u ∈ s.utterances, u.text.Tidy ∧ u.text.Sparse) ↔
          ∀ s ∈ flightsExpansion.rules, Relation.ReflTransGen flights.Refers r.rule s.rule →
            (s.rule.kind = .entity → s.rule.EndsSolid) ∧ s.rule.GapFree) := by
  have hitems : ∀ r ∈ flights, ∀ s ∈ r.items, s.Sparse := by decide +kernel
  exact ⟨parse_flights, generate_flights, hitems,
    sparse_of_generate parse_flights generate_flights hitems⟩

/-- Going home, with words between that may both be left out. -/
def homeRule : Rule :=
  ⟨"Go", .intent, [[.literals ["go".toList] false],
    [.group [[.literals ["please".toList] true], [.literals ["now".toList] true]] false],
    [.literals ["home".toList] false]]⟩

/-- The ways of going home, the last of them with two spaces. -/
def homeExpansion : Expansion where
  rules :=
    let texts := ["go please now home".toList, "go now home".toList, "go please home".toList,
      "go  home".toList]
    [⟨homeRule, texts, texts.map .ofText⟩]

/-- Two spaces can come to stand side by side although no literal text has two white-space characters so. -/
theorem not_sparse_of_generate : ¬∀ (source : Text) (g : Grammar) (x : Expansion), parse source = .ok g →
    (generate g).outcome = .ok x →
    (∀ r ∈ g, ∀ s ∈ r.items, s.IsChain fun c d => Text.isBlank c = true → Text.isBlank d = false) →
    ∀ r ∈ x.rules, ∀ u ∈ r.utterances, u.text.Sparse := by
  intro hall
  have hsource : parse "intent Go: [go], ([please]?, [now]?), [home];".toList = .ok [homeRule] := by
    decide +kernel
  have hx : (generate [homeRule]).outcome = .ok homeExpansion := by decide +kernel
  have hitems : ∀ r ∈ [homeRule], ∀ s ∈ r.items,
      s.IsChain fun c d => Text.isBlank c = true → Text.isBlank d = false := by decide +kernel
  have hspaces : ¬∀ r ∈ homeExpansion.rules, ∀ u ∈ r.utterances, u.text.Sparse := by decide +kernel
  exact hspaces (hall _ _ _ hsource hx hitems)

end Grammar

end UtteranceGrammar
