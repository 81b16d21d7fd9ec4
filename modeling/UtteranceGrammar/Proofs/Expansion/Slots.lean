/-
What stands where in the texts of a rule, computed from patterns alone.

Where two spaces meet in a text of a rule does not depend on what its literals say, as long as none of them brings
two spaces with it. It depends on where words, spaces and the edges of spans stand. These are the slots of a text.
Patterns can be evaluated over lists of slots, with one and the same word for every literal, and what a rule comes to
can be cleaned and handed on to the rules that refer to it (`Grammar.slots`).

Outlines do with less, but they take a solid for every rule that is referred to, and so tell of two spaces only where
the texts of these rules are tidy. Slots need no such condition. An entity's text may be blank or have white space
at its ends, since cleaning stops at a mark, and all that is needed to follow it into other texts is to know where
the edges are.

The texts with slots are those of forests, made of words and single spaces (`Forest.Woven`). Such a forest is joined,
wrapped and trimmed as its slots are, and no two spaces meet in its plain text just if none meet in its slots, edges
not counted (`Forest.Woven.sparse_iff`). So the slots of a rule are those of its utterances, one by one
(`Rule.forall₂_traces`).
-/
import Mathlib.Data.List.DropRight
import UtteranceGrammar.Proofs.Expansion.Annotation
import UtteranceGrammar.Proofs.Text.Spacing

set_option autoImplicit false

namespace UtteranceGrammar

/-- What stands at one place of a marked text, as far as spacing sees it. -/
inductive Slot where
  /-- A text without white space at its ends and without two spaces side by side, whatever it says. -/
  | word
  | space
  /-- The START of a span with its head, or its END. -/
  | edge
deriving DecidableEq, Repr

namespace Slot

/-- The slot of a text that is a space or a word. -/
def ofText (s : Text) : Slot := if s = [' '] then .space else .word

/-- Slots without the spaces in front of all others. -/
def trimStart (p : List Slot) : List Slot := p.dropWhile (· = .space)

/-- Slots without the spaces behind all others. -/
def trimEnd (p : List Slot) : List Slot := p.rdropWhile (· = .space)

/-- Slots without the spaces at their two ends. No edge is one, so spaces stay within a span. -/
def trim (p : List Slot) : List Slot := trimEnd (trimStart p)

/-- Trimmed lists of slots, those left out of which nothing remains. -/
def clean (ps : List (List Slot)) : List (List Slot) := (ps.map trim).filter (!·.isEmpty)

/-- No two spaces meet. Edges are not counted, as they are not in the text in the end. -/
def GapFree (p : List Slot) : Prop := (p.filter (· ≠ .edge)).IsChain fun a b => a = .space → b ≠ .space

instance (p : List Slot) : Decidable (GapFree p) := inferInstanceAs (Decidable (List.IsChain _ _))

end Slot

/-- Slots, a literal being a word whatever is in it. -/
def Interpretation.slotted : Interpretation (List Slot) := ⟨fun _ => [.word], fun l r => l ++ .space :: r, []⟩

/-! ## The slots of rules -/

/-- The slots of the rule's texts, given those of the rules that it refers to: what the pattern comes to, between two
edges if the rule is an entity, and cleaned. -/
def Rule.slots (table : Name → List (List Slot)) (r : Rule) : List (List Slot) :=
  let ps := Sequence.evaluate .slotted table r.body
  Slot.clean (if r.kind = .entity then ps.map fun p => .edge :: (p ++ [.edge]) else ps)

namespace Grammar

/-- The slots of the texts of rules, by name, for rules in an order that puts references first. -/
def slots (rules : List Rule) : Name → List (List Slot) :=
  rules.foldl (fun table r id => if id = r.id then r.slots table else table id) fun _ => []

/-- In a pattern `a, b, a`, nothing is left between the two words if nothing is left of `b`, and the spaces meet. They
do not if `b` is no entity, for then what is blank is left out altogether. -/
example :
    let hollow (kind : RuleKind) : Rule :=
      ⟨"b", kind, [[.literals [['x']] true], [.literals [['x']] true]]⟩
    let around : Rule :=
      ⟨"r", .intent, [[.literals [['a']] false], [.reference "b" false], [.literals [['a']] false]]⟩
    (¬∀ p ∈ slots [hollow .entity, around] "r", Slot.GapFree p) ∧
      ∀ p ∈ slots [hollow .plain, around] "r", Slot.GapFree p := by decide

/-- One more rule has the slots that come of those before it, and these stay. -/
theorem slots_append_singleton (rules : List Rule) (r : Rule) (id : Name) :
    slots (rules ++ [r]) id = if id = r.id then r.slots (slots rules) else slots rules id := by
  rw [slots, List.foldl_append]
  rfl

/-- In order, every rule has the slots that come of those of all rules. They are put together when its turn comes, and
then all is there that it refers to. -/
theorem Ordered.slots_eq {rules : List Rule} (hord : Ordered rules) (hids : (ids rules).Nodup) :
    ∀ r ∈ rules, slots rules r.id = r.slots (slots rules) := by
  induction rules using List.reverseRecOn with
  | nil => exact fun r hr => absurd hr List.not_mem_nil
  | append_singleton rules r ih =>
    obtain ⟨hnodup, hnew⟩ := nodup_ids_append_singleton.1 hids
    have hold : ∀ id ∈ ids rules, slots (rules ++ [r]) id = slots rules id := by
      intro id hid
      rw [slots_append_singleton, if_neg]
      rintro rfl
      exact hnew hid
    have hcongr : ∀ s : Rule, (∀ id ∈ s.references, id ∈ ids rules) →
        s.slots (slots (rules ++ [r])) = s.slots (slots rules) := by
      intro s hs
      rw [Rule.slots, Rule.slots, Sequence.evaluate_congr fun id hid => hold id (hs id hid)]
    rw [List.forall_mem_append, List.forall_mem_singleton]
    constructor
    · intro s hs
      rw [hold s.id (List.mem_map_of_mem hs), ih hord.of_append hnodup s hs,
        hcongr s fun id hid => hord.of_append.mem_ids hs hid]
    · rw [slots_append_singleton, if_pos rfl, hcongr r (hord rules r [] rfl)]

end Grammar

/-! ## The slots of a forest -/

mutual

/-- The texts in a segment, one by one. -/
def Segment.leaves : Segment → List Text
  | .text s => [s.1]
  | .span _ body => Forest.leaves body

/-- The texts in a forest, one by one. -/
def Forest.leaves : Forest → List Text
  | [] => []
  | s :: f => s.leaves ++ Forest.leaves f

end

mutual

/-- The slots of a segment, one for each text. -/
def Segment.slots : Segment → List Slot
  | .text s => [Slot.ofText s.1]
  | .span _ body => .edge :: (Forest.slots body ++ [.edge])

/-- The slots of a forest. -/
def Forest.slots : Forest → List Slot
  | [] => []
  | s :: f => s.slots ++ Forest.slots f

end

namespace Forest

/-- The texts of two forests, one forest after the other. -/
theorem leaves_append (f h : Forest) : leaves (f ++ h) = leaves f ++ leaves h := by
  induction f with
  | nil => rfl
  | cons s f ih => rw [List.cons_append, leaves, leaves, ih, List.append_assoc]

/-- The slots of two forests, one forest after the other. -/
theorem slots_append (f h : Forest) : slots (f ++ h) = slots f ++ slots h := by
  induction f with
  | nil => rfl
  | cons s f ih => rw [List.cons_append, slots, slots, ih, List.append_assoc]

/-- The plain text of a forest is made of its texts. -/
theorem flatten_leaves (f : Forest) : (leaves f).flatten = plain f := by
  induction f using induct with
  | nil => rfl
  | text s f ih => rw [leaves, plain, Segment.leaves, Segment.plain, List.singleton_append, List.flatten_cons, ih]
  | span name body f ihb ihf =>
    rw [leaves, plain, Segment.leaves, Segment.plain, List.flatten_append, ihb, ihf]

/-- Edges apart, the slots of a forest are those of its texts. -/
theorem filter_slots (f : Forest) : (slots f).filter (· ≠ .edge) = (leaves f).map Slot.ofText := by
  induction f using induct with
  | nil => rfl
  | text s f ih =>
    have hslot : Slot.ofText s.1 ≠ .edge := by
      rw [Slot.ofText]
      split <;> decide
    rw [slots, leaves, Segment.slots, Segment.leaves, List.singleton_append, List.singleton_append,
      List.filter_cons_of_pos (by simpa using hslot), ih, List.map_cons]
  | span name body f ihb ihf =>
    rw [slots, leaves, Segment.slots, Segment.leaves, List.map_append, ← ihb, ← ihf]
    simp

/-- The texts of the forest are single spaces, and texts that are tidy and sparse. -/
def Woven (f : Forest) : Prop := ∀ s ∈ leaves f, s = [' '] ∨ s.Tidy ∧ s.Sparse

end Forest

namespace Text

/-- A tidy text does not begin with a space. -/
theorem Tidy.exists_cons {s : Text} (h : s.Tidy) : ∃ c t, s = c :: t ∧ c ≠ ' ' := by
  obtain ⟨c, t, rfl, hc⟩ := (tidy_iff.1 h).1
  exact ⟨c, t, rfl, ne_space hc⟩

/-- So it is not a space itself, and its slot is that of a word. -/
theorem Tidy.ofText_eq {s : Text} (h : s.Tidy) : Slot.ofText s = .word := by
  obtain ⟨c, t, rfl, hc⟩ := h.exists_cons
  refine if_neg fun heq => ?_
  exact hc (List.cons.inj heq).1

/-- Words and spaces in a row begin with a space just if the first slot is one. -/
theorem head?_flatten {ss : List Text} (h : ∀ s ∈ ss, s = [' '] ∨ s.Tidy ∧ s.Sparse) :
    ss.flatten.head? = some ' ' ↔ (ss.map Slot.ofText).head? = some .space := by
  cases ss with
  | nil => simp
  | cons s ss =>
    rcases h s List.mem_cons_self with rfl | ⟨hs, -⟩
    · exact iff_of_true rfl rfl
    · rw [List.map_cons, hs.ofText_eq]
      obtain ⟨c, t, rfl, hc⟩ := hs.exists_cons
      simp [hc]

/-- No two spaces meet in words and spaces in a row just if no two slots in a row are spaces. A word has more than
white space at its ends, so a space beside it meets no other one there. -/
theorem sparse_flatten_iff {ss : List Text} (h : ∀ s ∈ ss, s = [' '] ∨ s.Tidy ∧ s.Sparse) :
    Sparse ss.flatten ↔ (ss.map Slot.ofText).IsChain fun a b => a = .space → b ≠ .space := by
  induction ss with
  | nil => exact iff_of_true (by decide) .nil
  | cons s ss ih =>
    have htail := ih fun t ht => h t (List.mem_cons_of_mem s ht)
    have hhead := head?_flatten fun t ht => h t (List.mem_cons_of_mem s ht)
    rw [List.flatten_cons, List.map_cons, List.isChain_cons, ← htail]
    rcases h s List.mem_cons_self with rfl | ⟨hs, hsparse⟩
    · rw [List.singleton_append, sparse_space_cons, Ne, hhead]
      refine and_congr_left' ?_
      constructor
      · rintro hne b hb - rfl
        exact hne hb
      · exact fun hall hspace => hall .space hspace rfl rfl
    · rw [sparse_append (tidy_iff.1 hs).2, hs.ofText_eq]
      refine and_congr_left' (iff_of_true hsparse fun b _ hword => ?_)
      exact absurd hword (by decide)

end Text

namespace Forest.Woven

variable {f h : Forest}

/-- No two spaces meet in the plain text of a woven forest just if none meet in its slots. -/
theorem sparse_iff (hf : f.Woven) : f.plain.Sparse ↔ Slot.GapFree f.slots := by
  rw [← flatten_leaves, Text.sparse_flatten_iff hf, Slot.GapFree, filter_slots]

/-- Woven forests one after the other are woven. -/
theorem append (hf : f.Woven) (hh : h.Woven) : Woven (f ++ h) := by
  rw [Woven, leaves_append, List.forall_mem_append]
  exact ⟨hf, hh⟩

/-! ## Trimming -/

/-- Trimming the front goes past single spaces, and stops at a word and at a span. -/
theorem exists_trimStart (hf : f.Woven) :
    ∃ h : Forest, h.Woven ∧ h.slots = Slot.trimStart f.slots ∧ h.utterance = f.utterance.trimStart := by
  induction f using induct with
  | nil => exact ⟨[], hf, rfl, rfl⟩
  | text s f ih =>
    rw [utterance_cons_text, slots, Segment.slots, List.singleton_append, Slot.trimStart]
    have hall := hf
    rw [Woven, leaves, Segment.leaves, List.singleton_append, List.forall_mem_cons] at hall
    rcases hall.1 with hspace | ⟨htidy, -⟩
    · obtain ⟨h, hh, hslots, hutterance⟩ := ih hall.2
      have hblank : ∀ c ∈ s.1, Text.isBlank c = true := hspace ▸ Text.isBlank_of_mem_space
      refine ⟨h, hh, ?_, ?_⟩
      · rw [hslots, hspace, List.dropWhile_cons_of_pos (by decide), Slot.trimStart]
      · rw [hutterance, Utterance.trimStart_indent_of_blank hblank]
    · have htrim := Text.trimStart_of_trim_eq htidy.2
      refine ⟨.text s :: f, hf, ?_, ?_⟩
      · rw [htidy.ofText_eq, List.dropWhile_cons_of_neg (by decide), slots, Segment.slots,
          htidy.ofText_eq, List.singleton_append]
      · rw [utterance_cons_text, Utterance.trimStart_indent_of_not_blank (by rw [htrim]; exact htidy.1), htrim]
  | span name body f _ _ =>
    refine ⟨.span name body :: f, hf, ?_, (trimStart_utterance_of_span name body f).symm⟩
    rw [slots, Segment.slots, Slot.trimStart, List.cons_append, List.dropWhile_cons_of_neg (by decide)]

/-- Trimming the end goes past single spaces, and stops at a word and at a span. -/
theorem exists_trimEnd (hf : f.Woven) :
    ∃ h : Forest, h.Woven ∧ h.slots = Slot.trimEnd f.slots ∧ h.utterance = f.utterance.trimEnd := by
  induction f using List.reverseRecOn with
  | nil => exact ⟨[], hf, rfl, rfl⟩
  | append_singleton f s ih =>
    have hall := hf
    rw [Woven, leaves_append, List.forall_mem_append, leaves, leaves, List.append_nil] at hall
    rw [slots_append, slots, slots, List.append_nil, Slot.trimEnd]
    cases s with
    | text s =>
      rw [Segment.leaves, List.forall_mem_singleton] at hall
      rw [utterance_append_text, Segment.slots]
      rcases hall.2 with hspace | ⟨htidy, -⟩
      · obtain ⟨h, hh, hslots, hutterance⟩ := ih hall.1
        have hblank : ∀ c ∈ s.1, Text.isBlank c = true := hspace ▸ Text.isBlank_of_mem_space
        refine ⟨h, hh, ?_, ?_⟩
        · rw [hslots, hspace, List.rdropWhile_concat_pos _ _ _ (by decide), Slot.trimEnd]
        · rw [hutterance, Utterance.trimEnd_extend_of_blank hblank (bounded_utterance f)]
      · have htrim := Text.trimEnd_of_trim_eq htidy.2
        refine ⟨f ++ [.text s], hf, ?_, ?_⟩
        · rw [htidy.ofText_eq, List.rdropWhile_concat_neg _ _ _ (by decide), slots_append, slots, slots,
            Segment.slots, htidy.ofText_eq, List.append_nil]
        · rw [utterance_append_text, Utterance.trimEnd_extend_of_not_blank (by rw [htrim]; exact htidy.1)
            (bounded_utterance f), htrim]
    | span name body =>
      refine ⟨f ++ [.span name body], hf, ?_, (trimEnd_utterance_of_span f name body).symm⟩
      have hlast : slots f ++ Segment.slots (.span name body)
          = (slots f ++ .edge :: slots body) ++ [.edge] := by
        rw [Segment.slots, List.append_assoc, List.cons_append]
      rw [hlast, List.rdropWhile_concat_neg _ _ _ (by decide), ← hlast, slots_append, slots, slots,
        List.append_nil]

end Forest.Woven

/-! ## The slots of an utterance -/

/-- The slots are those of a woven forest that stands for the utterance. -/
def Traces (p : List Slot) (u : Utterance) : Prop := ∃ f : Forest, f.Woven ∧ f.slots = p ∧ f.utterance = u

namespace Traces

variable {p q : List Slot} {u v : Utterance}

/-- An utterance's text is sparse just if no two spaces meet in its slots. -/
theorem sparse_iff (h : Traces p u) : u.text.Sparse ↔ Slot.GapFree p := by
  obtain ⟨f, hf, rfl, rfl⟩ := h
  exact hf.sparse_iff

/-- All texts of some utterances are sparse just if no two spaces meet in any of their slots. -/
theorem forall_sparse_iff {ps : List (List Slot)} {us : List Utterance} (h : List.Forall₂ Traces ps us) :
    (∀ u ∈ us, u.text.Sparse) ↔ ∀ p ∈ ps, Slot.GapFree p := by
  induction h with
  | nil => exact iff_of_true (fun u hu => absurd hu List.not_mem_nil) fun p hp => absurd hp List.not_mem_nil
  | cons hpu _ ih => rw [List.forall_mem_cons, List.forall_mem_cons, hpu.sparse_iff, ih]

/-- A word fills one slot. -/
theorem ofText {s : Text} (hfree : Markup.Free s) (htidy : s.Tidy) (hsparse : s.Sparse) :
    Traces [.word] (.ofText s) := by
  refine ⟨[.text ⟨s, hfree⟩], ?_, ?_, Forest.utterance_text _⟩
  · rw [Forest.Woven, Forest.leaves, Forest.leaves, Segment.leaves, List.append_nil, List.forall_mem_singleton]
    exact .inr ⟨htidy, hsparse⟩
  · rw [Forest.slots, Forest.slots, Segment.slots, List.append_nil, htidy.ofText_eq]

/-- Two utterances are joined by a space, and so are their slots. -/
theorem spaced (hl : Traces p u) (hr : Traces q v) : Traces (p ++ .space :: q) (u.spaced v) := by
  obtain ⟨f, hf, rfl, rfl⟩ := hl
  obtain ⟨h, hh, rfl, rfl⟩ := hr
  refine ⟨f ++ .text ⟨[' '], by decide⟩ :: h, hf.append ?_, ?_, Forest.utterance_append_space f h⟩
  · rw [Forest.Woven, Forest.leaves, Segment.leaves, List.singleton_append, List.forall_mem_cons]
    exact ⟨.inl rfl, hh⟩
  · rw [Forest.slots_append, Forest.slots, Segment.slots]
    rfl

/-- A span around an utterance has two edges. -/
theorem labelled {name : Name} (hname : ']' ∉ name.toList) (h : Traces p u) :
    Traces (.edge :: (p ++ [.edge])) (u.labelled name) := by
  obtain ⟨f, hf, rfl, rfl⟩ := h
  refine ⟨[.span ⟨name, hname⟩ f], ?_, ?_, Forest.utterance_span _ f⟩
  · rw [Forest.Woven, Forest.leaves, Forest.leaves, Segment.leaves, List.append_nil]
    exact hf
  · rw [Forest.slots, Forest.slots, Segment.slots, List.append_nil]

/-- An utterance is trimmed as its slots are, the same spaces being taken away from both. -/
theorem trim (h : Traces p u) : Traces (Slot.trim p) u.trim := by
  obtain ⟨f, hf, rfl, rfl⟩ := h
  obtain ⟨f₁, hf₁, hp₁, hu₁⟩ := hf.exists_trimStart
  obtain ⟨f₂, hf₂, hp₂, hu₂⟩ := hf₁.exists_trimEnd
  exact ⟨f₂, hf₂, by rw [hp₂, hp₁, Slot.trim], by rw [hu₂, hu₁, Utterance.trim]⟩

/-- There are no slots if there is neither text nor span: a word and a space have characters, and an edge is one of a
span. -/
theorem isEmpty_eq (h : Traces p u) : p.isEmpty = u.isEmpty := by
  obtain ⟨f, hf, rfl, rfl⟩ := h
  cases f with
  | nil => rfl
  | cons s f =>
    cases s with
    | text s =>
      have hne : s.1 ≠ [] := by
        have hs := hf s.1 (List.mem_append_left _ (List.mem_singleton_self _))
        rcases hs with hspace | ⟨htidy, -⟩
        · rw [hspace]
          decide
        · exact htidy.1
      rw [Forest.utterance_cons_text, Utterance.isEmpty, Utterance.indent]
      simp [Forest.slots, Segment.slots, hne]
    | span name body => simp [Forest.slots, Segment.slots, Forest.utterance, Forest.spans, Segment.spans,
        Utterance.isEmpty]

/-- Slots are cleaned as the utterances are that they are of. -/
theorem forall₂_clean {ps : List (List Slot)} {us : List Utterance} (h : List.Forall₂ Traces ps us) :
    List.Forall₂ Traces (Slot.clean ps) (Utterance.clean us) := by
  have htrim : List.Forall₂ Traces (ps.map Slot.trim) (us.map Utterance.trim) := by
    rw [List.forall₂_map_left_iff, List.forall₂_map_right_iff]
    exact h.imp fun _ _ h => h.trim
  refine List.rel_filter ?_ htrim
  intro p u h
  show (!p.isEmpty) = true ↔ (!u.isEmpty) = true
  rw [h.isEmpty_eq]

end Traces

/-- Joining slots joins the utterances that they are of. -/
theorem keeps_traces : Interpretation.Keeps Traces .slotted .annotated :=
  ⟨fun hl hr => hl.spaced hr, [], fun _ hs => absurd hs List.not_mem_nil, rfl, rfl⟩

/-- The slots of a rule are those of its utterances, one by one, if this is so for the rules that it refers to and if
its literals are words. -/
theorem Rule.forall₂_traces {table : Name → List (List Slot)} {table' : Name → List Utterance} {r : Rule}
    (hr : r.Markable) (hitems : ∀ s ∈ r.items, s.Tidy ∧ s.Sparse)
    (href : ∀ id ∈ r.references, List.Forall₂ Traces (table id) (table' id)) :
    List.Forall₂ Traces (r.slots table) (r.annotate table') := by
  have hbody : List.Forall₂ Traces (Sequence.evaluate .slotted table r.body)
      (Sequence.evaluate .annotated table' r.body) :=
    Sequence.forall₂_evaluate keeps_traces r.body
      (fun s hs => .ofText (hr.free s hs) (hitems s hs).1 (hitems s hs).2) href
  have hproduced : List.Forall₂ Traces
      (if r.kind = .entity
        then (Sequence.evaluate .slotted table r.body).map fun p => .edge :: (p ++ [.edge])
        else Sequence.evaluate .slotted table r.body)
      (if r.kind = .entity
        then (Sequence.evaluate .annotated table' r.body).map (Utterance.labelled r.id)
        else Sequence.evaluate .annotated table' r.body) := by
    split
    · rename_i hkind
      exact List.rel_map (fun _ _ h => h.labelled (hr.name hkind)) hbody
    · exact hbody
  exact Traces.forall₂_clean hproduced

end UtteranceGrammar
