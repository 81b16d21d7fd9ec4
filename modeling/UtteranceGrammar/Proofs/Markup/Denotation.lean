/-
What a marked text stands for.

A marked text denotes an utterance if some forest is written as the one and stands for the other.
Decoding then finds that very utterance (`Denotes.decode_eq`), so a well-formed text denotes one
utterance only. The point of the relation is that it is kept by everything that is done to marked
texts while a grammar is expanded: joining them with a space, wrapping them as spans and trimming
them each do to the utterance what the operation of the same name on utterances does.

Trimming goes through the forest from its two ends. Texts of white space fall away, the first other
segment stops the cut; if it is a text it is cut itself, and if it is a span nothing is, since the
marked text starts with START there and ends with END.
-/
import Mathlib.Data.List.Forall2
import Mathlib.Data.List.Induction
import Mathlib.Data.List.TakeWhile
import UtteranceGrammar.Expansion.Basic
import UtteranceGrammar.Proofs.Markup.Decoding

set_option autoImplicit false

namespace UtteranceGrammar

/-! ## Trimming a forest -/

namespace Forest

/-- A span in front has its start there, and nothing lies before it. -/
theorem trimStart_utterance_of_span (name : { n : Name // ']' ∉ n.toList }) (body f : Forest) :
    (utterance (.span name body :: f)).trimStart = utterance (.span name body :: f) := by
  have hmem : (⟨name.1, plain body, 0, 0 + (plain body).length⟩ : Entity)
      ∈ (utterance (.span name body :: f)).entities :=
    List.mem_reverse.2 List.mem_cons_self
  apply Utterance.trimStart_of_firstStart_eq_zero
  exact Nat.le_zero.1 (Utterance.firstStart_le_of_mem hmem)

/-- A span at the end has its stop there, and nothing lies behind it. -/
theorem trimEnd_utterance_of_span (f : Forest) (name : { n : Name // ']' ∉ n.toList })
    (body : Forest) :
    (utterance (f ++ [.span name body])).trimEnd = utterance (f ++ [.span name body]) := by
  have hmem : (⟨name.1, plain body, 0, (plain body).length⟩ : Entity).shift (plain f).length
      ∈ (utterance (f ++ [.span name body])).entities := by
    rw [utterance_append, utterance_span]
    refine List.mem_append_left _ (List.mem_map_of_mem ?_)
    exact List.mem_append_right _ List.mem_cons_self
  have hlength : (utterance (f ++ [.span name body])).text.length
      = (plain body).length + (plain f).length := by
    rw [utterance_append, plain, plain, Segment.plain, List.append_nil, List.length_append]
    exact Nat.add_comm _ _
  apply Utterance.trimEnd_of_length_le_lastStop
  rw [hlength]
  exact Utterance.le_lastStop_of_mem hmem

/-- Leading white space of a rendered forest is white space of its texts. -/
theorem exists_trimStart (f : Forest) :
    ∃ h : Forest, h.render = Text.trimStart f.render ∧ h.utterance = f.utterance.trimStart := by
  induction f using induct with
  | nil => exact ⟨[], rfl, rfl⟩
  | text s f ih =>
    rw [utterance_cons_text, render, Segment.render]
    by_cases hs : Text.trimStart s.1 = []
    · have hblank : ∀ c ∈ s.1, Text.isBlank c = true := List.dropWhile_eq_nil_iff.1 hs
      obtain ⟨h, hr, hu⟩ := ih
      refine ⟨h, ?_, ?_⟩
      · rw [hr, Text.trimStart, Text.trimStart, List.dropWhile_append_of_pos hblank]
      · rw [hu, Utterance.trimStart_indent_of_blank hblank]
    · refine ⟨.text ⟨Text.trimStart s.1, s.2.trimStart⟩ :: f, ?_, ?_⟩
      · have hne : ¬(s.1.dropWhile Text.isBlank).isEmpty = true := by
          rwa [List.isEmpty_iff]
        rw [render, Segment.render]
        simp only [Text.trimStart]
        rw [List.dropWhile_append, if_neg hne]
      · rw [utterance_cons_text, Utterance.trimStart_indent_of_not_blank hs]
  | span name body f _ _ =>
    refine ⟨.span name body :: f, ?_, ?_⟩
    · rw [render, Segment.render, Markup.wrap, List.cons_append, Text.trimStart,
        List.dropWhile_cons_of_neg (by decide)]
    · rw [trimStart_utterance_of_span]

/-- Trailing white space of a rendered forest is white space of its texts. -/
theorem exists_trimEnd (f : Forest) :
    ∃ h : Forest, h.render = Text.trimEnd f.render ∧ h.utterance = f.utterance.trimEnd := by
  induction f using List.reverseRecOn with
  | nil => exact ⟨[], rfl, rfl⟩
  | append_singleton f s ih =>
    rw [render_append]
    cases s with
    | text s =>
      rw [utterance_append_text, render, render, Segment.render, List.append_nil]
      by_cases hs : Text.trimEnd s.1 = []
      · have hblank := Text.isBlank_of_trimEnd_eq_nil hs
        obtain ⟨h, hr, hu⟩ := ih
        refine ⟨h, ?_, ?_⟩
        · rw [hr, Text.trimEnd_append_of_blank hblank]
        · rw [hu, Utterance.trimEnd_extend_of_blank hblank (bounded_utterance f)]
      · refine ⟨f ++ [.text ⟨Text.trimEnd s.1, s.2.trimEnd⟩], ?_, ?_⟩
        · rw [render_append, render, render, Segment.render, List.append_nil,
            Text.trimEnd_append_of_not_blank hs]
        · rw [utterance_append_text,
            Utterance.trimEnd_extend_of_not_blank hs (bounded_utterance f)]
    | span name body =>
      refine ⟨f ++ [.span name body], ?_, ?_⟩
      · have hlast : render f ++ render [.span name body]
            = (render f ++ Markup.spanStart :: '[' :: (name.1.toList ++ ']' :: render body))
              ++ [Markup.spanEnd] := by
          rw [render, render, Segment.render, Markup.wrap, List.append_nil]
          simp only [List.append_assoc, List.cons_append]
        rw [render_append, hlast, Text.trimEnd_append_of_not_blank (by decide)]
        rfl
      · rw [trimEnd_utterance_of_span]

/-- Two forests with a space between them stand for the two utterances joined by it. -/
theorem utterance_append_space (f h : Forest) :
    utterance (f ++ .text ⟨[' '], by decide⟩ :: h) = f.utterance.spaced h.utterance := by
  rw [utterance_append, utterance_cons_text]
  simp only [Utterance.spaced, Utterance.indent, utterance, List.map_map]
  congr 2
  refine List.map_congr_left fun e _ => ?_
  rw [Function.comp_apply, Entity.shift_shift, Nat.add_comm]
  rfl

end Forest

/-! ## Denotation -/

namespace Markup

/-- The marked text is well-formed and stands for the utterance. -/
def Denotes (marked : Text) (u : Utterance) : Prop :=
  ∃ f : Forest, f.render = marked ∧ f.utterance = u

namespace Denotes

variable {m l r : Text} {u v : Utterance}

/-- Decoding finds the utterance. -/
theorem decode_eq (h : Denotes m u) : decode m = .ok u := by
  obtain ⟨f, rfl, rfl⟩ := h
  rw [decode, Forest.extract_render]
  rfl

/-- A text without marks stands for itself, with no spans. -/
theorem ofText {s : Text} (h : Free s) : Denotes s (.ofText s) := by
  refine ⟨[.text ⟨s, h⟩], ?_, Forest.utterance_text _⟩
  rw [Forest.render, Forest.render, Segment.render, List.append_nil]

/-- Marked texts joined by a space stand for the utterances so joined. -/
theorem spaced (hl : Denotes l u) (hr : Denotes r v) :
    Denotes (Variants.spaced l r) (u.spaced v) := by
  obtain ⟨f, rfl, rfl⟩ := hl
  obtain ⟨k, rfl, rfl⟩ := hr
  refine ⟨f ++ .text ⟨[' '], by decide⟩ :: k, ?_, Forest.utterance_append_space f k⟩
  rw [Forest.render_append, Forest.render, Segment.render]
  rfl

/-- A text wrapped in a head and an END stands for the utterance with one more label. -/
theorem wrap {name : Name} (hname : ']' ∉ name.toList) (h : Denotes m u) :
    Denotes (Markup.wrap name m) (u.labelled name) := by
  obtain ⟨f, rfl, rfl⟩ := h
  refine ⟨[.span ⟨name, hname⟩ f], ?_, Forest.utterance_span _ f⟩
  rw [Forest.render, Forest.render, Segment.render, List.append_nil]

/-- Marked texts can be trimmed before decoding or behind it. -/
theorem trim (h : Denotes m u) : Denotes (Text.trim m) u.trim := by
  obtain ⟨f, rfl, rfl⟩ := h
  obtain ⟨f₁, hr₁, hu₁⟩ := f.exists_trimStart
  obtain ⟨f₂, hr₂, hu₂⟩ := f₁.exists_trimEnd
  exact ⟨f₂, by rw [hr₂, hr₁, Text.trim], by rw [hu₂, hu₁, Utterance.trim]⟩

/-- A marked text is empty if there is neither text nor span in it. -/
theorem eq_nil_iff (h : Denotes m u) : m = [] ↔ u.text = [] ∧ u.entities = [] := by
  obtain ⟨f, rfl, rfl⟩ := h
  induction f using Forest.induct with
  | nil => exact ⟨fun _ => ⟨rfl, rfl⟩, fun _ => rfl⟩
  | text s f ih =>
    rw [Forest.render, Segment.render, Forest.utterance_cons_text, List.append_eq_nil_iff, ih,
      Utterance.indent, List.append_eq_nil_iff, List.map_eq_nil_iff, and_assoc]
  | span name body f _ _ =>
    rw [Forest.render, Segment.render, Markup.wrap, Forest.utterance, Forest.spans, Segment.spans]
    simp only [List.cons_append, reduceCtorEq, List.reverse_eq_nil_iff, and_false]

/-- Whether a marked text is empty can be seen from the utterance. -/
theorem isEmpty_eq (h : Denotes m u) : m.isEmpty = u.isEmpty := by
  rw [Bool.eq_iff_iff, List.isEmpty_iff, h.eq_nil_iff, Utterance.isEmpty, Bool.and_eq_true,
    List.isEmpty_iff, List.isEmpty_iff]

end Denotes

/-- Marked texts that denote utterances are cleaned as these are. -/
theorem forall₂_clean {ms : List Text} {us : List Utterance} (h : List.Forall₂ Denotes ms us) :
    List.Forall₂ Denotes (Rule.clean ms) (Utterance.clean us) := by
  induction h with
  | nil => exact .nil
  | @cons m u ms us hmu _ ih =>
    have hempty := hmu.trim.isEmpty_eq
    rw [Rule.clean, Utterance.clean, List.map_cons, List.map_cons, List.filter_cons,
      List.filter_cons, hempty]
    split
    · exact .cons hmu.trim ih
    · exact ih

/-- All of them can be decoded, to the utterances that they denote. -/
theorem mapM_utterance {ms : List Text} {us : List Utterance} (h : List.Forall₂ Denotes ms us) :
    ms.mapM Rule.utterance = .ok us := by
  induction h with
  | nil => rfl
  | cons hmu _ ih =>
    rw [List.mapM_cons, Rule.utterance, hmu.decode_eq, ih]
    rfl

end Markup

end UtteranceGrammar
