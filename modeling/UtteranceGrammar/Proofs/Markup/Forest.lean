/-
Forests of nested spans: what a well-formed marked text is made of.

A segment is a text without marks, or a named span around more segments. Both kinds carry what makes
them well-formed: no mark in the text, no closing bracket in the name. So every forest can be written
as a marked text (`render`), and it says by itself, without a look at marks, which plain text that is
(`plain`) and where in it the spans lie (`spans`, in the order in which they open).

The order in which decoding lists spans is the reverse one. It is put into `utterance`, the utterance
that a forest stands for, and the lemmas on `utterance` say how it grows by a segment at either end.
-/
import UtteranceGrammar.Utterance.Markup
import UtteranceGrammar.Proofs.Utterance.Annotated

set_option autoImplicit false

namespace UtteranceGrammar

namespace Markup

/-! ## Texts without marks -/

/-- The text has no mark in it. -/
def Free (s : Text) : Prop := ∀ c ∈ s, isMark c = false

instance (s : Text) : Decidable (Free s) :=
  decidable_of_iff ((s.all fun c => !isMark c) = true) (by simp [Free])

/-- The two marks are START and END. -/
theorem isMark_eq_false_iff {c : Char} : isMark c = false ↔ c ≠ spanStart ∧ c ≠ spanEnd := by
  simp [isMark]

/-- A text of none but the characters of a text without marks has none either. -/
theorem Free.of_subset {s t : Text} (ht : Free t) (h : ∀ c ∈ s, c ∈ t) : Free s :=
  fun c hc => ht c (h c hc)

theorem Free.append {s t : Text} (hs : Free s) (ht : Free t) : Free (s ++ t) := by
  intro c hc
  rcases List.mem_append.1 hc with h | h
  · exact hs c h
  · exact ht c h

theorem Free.trimStart {s : Text} (h : Free s) : Free (Text.trimStart s) :=
  h.of_subset fun _ hc => (List.dropWhile_sublist _).subset hc

theorem Free.trimEnd {s : Text} (h : Free s) : Free (Text.trimEnd s) := by
  refine h.of_subset fun c hc => ?_
  have hrev : c ∈ s.reverse.dropWhile Text.isBlank := List.mem_reverse.1 hc
  exact List.mem_reverse.1 ((List.dropWhile_sublist _).subset hrev)

end Markup

/-! ## Segments -/

/-- A piece of a marked text. -/
inductive Segment where
  | text (s : { s : Text // Markup.Free s })
  | span (name : { n : Name // ']' ∉ n.toList }) (body : List Segment)

/-- Segments one after the other. -/
abbrev Forest := List Segment

mutual

/-- A segment as a marked text. -/
def Segment.render : Segment → Text
  | .text s => s.1
  | .span name body => Markup.wrap name.1 (Forest.render body)

/-- A forest as a marked text. -/
def Forest.render : Forest → Text
  | [] => []
  | s :: f => s.render ++ Forest.render f

end

mutual

/-- The texts in a segment, one after the other. -/
def Segment.plain : Segment → Text
  | .text s => s.1
  | .span _ body => Forest.plain body

/-- The texts in a forest, one after the other. -/
def Forest.plain : Forest → Text
  | [] => []
  | s :: f => s.plain ++ Forest.plain f

end

mutual

/-- The spans of a segment in the order in which they open, given the offset at which it starts. -/
def Segment.spans (start : Nat) : Segment → List Entity
  | .text _ => []
  | .span name body =>
    ⟨name.1, Forest.plain body, start, start + (Forest.plain body).length⟩ ::
      Forest.spans start body

/-- The spans of a forest in the order in which they open, given the offset at which it starts. -/
def Forest.spans (start : Nat) : Forest → List Entity
  | [] => []
  | s :: f => s.spans start ++ Forest.spans (start + s.plain.length) f

end

namespace Forest

/-- Induction on a forest: a span is reached with its body and with what follows it. -/
theorem induct {motive : Forest → Prop} (nil : motive [])
    (text : ∀ s f, motive f → motive (.text s :: f))
    (span : ∀ name body f, motive body → motive f → motive (.span name body :: f)) :
    ∀ f, motive f
  | [] => nil
  | .text s :: f => text s f (induct nil text span f)
  | .span name body :: f => span name body f (induct nil text span body) (induct nil text span f)

/-! ## Forests one after the other -/

/-- Forests one after the other are rendered so. -/
theorem render_append (f h : Forest) : render (f ++ h) = render f ++ render h := by
  induction f with
  | nil => rfl
  | cons s f ih => rw [List.cons_append, render, render, ih, List.append_assoc]

/-- Forests one after the other have their plain texts so. -/
theorem plain_append (f h : Forest) : plain (f ++ h) = plain f ++ plain h := by
  induction f with
  | nil => rfl
  | cons s f ih => rw [List.cons_append, plain, plain, ih, List.append_assoc]

/-- The spans of a forest are moved by what stands in front of it. -/
theorem spans_append (start : Nat) (f h : Forest) :
    spans start (f ++ h) = spans start f ++ spans (start + (plain f).length) h := by
  induction f generalizing start with
  | nil => rfl
  | cons s f ih =>
    rw [List.cons_append, spans, spans, ih, List.append_assoc, plain, List.length_append,
      Nat.add_assoc]

/-- A forest further to the right has its spans further to the right. -/
theorem spans_add (start k : Nat) (f : Forest) :
    spans (start + k) f = (spans start f).map (Entity.shift k) := by
  induction f using induct generalizing start with
  | nil => rfl
  | text s f ih =>
    rw [spans, spans, Nat.add_right_comm, ih, List.map_append]
    rfl
  | span name body f ihb ihf =>
    rw [spans, spans, Nat.add_right_comm, ihf, List.map_append, Segment.spans, Segment.spans, ihb,
      List.map_cons, Entity.shift, Nat.add_right_comm]

/-! ## Where the spans lie -/

/-- A span lies in the plain text, and its own text is what is found there. -/
theorem mem_spans {start : Nat} {f : Forest} {e : Entity} (he : e ∈ spans start f) :
    e.stop = e.start + e.text.length ∧
      ∃ before behind, plain f = before ++ e.text ++ behind ∧ e.start = start + before.length := by
  induction f using induct generalizing start with
  | nil => exact absurd he List.not_mem_nil
  | text s f ih =>
    obtain ⟨hstop, before, behind, hp, hb⟩ := ih he
    refine ⟨hstop, s.1 ++ before, behind, ?_, ?_⟩
    · rw [plain, hp, Segment.plain]
      simp only [List.append_assoc]
    · rw [hb, List.length_append, Segment.plain, Nat.add_assoc]
  | span name body f ihb ihf =>
    rw [spans, Segment.spans, List.mem_append, List.mem_cons] at he
    rw [plain, Segment.plain]
    -- the span itself, a span within it, or a span behind it
    rcases he with (rfl | hbody) | hf
    · exact ⟨rfl, [], plain f, rfl, rfl⟩
    · obtain ⟨hstop, before, behind, hp, hb⟩ := ihb hbody
      refine ⟨hstop, before, behind ++ plain f, ?_, hb⟩
      rw [hp]
      simp only [List.append_assoc]
    · obtain ⟨hstop, before, behind, hp, hb⟩ := ihf hf
      refine ⟨hstop, plain body ++ before, behind, ?_, ?_⟩
      · rw [hp]
        simp only [List.append_assoc]
      · rw [hb, List.length_append, Segment.plain, Nat.add_assoc]

/-! ## The utterance of a forest -/

/-- The utterance that a forest stands for: its plain text, and its spans, the last opened first. -/
def utterance (f : Forest) : Utterance := ⟨plain f, (spans 0 f).reverse⟩

/-- Every span of a forest tells where its text stands. -/
theorem locates (f : Forest) {e : Entity} (he : e ∈ f.utterance.entities) : f.utterance.Locates e := by
  obtain ⟨hstop, before, behind, hplain, hstart⟩ := mem_spans (List.mem_reverse.1 he)
  rw [Nat.zero_add] at hstart
  have htext : f.utterance.text = before ++ (e.text ++ behind) := by
    rw [← List.append_assoc]
    exact hplain
  refine ⟨?_, ?_, ?_⟩
  · omega
  · rw [htext, List.length_append, List.length_append]
    omega
  · have hlength : e.stop - e.start = e.text.length := by omega
    rw [htext, hstart, List.drop_left, ← hstart, hlength, List.take_left]

/-- No span leaves the text. -/
theorem bounded_utterance (f : Forest) : f.utterance.Bounded :=
  fun _ he => (f.locates he).stop_le

/-- A text alone, which has no spans. -/
theorem utterance_text (s : { s : Text // Markup.Free s }) :
    utterance [.text s] = .ofText s.1 := by
  rw [utterance, plain, plain, List.append_nil]
  rfl

/-- Two forests: the spans of the second come first, moved by the first one's text. -/
theorem utterance_append (f h : Forest) :
    (f ++ h).utterance =
      ⟨plain f ++ plain h,
        h.utterance.entities.map (Entity.shift (plain f).length) ++ f.utterance.entities⟩ := by
  rw [utterance, plain_append, spans_append, spans_add, List.reverse_append, ← List.map_reverse]
  rfl

/-- A text in front moves all the spans. -/
theorem utterance_cons_text (s : { s : Text // Markup.Free s }) (f : Forest) :
    utterance (.text s :: f) = f.utterance.indent s.1 := by
  rw [utterance, spans, spans_add, Segment.spans, List.nil_append, ← List.map_reverse]
  rfl

/-- A text behind leaves the spans as they are. -/
theorem utterance_append_text (f : Forest) (s : { s : Text // Markup.Free s }) :
    utterance (f ++ [.text s]) = f.utterance.extend s.1 := by
  rw [utterance_append, plain, plain, List.append_nil]
  rfl

/-- A span around a forest is listed behind the spans in it. -/
theorem utterance_span (name : { n : Name // ']' ∉ n.toList }) (f : Forest) :
    utterance [.span name f] = f.utterance.labelled name.1 := by
  rw [utterance, plain, plain, spans, spans, List.append_nil, List.append_nil, Segment.spans,
    List.reverse_cons, Nat.zero_add]
  rfl

end Forest

end UtteranceGrammar
