/-
What decoding accepts, and how the entities found in it lie to each other.

A text that can be decoded need not be a rendered forest: it may have ENDs that close nothing. But that is all
that it may have beyond one. Such an END stands within no span, since the spans around it would have been closed
by it, so the text is a forest with an END here and there between its trees, a `Loose` forest
(`exists_loose_of_extract`). The ENDs stay where they are, and the entities are the spans of the forest without
them.

So everything about the entities of an arbitrary accepted text can be read off a forest. Their offsets are those
in the plain text of the forest, which is the text returned, less its ENDs. And two spans of a forest, one of
which opens before the other, lie apart or the second lies in the first, for it is opened in the body of the first
or behind it (`Forest.pairwise_spans`).
-/
import Mathlib.Data.List.ReduceOption
import UtteranceGrammar.Proofs.Markup.Decoding

set_option autoImplicit false

namespace UtteranceGrammar

/-! ## How two entities lie to each other -/

namespace Entity

/-- One entity stops before the other starts. -/
def Apart (e f : Entity) : Prop := e.stop ≤ f.start ∨ f.stop ≤ e.start

/-- The first entity lies in the second one. -/
def Within (e f : Entity) : Prop := f.start ≤ e.start ∧ e.stop ≤ f.stop

end Entity

namespace Forest

/-- A span lies between the ends of its forest. -/
theorem bounds_of_mem_spans {start : Nat} {f : Forest} {e : Entity} (he : e ∈ spans start f) :
    start ≤ e.start ∧ e.stop ≤ start + (plain f).length := by
  obtain ⟨hstop, before, behind, hplain, hstart⟩ := mem_spans he
  rw [hplain, List.length_append, List.length_append]
  omega

/-- Of two spans the one that opens later starts no earlier, and it stands apart from the other or lies in it. -/
theorem pairwise_spans (start : Nat) (f : Forest) :
    (spans start f).Pairwise fun e f => e.start ≤ f.start ∧ (f.Apart e ∨ f.Within e) := by
  induction f using induct generalizing start with
  | nil => exact .nil
  | text s f ih => exact ih _
  | span name body f ihb ihf =>
    rw [spans, Segment.spans, Segment.plain, List.cons_append, List.pairwise_cons, List.pairwise_append]
    refine ⟨?_, ihb start, ihf _, ?_⟩
    · -- what opens behind the span opens in its body or behind that
      intro e he
      rcases List.mem_append.1 he with hbody | hbehind
      · obtain ⟨hstart, hstop⟩ := bounds_of_mem_spans hbody
        exact ⟨hstart, .inr ⟨hstart, hstop⟩⟩
      · have hstart := (bounds_of_mem_spans hbehind).1
        exact ⟨Nat.le_trans (Nat.le_add_right _ _) hstart, .inl (.inr hstart)⟩
    · intro x hx y hy
      obtain ⟨hstart, hstop⟩ := bounds_of_mem_spans hx
      have hle : x.start ≤ x.stop := by
        rw [(mem_spans hx).1]
        exact Nat.le_add_right _ _
      have hstart' := (bounds_of_mem_spans hy).1
      refine ⟨?_, .inl (.inr ?_)⟩ <;> omega

end Forest

/-! ## Forests with ENDs that close nothing -/

/-- The segments of a forest, and between them ENDs that close nothing, for which `none` stands. -/
abbrev Loose := List (Option Segment)

namespace Loose

open Markup

/-- A loose forest as a marked text. -/
def render (l : Loose) : Text := l.flatMap fun s => s.elim [spanEnd] Segment.render

/-- What is left of a loose forest once its spans are stripped. -/
def text (l : Loose) : Text := l.flatMap fun s => s.elim [spanEnd] Segment.plain

/-- A loose forest without its ENDs. -/
def forest (l : Loose) : Forest := l.reduceOption

theorem render_append (l k : Loose) : render (l ++ k) = render l ++ render k := List.flatMap_append

theorem text_append (l k : Loose) : text (l ++ k) = text l ++ text k := List.flatMap_append

theorem forest_append (l k : Loose) : forest (l ++ k) = forest l ++ forest k :=
  List.reduceOption_append l k

/-- An END that closes nothing is left. -/
theorem text_cons_none (l : Loose) : text (none :: l) = spanEnd :: text l := rfl

/-- Of a segment its plain text is left. -/
theorem text_cons_some (s : Segment) (l : Loose) : text (some s :: l) = s.plain ++ text l := rfl

/-- A forest is a loose one without ENDs of its own. -/
theorem render_map_some (f : Forest) : render (f.map some) = f.render := by
  induction f with
  | nil => rfl
  | cons s f ih =>
    rw [List.map_cons, Forest.render, ← ih]
    rfl

theorem forest_map_some (f : Forest) : forest (f.map some) = f := by
  induction f with
  | nil => rfl
  | cons s f ih => exact congrArg (s :: ·) ih

/-- Of a segment no END is left. -/
theorem spanEnd_not_mem_plain (s : Segment) : spanEnd ∉ s.plain := by
  cases s with
  | text s => exact s.2.spanEnd_not_mem
  | span name body => exact (Forest.free_plain body).spanEnd_not_mem

/-- Every START is the front of a span, so none is left. -/
theorem spanStart_not_mem_text (l : Loose) : spanStart ∉ l.text := by
  induction l with
  | nil => exact List.not_mem_nil
  | cons s l ih =>
    cases s with
    | none =>
      rw [text_cons_none, List.mem_cons, not_or]
      exact ⟨by decide, ih⟩
    | some s =>
      rw [text_cons_some, List.mem_append, not_or]
      refine ⟨?_, ih⟩
      cases s with
      | text s => exact s.2.spanStart_not_mem
      | span name body => exact (Forest.free_plain body).spanStart_not_mem

/-- Without its ENDs, what is left of a loose forest is the plain text of the forest. -/
theorem filter_text (l : Loose) : l.text.filter (· != spanEnd) = l.forest.plain := by
  induction l with
  | nil => rfl
  | cons s l ih =>
    cases s with
    | none =>
      rw [text_cons_none, List.filter_cons_of_neg (by simp), ih]
      rfl
    | some s =>
      have hplain : s.plain.filter (· != spanEnd) = s.plain := by
        rw [List.filter_eq_self]
        intro c hc
        rw [bne_iff_ne]
        exact fun heq => spanEnd_not_mem_plain s (heq ▸ hc)
      rw [text_cons_some, List.filter_append, hplain, ih]
      rfl

/-- The plain text is as long as what is left, ENDs not counted. -/
theorem length_plain_forest (l : Loose) : l.forest.plain.length = plainLength l.text := by
  rw [← filter_text, ← List.countP_eq_length_filter]
  rfl

/-- A text without START is a loose forest without spans. -/
theorem exists_of_spanStart_not_mem {s : Text} (hs : spanStart ∉ s) :
    ∃ l : Loose, l.render = s ∧ l.text = s ∧ ∀ n, l.forest.spans n = [] := by
  induction s with
  | nil => exact ⟨[], rfl, rfl, fun _ => rfl⟩
  | cons c s ih =>
    rw [List.mem_cons, not_or] at hs
    obtain ⟨l, hrender, htext, hspans⟩ := ih hs.2
    by_cases hc : c = spanEnd
    · refine ⟨none :: l, ?_, ?_, hspans⟩
      · rw [hc]
        exact congrArg (spanEnd :: ·) hrender
      · rw [hc]
        exact congrArg (spanEnd :: ·) htext
    · have hfree : Free [c] := by
        intro d hd
        rw [List.mem_singleton.1 hd, isMark_eq_false_iff]
        exact ⟨Ne.symm hs.1, hc⟩
      refine ⟨some (.text ⟨[c], hfree⟩) :: l, ?_, ?_, fun n => hspans _⟩
      · exact congrArg (c :: ·) hrender
      · exact congrArg (c :: ·) htext

/-- What stands in front of the first END that is left is a forest. -/
theorem exists_split {l : Loose} {before behind : Text} (hl : l.text = before ++ spanEnd :: behind)
    (hbefore : spanEnd ∉ before) :
    ∃ (f : Forest) (k : Loose), l = f.map some ++ none :: k ∧ f.plain = before ∧ k.text = behind := by
  induction l generalizing before with
  | nil => exact absurd hl.symm (List.append_ne_nil_of_right_ne_nil _ (List.cons_ne_nil _ _))
  | cons s l ih =>
    cases s with
    | none =>
      cases before with
      | nil => exact ⟨[], l, rfl, rfl, (List.cons.inj hl).2⟩
      | cons c before =>
        rw [text_cons_none] at hl
        exact absurd ((List.cons.inj hl).1 ▸ List.mem_cons_self) hbefore
    | some s =>
      -- the END does not stand in the segment
      have hrest : ∃ rest, before = s.plain ++ rest ∧ text l = rest ++ spanEnd :: behind := by
        rw [text_cons_some] at hl
        rcases List.append_eq_append_iff.1 hl with ⟨rest, hrest, htext⟩ | ⟨rest, hrest, htext⟩
        · exact ⟨rest, hrest, htext⟩
        · cases rest with
          | nil => exact ⟨[], by rw [hrest, List.append_nil, List.append_nil], htext.symm⟩
          | cons c rest =>
            rw [List.cons_append] at htext
            have hmem : spanEnd ∈ s.plain := by
              rw [hrest, (List.cons.inj htext).1]
              exact List.mem_append_right _ List.mem_cons_self
            exact absurd hmem (spanEnd_not_mem_plain s)
      obtain ⟨rest, rfl, htext⟩ := hrest
      obtain ⟨f, k, rfl, rfl, hk⟩ := ih htext fun hmem => hbefore (List.mem_append_right _ hmem)
      exact ⟨s :: f, k, rfl, rfl, hk⟩

end Loose

namespace Markup

/-- What can be stripped is a loose forest, of which the text is left and the spans are found. -/
theorem exists_loose_of_extract {before rest stripped : Text} {entities : List Entity}
    (h : extract before rest = .ok (stripped, entities)) :
    ∃ l : Loose, l.render = rest ∧ l.text = stripped ∧
      entities = (l.forest.spans (plainLength before)).reverse := by
  induction hn : rest.length using Nat.strongRecOn generalizing before rest stripped entities with
  | _ n ih =>
    rcases extract_eq_ok_iff.1 h with ⟨hrest, rfl, rfl⟩ | ⟨plain, name, content, text, tail, inner, hrest,
      hplain, hname, hcontent, htext, rfl, rfl⟩
    · obtain ⟨l, hrender, hleft, hspans⟩ := Loose.exists_of_spanStart_not_mem hrest
      exact ⟨l, hrender, hleft, by rw [hspans, List.reverse_nil]⟩
    · have hlength : content.length < n := by
        rw [← hn, hrest]
        simp only [List.length_append, List.length_cons]
        omega
      obtain ⟨l, hl, hleft, hinner⟩ := ih _ hlength hcontent rfl
      -- the first END left behind the head ends its span
      obtain ⟨body, k, rfl, hbody, hk⟩ := Loose.exists_split hleft htext
      obtain ⟨p, hp, hleft', hspans⟩ := Loose.exists_of_spanStart_not_mem hplain
      refine ⟨p ++ some (.span ⟨name, hname⟩ body) :: k, ?_, ?_, ?_⟩
      · rw [Loose.render_append, Loose.render_map_some] at hl
        rw [Loose.render_append, hp, hrest, ← hl]
        simp [Loose.render, Segment.render, wrap]
      · rw [Loose.text_append, Loose.text_cons_some, hleft', hk, Segment.plain, hbody, List.append_assoc]
      · have hstart : plainLength before + p.forest.plain.length = plainLength (before ++ plain) := by
          rw [Loose.length_plain_forest, hleft', plainLength_append]
        have hforest : Loose.forest (p ++ some (.span ⟨name, hname⟩ body) :: k)
            = p.forest ++ .span ⟨name, hname⟩ body :: k.forest := Loose.forest_append _ _
        have hforest' : Loose.forest (body.map some ++ none :: k) = body ++ k.forest := by
          rw [Loose.forest_append, Loose.forest_map_some]
          rfl
        rw [hforest, Forest.spans_append, hspans, hstart, hinner, hforest', Forest.spans_append,
          Forest.spans, Segment.spans, Segment.plain, hbody]
        simp only [List.nil_append, List.cons_append, List.reverse_cons]

end Markup

/-! ## All accepted texts -/

/-- An utterance without the ENDs in its text. -/
def Utterance.withoutEnds (u : Utterance) : Utterance :=
  { u with text := u.text.filter (· != Markup.spanEnd) }

namespace Markup

/-- Whatever is decoded, its entities are those of a forest, and its text less the ENDs is the forest's. -/
theorem exists_forest_of_decode {s : Text} {u : Utterance} (h : decode s = .ok u) :
    spanStart ∉ u.text ∧ ∃ f : Forest, u.withoutEnds = f.utterance := by
  rw [decode] at h
  cases hextract : extract [] s with
  | error e =>
    rw [hextract] at h
    cases h
  | ok parts =>
    obtain ⟨stripped, entities⟩ := parts
    rw [hextract] at h
    obtain rfl := Except.ok.inj h
    obtain ⟨l, -, hleft, hentities⟩ := exists_loose_of_extract hextract
    refine ⟨hleft ▸ Loose.spanStart_not_mem_text l, l.forest, ?_⟩
    rw [Utterance.withoutEnds, ← hleft, Loose.filter_text, hentities]
    rfl

end Markup

namespace Forest

/-- The text of a span is part of the plain text, so it has no marks. -/
theorem free_of_mem_spans {start : Nat} {f : Forest} {e : Entity} (he : e ∈ spans start f) :
    Markup.Free e.text := by
  obtain ⟨-, before, behind, hplain, -⟩ := mem_spans he
  refine (free_plain f).of_subset fun c hc => ?_
  rw [hplain]
  exact List.mem_append_left _ (List.mem_append_right _ hc)

end Forest

namespace Markup

/-- **What holds of every text that is decoded.** No START is left in it. No mark is in the text of an entity, its
offsets are as far apart as this text is long, and the text is found between them once the ENDs left are taken
out. Of two entities the one listed first starts no earlier, and it stands apart from the other or lies in it. -/
theorem decode_spans {s : Text} {u : Utterance} (h : decode s = .ok u) :
    spanStart ∉ u.text ∧
    (∀ e ∈ u.entities, Free e.text ∧ e.stop = e.start + e.text.length ∧ u.withoutEnds.Locates e) ∧
    u.entities.Pairwise fun e f => f.start ≤ e.start ∧ (e.Apart f ∨ e.Within f) := by
  obtain ⟨hstart, f, hf⟩ := exists_forest_of_decode h
  have hentities : u.entities = (f.spans 0).reverse := congrArg Utterance.entities hf
  refine ⟨hstart, ?_, ?_⟩
  · intro e he
    rw [hentities, List.mem_reverse] at he
    refine ⟨Forest.free_of_mem_spans he, (Forest.mem_spans he).1, ?_⟩
    rw [hf]
    exact f.locates (List.mem_reverse.2 he)
  · rw [hentities, List.pairwise_reverse]
    exact Forest.pairwise_spans 0 f

/-- ENDs that close nothing in front, between and behind, a mark in a name, an entity in another and an empty one.
-/
def tangled : Text :=
  "\u001fa\u001e[A]b\u001e[B\u001f]c\u001f\u001f\u001f\u001e[C]\u001fd\u001f".toList

/-- What `tangled` is decoded to. -/
def untangled : Utterance where
  text := "\u001fabc\u001fd\u001f".toList
  entities := [⟨"C", [], 3, 3⟩, ⟨"B\u001f", ['c'], 2, 3⟩, ⟨"A", ['b', 'c'], 1, 3⟩]

/-- A text with a nested, a mark-named and an empty span, and ENDs left over. -/
theorem decode_spans_tangled :
    decode tangled = .ok untangled ∧ spanStart ∉ untangled.text ∧
      untangled.withoutEnds.Locates ⟨"B\u001f", ['c'], 2, 3⟩ ∧
      untangled.entities.Pairwise fun e f => f.start ≤ e.start ∧ (e.Apart f ∨ e.Within f) := by
  have hdecode : decode tangled = .ok untangled := by decide +kernel
  obtain ⟨hstart, hentities, hpairs⟩ := decode_spans hdecode
  exact ⟨hdecode, hstart, (hentities _ (by decide)).2.2, hpairs⟩

end Markup

end UtteranceGrammar
