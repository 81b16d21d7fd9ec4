/-
Decoding a rendered forest.

`extract` strips all heads from a text before it looks for any END, so it cannot be followed span by
span: when the END of a span is looked for, everything behind the span has been stripped too. What can
be followed is the text from the right. `Strips n rest stripped entities` says that `extract`, with `n`
plain characters in front of `rest`, leaves `stripped` and finds `entities`; and there are three ways
to put something in front of `rest`: a text without START (`Strips.append`), the head of a span whose
END is the first one left (`Strips.head`), and from these two a whole forest (`Strips.render`).

Only the number of plain characters in front matters, not what they are: positions of errors aside,
`extract` looks at `before` through `plainLength` alone.
-/
import UtteranceGrammar.Proofs.Markup.Forest

set_option autoImplicit false

namespace UtteranceGrammar

namespace Markup

/-! ## What stripping does -/

/-- `extract` by cases on what it meets next. -/
theorem extract_eq (before rest : Text) :
    extract before rest =
      match Text.cut spanStart rest with
      | none => .ok (rest, [])
      | some (plain, opened) =>
        match readHead (before ++ plain).length opened with
        | .error e => .error e
        | .ok (name, content) =>
          match extract (before ++ plain) content with
          | .error e => .error e
          | .ok (stripped, entities) =>
            match Text.cut spanEnd stripped with
            | none => .error (.entityNotEnded name)
            | some (text, tail) =>
              .ok (plain ++ text ++ tail, entities ++ [⟨name, text, plainLength (before ++ plain),
                plainLength (before ++ plain) + text.length⟩]) := by
  rw [extract]
  split
  · rename_i hcut
    rw [hcut]
  · rename_i plain opened hcut
    rw [hcut]
    split
    · rename_i e hhead
      simp only [hhead]
    · rename_i name content hhead
      cases hinner : extract (before ++ plain) content with
      | error e => simp only [hhead, hinner]
      | ok inner =>
        obtain ⟨stripped, entities⟩ := inner
        cases hend : Text.cut spanEnd stripped with
        | none => simp only [hhead, hinner, hend]
        | some parts => simp only [hhead, hinner, hend]

/-- Stripping goes through if there is no START, or if the first START has a head, what follows the
head can be stripped, and an END is left then: it is the one of the span. -/
theorem extract_eq_ok_iff {before rest stripped : Text} {entities : List Entity} :
    extract before rest = .ok (stripped, entities) ↔
      (spanStart ∉ rest ∧ stripped = rest ∧ entities = []) ∨
        ∃ plain name content text tail inner,
          rest = plain ++ spanStart :: '[' :: (name.toList ++ ']' :: content) ∧
          spanStart ∉ plain ∧ ']' ∉ name.toList ∧
          extract (before ++ plain) content = .ok (text ++ spanEnd :: tail, inner) ∧
          spanEnd ∉ text ∧ stripped = plain ++ text ++ tail ∧
          entities = inner ++ [⟨name, text, plainLength (before ++ plain),
            plainLength (before ++ plain) + text.length⟩] := by
  constructor
  · intro h
    rw [extract_eq] at h
    split at h
    · rename_i hcut
      obtain ⟨rfl, rfl⟩ := Prod.mk.inj (Except.ok.inj h)
      exact .inl ⟨Text.cut_eq_none_iff.1 hcut, rfl, rfl⟩
    rename_i plain opened hcut
    split at h
    · cases h
    rename_i name content hhead
    split at h
    · cases h
    rename_i inner hrest
    split at h
    · cases h
    rename_i text tail hend
    -- each step of stripping has an equation of its own for what it has found
    obtain ⟨hsplit, hplain⟩ := Text.cut_eq_some_iff.1 hcut
    obtain ⟨hopened, hname⟩ := readHead_eq_ok_iff.1 hhead
    obtain ⟨rfl, htext⟩ := Text.cut_eq_some_iff.1 hend
    obtain ⟨rfl, rfl⟩ := Prod.mk.inj (Except.ok.inj h)
    exact .inr ⟨plain, name, content, text, tail, inner, by rw [hsplit, hopened], hplain, hname,
      hrest, htext, rfl, rfl⟩
  · rintro (⟨hno, rfl, rfl⟩ | ⟨plain, name, content, text, tail, inner, rfl, hplain, hname, hrest,
      htext, rfl, rfl⟩)
    · rw [extract_eq, Text.cut_eq_none_iff.2 hno]
    · have hcut : Text.cut spanStart (plain ++ spanStart :: '[' :: (name.toList ++ ']' :: content))
          = some (plain, '[' :: (name.toList ++ ']' :: content)) :=
        Text.cut_eq_some_iff.2 ⟨rfl, hplain⟩
      have hhead : readHead (before ++ plain).length ('[' :: (name.toList ++ ']' :: content))
          = .ok (name, content) :=
        readHead_eq_ok_iff.2 ⟨rfl, hname⟩
      have hend : Text.cut spanEnd (text ++ spanEnd :: tail) = some (text, tail) :=
        Text.cut_eq_some_iff.2 ⟨rfl, htext⟩
      rw [extract_eq, hcut]
      simp only [hhead, hrest, hend]

/-! ## Stripping from the right -/

theorem plainLength_append (s t : Text) : plainLength (s ++ t) = plainLength s + plainLength t :=
  List.countP_append

/-- Without ENDs, all of a text is plain. -/
theorem plainLength_of_spanEnd_not_mem {s : Text} (h : spanEnd ∉ s) : plainLength s = s.length := by
  refine List.countP_eq_length.2 fun c hc => ?_
  rw [bne_iff_ne]
  exact fun heq => h (heq ▸ hc)

theorem Free.spanStart_not_mem {s : Text} (h : Free s) : spanStart ∉ s :=
  fun hmem => (isMark_eq_false_iff.1 (h _ hmem)).1 rfl

theorem Free.spanEnd_not_mem {s : Text} (h : Free s) : spanEnd ∉ s :=
  fun hmem => (isMark_eq_false_iff.1 (h _ hmem)).2 rfl

/-- With `n` plain characters in front, stripping `rest` leaves `stripped` and finds `entities`. -/
def Strips (n : Nat) (rest stripped : Text) (entities : List Entity) : Prop :=
  ∀ before, plainLength before = n → extract before rest = .ok (stripped, entities)

/-- From nothing there is nothing to strip. -/
theorem Strips.nil (n : Nat) : Strips n [] [] [] :=
  fun _ _ => extract_eq_ok_iff.2 (.inl ⟨List.not_mem_nil, rfl, rfl⟩)

/-- A text without START is passed over. -/
theorem Strips.append {n : Nat} {s rest stripped : Text} {entities : List Entity}
    (hs : spanStart ∉ s) (h : Strips (n + plainLength s) rest stripped entities) :
    Strips n (s ++ rest) (s ++ stripped) entities := by
  intro before hn
  have hrest := h (before ++ s) (by rw [plainLength_append, hn])
  -- the first START of `s ++ rest`, if there is one, is the first one of `rest`
  rw [extract_eq_ok_iff] at hrest ⊢
  rcases hrest with ⟨hno, rfl, rfl⟩ | ⟨plain, name, content, text, tail, inner, rfl, hplain, hname,
    hcontent, htext, rfl, rfl⟩
  · refine .inl ⟨?_, rfl, rfl⟩
    rw [List.mem_append, not_or]
    exact ⟨hs, hno⟩
  · rw [List.append_assoc] at hcontent
    refine .inr ⟨s ++ plain, name, content, text, tail, inner, ?_, ?_, hname, hcontent, htext, ?_, ?_⟩
    · rw [List.append_assoc]
    · rw [List.mem_append, not_or]
      exact ⟨hs, hplain⟩
    · simp only [List.append_assoc]
    · rw [List.append_assoc]

/-- The head of a span is stripped, together with the first END that is left behind it. -/
theorem Strips.head {n : Nat} {name : Name} {content text tail : Text} {entities : List Entity}
    (hname : ']' ∉ name.toList) (htext : spanEnd ∉ text)
    (h : Strips n content (text ++ spanEnd :: tail) entities) :
    Strips n (spanStart :: '[' :: (name.toList ++ ']' :: content)) (text ++ tail)
      (entities ++ [⟨name, text, n, n + text.length⟩]) := by
  intro before hn
  refine extract_eq_ok_iff.2 (.inr ⟨[], name, content, text, tail, entities, rfl, List.not_mem_nil,
    hname, ?_, htext, rfl, ?_⟩)
  · rw [List.append_nil]
    exact h before hn
  · rw [List.append_nil, hn]

end Markup

namespace Forest

open Markup

/-- No mark is left in the plain text of a forest. -/
theorem free_plain (f : Forest) : Free (plain f) := by
  induction f using induct with
  | nil => exact fun c hc => absurd hc List.not_mem_nil
  | text s f ih => exact s.2.append ih
  | span name body f ihb ihf => exact ihb.append ihf

/-- A forest in front: its texts stay, and its spans are found after those behind it. -/
theorem strips_render {n : Nat} {rest stripped : Text} {entities : List Entity} (f : Forest)
    (h : Strips (n + (plain f).length) rest stripped entities) :
    Strips n (render f ++ rest) (plain f ++ stripped) (entities ++ (spans n f).reverse) := by
  induction f using induct generalizing n rest stripped entities with
  | nil => rwa [spans, List.reverse_nil, List.append_nil]
  | text s f ih =>
    rw [render, plain, spans, Segment.render, Segment.plain, Segment.spans, List.append_assoc,
      List.append_assoc, List.nil_append]
    have hlen : plainLength s.1 = s.1.length := plainLength_of_spanEnd_not_mem s.2.spanEnd_not_mem
    refine Strips.append s.2.spanStart_not_mem ?_
    rw [hlen]
    refine ih ?_
    rw [Nat.add_assoc, ← List.length_append]
    exact h
  | span name body f ihb ihf =>
    rw [plain, List.length_append, Segment.plain, ← Nat.add_assoc] at h
    -- behind the body stand its END, the forest that follows, and the rest
    have hbehind : Strips (n + (plain body).length) (spanEnd :: (render f ++ rest))
        (spanEnd :: (plain f ++ stripped))
        (entities ++ (spans (n + (plain body).length) f).reverse) :=
      Strips.append (s := [spanEnd]) (by decide) (ihf h)
    have hspan := Strips.head name.2 (free_plain body).spanEnd_not_mem (ihb hbehind)
    rw [render, plain, spans, Segment.render, Segment.plain, Segment.spans, wrap]
    simp only [List.reverse_append, List.reverse_cons, List.append_assoc, List.cons_append,
      List.nil_append] at hspan ⊢
    exact hspan

/-- All of a rendered forest is stripped. -/
theorem extract_render (f : Forest) :
    extract [] (render f) = .ok (plain f, (spans 0 f).reverse) := by
  have h := strips_render f (Strips.nil (0 + (plain f).length)) [] rfl
  rwa [List.append_nil, List.append_nil, List.nil_append] at h

/-- **Decoding undoes encoding.** A rendered forest is decoded to its plain text and to one entity for
each of its spans, with the span's name, its plain text and its offsets, the last opened first. -/
theorem decode_render (f : Forest) :
    decode (render f) = .ok ⟨plain f, (spans 0 f).reverse⟩ := by
  rw [decode, extract_render]
  rfl

-- a span within a span, and one more behind
example :
    decode (wrap "ROUTE" ("to ".toList ++ wrap "CITY" "Brno".toList) ++ wrap "CITY" []) =
      .ok ⟨"to Brno".toList, [⟨"CITY", [], 7, 7⟩, ⟨"CITY", "Brno".toList, 3, 7⟩,
        ⟨"ROUTE", "to Brno".toList, 0, 7⟩]⟩ := by
  decide +kernel

end Forest

end UtteranceGrammar
