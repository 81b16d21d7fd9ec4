/-
Beginnings of what the syntax allows.

A text is complete if it reads as something, whatever comes behind it, and it opens something if it can be
continued to a complete text. A part of a source that has been read is complete (`exists_complete`), and what opens
a part opens the whole of which the part is next: a sequence opens the group that it is the body of, a term the
alternation behind the bar. So a text that stops anywhere within a source opens the source, however deep it stops.

Layout that stops in a comment is no layout in front of a token, as the token would be part of the comment. It is
once the comment's line is ended; that is what `Layout.Endable` says. Nothing is added to no layout, so that a word
which could say a rule's kind is not parted from what comes next.
-/
import UtteranceGrammar.Proofs.Source.Lexed
import UtteranceGrammar.Proofs.Text.Spacing

set_option autoImplicit false

namespace UtteranceGrammar

/-! ## Layout -/

namespace Layout

variable {s r w : Text}

/-- Whole layout, but that the line of its last comment may lack its end. -/
def Endable (w : Text) : Prop := ∃ t, Whole (w ++ t) ∧ (w = [] → t = [])

/-- Whole layout needs no end. -/
theorem Whole.endable (h : Whole w) : Endable w := ⟨[], by rwa [List.append_nil], fun _ => rfl⟩

/-- Layout in front of nothing can be ended. -/
theorem Before.endable (h : Before s []) : Endable s := by
  generalize hr : ([] : Text) = r at h
  induction h with
  | nothing t =>
    rw [← hr]
    exact Whole.nothing.endable
  | @blank c s r hc _ ih =>
    obtain ⟨t, hwhole, -⟩ := ih hr
    exact ⟨t, .blank hc hwhole, fun h => absurd h (List.cons_ne_nil c s)⟩
  | @comment opener line s r hopener hline hend _ ih =>
    have hne : opener ++ (line ++ s) ≠ [] := by
      rcases hopener with rfl | rfl <;> exact List.cons_ne_nil _ _
    by_cases hs : s = []
    · refine ⟨['\n'], ?_, fun h => absurd h hne⟩
      rw [hs, List.append_nil, List.append_assoc]
      exact .comment hopener hline (List.cons_ne_nil _ _) (.inr (.inl rfl)) (.blank (by decide) .nothing)
    · obtain ⟨t, hwhole, -⟩ := ih hr
      refine ⟨t, ?_, fun h => absurd h hne⟩
      rw [List.append_assoc, List.append_assoc]
      exact .comment hopener hline (List.append_ne_nil_of_left_ne_nil hs t) (hend.append hs t) hwhole

/-- Where no layout can be stripped, there is no blank character. -/
theorem isBlank_of_strip? {c : Char} (h : strip? (c :: s) = none) : Text.isBlank c = false := by
  rw [strip?] at h
  by_contra hc
  rw [Bool.not_eq_false] at hc
  rw [if_pos hc] at h
  cases h

/-- What is skipped in front of something is whole layout. -/
theorem exists_whole_skip (hne : skip s ≠ []) : ∃ w, Whole w ∧ s = w ++ skip s := by
  have hbefore := before_skip s
  have hstrip := strip?_skip s
  obtain ⟨c, r, hskip⟩ := List.exists_cons_of_ne_nil hne
  rw [hskip] at hbefore hstrip ⊢
  exact hbefore.exists_whole (isBlank_of_strip? hstrip)

/-- What is skipped is layout that can be ended. -/
theorem exists_endable_skip (s : Text) : ∃ w, Endable w ∧ s = w ++ skip s := by
  by_cases hskip : skip s = []
  · have hbefore := before_skip s
    rw [hskip] at hbefore ⊢
    exact ⟨s, hbefore.endable, (List.append_nil s).symm⟩
  · obtain ⟨w, hw, hs⟩ := exists_whole_skip hskip
    exact ⟨w, hw.endable, hs⟩

end Layout

namespace Token

/-- The layout in front of a character that has been found. -/
theorem exists_whole_of_char? {c : Char} {s r : Text} (h : char? c s = some r) :
    ∃ w, Layout.Whole w ∧ s = w ++ c :: r := by
  have hskip := char?_eq_some_iff.1 h
  rw [← hskip]
  apply Layout.exists_whole_skip
  rw [hskip]
  exact List.cons_ne_nil c r

end Token

/-! ## Complete texts, and texts that open something -/

section Complete

variable {α : Type}

/-- The text reads as the value, whatever comes behind it. -/
def Complete (reads : Text → α → Text → Prop) (b : Text) (v : α) : Prop := ∀ r, reads (b ++ r) v r

/-- The text can be continued to one that reads as something, whatever comes behind it. -/
def Opens (reads : Text → α → Text → Prop) (b : Text) : Prop := ∃ t v, ∀ r, reads (b ++ (t ++ r)) v r

variable {reads : Text → α → Text → Prop} {lexed : List Lexeme → α → Prop} {v : α} {s r : Text}

/-- What has been read by its tokens reads the same in front of anything. -/
theorem exists_complete (hlexed : ∀ {s r}, reads s v r ↔ ∃ ls, lexed ls v ∧ Piece.Bridges s ls r)
    (h : reads s v r) : ∃ b, s = b ++ r ∧ Complete reads b v := by
  obtain ⟨ls, hls, ps, hps, rfl⟩ := hlexed.1 h
  exact ⟨Piece.write ps, rfl, fun r => hlexed.2 ⟨ls, hls, ps, hps, rfl⟩⟩

/-- The same of what has a certain character behind it, past whole layout. -/
theorem exists_complete_char (hlexed : ∀ {s r}, reads s v r ↔ ∃ ls, lexed ls v ∧ Piece.Bridges s ls r)
    (h : reads s v r) {c : Char} {more : Text} (hchar : Token.char? c r = some more) :
    ∃ b w, s = b ++ (w ++ c :: more) ∧ Complete reads b v ∧ Layout.Whole w := by
  obtain ⟨b, rfl, hb⟩ := exists_complete hlexed h
  obtain ⟨w, hw, rfl⟩ := Token.exists_whole_of_char? hchar
  exact ⟨b, w, rfl, hb, hw⟩

end Complete

/-! ## Patterns -/

open Layout (Whole Endable)

variable {w b c : Text}

/-- Any name, for a pattern to consist of. -/
def anyName : { id : Name // Token.IsName id } := ⟨"a", 'a', [], rfl, by decide, by simp⟩

/-- A name is a term, behind whatever layout. -/
theorem Term.readsAs_anyName (hw : Whole w) (r : Text) :
    Term.ReadsAs (w ++ 'a' :: r) (.reference anyName.1 false) r :=
  .name (hw.before _) anyName.2 (.absent r)

/-- A name is a whole pattern. -/
theorem Sequence.readsAs_anyName (r : Text) :
    Sequence.ReadsAs ('a' :: r) [[.reference anyName.1 false]] r :=
  .single (.single (Term.readsAs_anyName .nothing r))

/-- Layout opens a term. -/
theorem Term.opens_of_endable (h : Endable w) : Opens Term.ReadsAs w := by
  obtain ⟨t, hwhole, -⟩ := h
  refine ⟨t ++ ['a'], .reference anyName.1 false, fun r => ?_⟩
  rw [List.append_assoc, ← List.append_assoc]
  exact Term.readsAs_anyName hwhole r

/-- Whatever a tuple has in it, it can be given an item. -/
theorem Term.opens_tuple (hw : Whole w) (hb : ∀ d ∈ b, Token.inTuple d = true) :
    Opens Term.ReadsAs (w ++ '[' :: b) := by
  have hcontent : ∀ d ∈ b ++ ['a'], Token.inTuple d = true := by
    rw [List.forall_mem_append, List.forall_mem_singleton]
    exact ⟨hb, by decide⟩
  have hne : Token.tupleItems (b ++ ['a']) ≠ [] := by
    intro hnil
    have ha := Text.words_eq_nil_iff.1 hnil 'a' (List.mem_append_right _ (List.mem_singleton_self _))
    exact absurd ha (by decide)
  refine ⟨['a', ']'], .literals (Token.tupleItems (b ++ ['a'])) false, fun r => ?_⟩
  have htuple := Term.ReadsAs.tuple (hw.before _) hcontent (Token.lists_tupleItems _) hne (.absent r)
  simp only [List.append_assoc, List.cons_append, List.nil_append] at htuple ⊢
  exact htuple

/-- What opens the body of a group opens the group. -/
theorem Term.opens_group (hw : Whole w) (h : Opens Sequence.ReadsAs b) :
    Opens Term.ReadsAs (w ++ '(' :: b) := by
  obtain ⟨t, body, hbody⟩ := h
  refine ⟨t ++ [')'], .group body false, fun r => ?_⟩
  simp only [List.append_assoc, List.cons_append, List.nil_append]
  exact .group (hw.before _) (hbody _) (.nothing _) (.absent r)

/-- Behind its body a group lacks its closing parenthesis only. -/
theorem Term.opens_closing {body : Sequence} (hw : Whole w) (hb : Complete Sequence.ReadsAs b body)
    (hc : Endable c) : Opens Term.ReadsAs (w ++ '(' :: (b ++ c)) := by
  obtain ⟨t, hwhole, -⟩ := hc
  have hclose := fun r => hwhole.before (')' :: r)
  refine ⟨t ++ [')'], .group body false, fun r => ?_⟩
  simp only [List.append_assoc, List.cons_append, List.nil_append] at hclose ⊢
  exact .group (hw.before _) (hb _) (hclose r) (.absent r)

/-- What opens a term opens an alternation of that term alone. -/
theorem Alternation.opens_single (h : Opens Term.ReadsAs b) : Opens Alternation.ReadsAs b := by
  obtain ⟨t, term, hterm⟩ := h
  exact ⟨t, [term], fun r => .single (hterm r)⟩

/-- Behind a term and a bar, what opens an alternation opens the longer one. -/
theorem Alternation.opens_cons {t : Term} (hb : Complete Term.ReadsAs b t) (hw : Whole w)
    (h : Opens Alternation.ReadsAs c) : Opens Alternation.ReadsAs (b ++ (w ++ '|' :: c)) := by
  obtain ⟨u, ts, hts⟩ := h
  refine ⟨u, t :: ts, fun r => ?_⟩
  simp only [List.append_assoc, List.cons_append]
  exact .cons (hb _) (hw.before _) (hts r)

/-- What opens an alternation opens a sequence of that alone. -/
theorem Sequence.opens_single (h : Opens Alternation.ReadsAs b) : Opens Sequence.ReadsAs b := by
  obtain ⟨t, g, hg⟩ := h
  exact ⟨t, [g], fun r => .single (hg r)⟩

/-- Behind an alternation and a comma, what opens a sequence opens the longer one. -/
theorem Sequence.opens_cons {g : Alternation} (hb : Complete Alternation.ReadsAs b g) (hw : Whole w)
    (h : Opens Sequence.ReadsAs c) : Opens Sequence.ReadsAs (b ++ (w ++ ',' :: c)) := by
  obtain ⟨u, gs, hgs⟩ := h
  refine ⟨u, g :: gs, fun r => ?_⟩
  simp only [List.append_assoc, List.cons_append]
  exact .cons (hb _) (hw.before _) (hgs r)

/-! ## Rules -/

namespace Rule

/-- The front of the text reads as the front of a rule, which goes up to the colon. -/
def FrontReadsAs (s : Text) (front : RuleKind × Name) (text : Text) : Prop :=
  ∃ head e, Layout.Before s head ∧ HeadReadsAs head front.1 front.2 e ∧ Layout.Before e (':' :: text)

variable {s e r : Text} {k : RuleKind} {id : Name} {front : RuleKind × Name} {body : Sequence} {rule : Rule}

/-- A head has at least its name. -/
theorem HeadReadsAs.ne_nil (h : HeadReadsAs s k id e) : s ≠ [] := by
  cases h with
  | plain hid _ =>
    obtain ⟨c, b, hcb, -⟩ := hid
    rw [hcb]
    exact List.cons_ne_nil _ _
  | kinded hword _ _ _ => exact List.append_ne_nil_of_left_ne_nil hword.ne_nil _

/-- A head reads the same in front of what starts as the text behind it does, and in front of anything that would not
part the head from a name. -/
theorem HeadReadsAs.exists_front (h : HeadReadsAs s k id e) :
    ∃ b, s = b ++ e ∧
      ∀ r, (∀ c, r.head? = some c → e.head? = some c ∨ Token.partsKindWord c = false) →
        HeadReadsAs (b ++ r) k id r := by
  cases h with
  | plain hid hword =>
    refine ⟨id.toList, rfl, fun r hr => .plain hid fun k c hk hc => ?_⟩
    exact (hr c hc).elim (hword k c hk) fun h => h
  | @kinded _ word blanks _ _ hword hne hblanks hid =>
    refine ⟨word ++ (blanks ++ id.toList), ?_, fun r _ => ?_⟩
    · simp only [List.append_assoc]
    · simp only [List.append_assoc]
      exact .kinded hword hne hblanks hid

/-- The layout in front of a head is whole. -/
theorem HeadReadsAs.exists_whole {head : Text} (hlayout : Layout.Before s head)
    (h : HeadReadsAs head k id e) : ∃ w, Whole w ∧ s = w ++ head := by
  have hskip : Layout.skip s = head := by rw [hlayout.skip_eq, h.skip_eq]
  rw [← hskip]
  apply Layout.exists_whole_skip
  rw [hskip]
  exact h.ne_nil

/-- Where a colon is missing behind a head, one can be put, past the layout there. -/
theorem exists_opens_of_head (h : HeadReadsAs (Layout.skip s) k id e) :
    ∃ b, s = b ++ Layout.skip e ∧ Opens FrontReadsAs b := by
  obtain ⟨w, hw, hs⟩ := h.exists_whole (Layout.before_skip s)
  obtain ⟨b, hb, hhead⟩ := h.exists_front
  obtain ⟨g, ⟨t, hwhole, ht⟩, he⟩ := Layout.exists_endable_skip e
  refine ⟨w ++ (b ++ g), ?_, t ++ [':'], (k, id), fun r => ?_⟩
  · rw [List.append_assoc, List.append_assoc, ← he, ← hb]
    exact hs
  have hcolon := hwhole.before (':' :: r)
  simp only [List.append_assoc, List.cons_append, List.nil_append] at hcolon ⊢
  refine ⟨_, _, hw.before _, hhead _ fun c hc => ?_, hcolon⟩
  -- the layout behind the head is the old one, or there is none and the colon is next
  cases g with
  | nil =>
    rw [ht rfl] at hc
    obtain rfl := Option.some.inj hc
    exact .inr (by decide)
  | cons d g =>
    rw [he]
    exact .inl hc

/-- The front of a rule reads the same in front of anything. -/
theorem FrontReadsAs.exists_complete (h : FrontReadsAs s front r) :
    ∃ b, s = b ++ r ∧ Complete FrontReadsAs b front := by
  obtain ⟨head, e, hlayout, hhead, hcolon⟩ := h
  obtain ⟨w, hw, rfl⟩ := hhead.exists_whole hlayout
  obtain ⟨b, rfl, hfront⟩ := hhead.exists_front
  obtain ⟨g, hg, rfl⟩ := hcolon.exists_whole (by decide)
  refine ⟨w ++ (b ++ (g ++ [':'])), by simp, fun r' => ?_⟩
  simp only [List.append_assoc, List.cons_append, List.nil_append]
  refine ⟨_, _, hw.before _, hfront _ fun c hc => .inl ?_, hg.before _⟩
  cases g with
  | nil => exact hc
  | cons d g => exact hc

/-- A front is not layout alone. -/
theorem FrontReadsAs.skip_ne_nil (h : FrontReadsAs s front r) : Layout.skip s ≠ [] := by
  obtain ⟨head, e, hlayout, hhead, -⟩ := h
  rw [hlayout.skip_eq, hhead.skip_eq]
  exact hhead.ne_nil

/-- Layout opens the front of a rule. -/
theorem opens_front_of_endable (h : Endable w) : Opens FrontReadsAs w := by
  obtain ⟨t, hwhole, -⟩ := h
  refine ⟨t ++ ['a', ':'], (.plain, anyName.1), fun r => ?_⟩
  have hhead : HeadReadsAs (anyName.1.toList ++ ':' :: r) .plain anyName.1 (':' :: r) := by
    refine .plain anyName.2 fun k c hk hc => ?_
    obtain rfl := Option.some.inj hc
    decide
  rw [List.append_assoc, ← List.append_assoc]
  exact ⟨_, _, hwhole.before _, hhead, .nothing _⟩

/-- What opens the front of a rule opens a rule. -/
theorem opens_front (h : Opens FrontReadsAs b) : Opens Rule.ReadsAs b := by
  obtain ⟨t, front, hfront⟩ := h
  refine ⟨t ++ ['a', ';'], ⟨front.2, front.1, [[.reference anyName.1 false]]⟩, fun r => ?_⟩
  obtain ⟨head, e, hlayout, hhead, hcolon⟩ := hfront ('a' :: ';' :: r)
  simp only [List.append_assoc, List.cons_append, List.nil_append]
  exact .rule hlayout hhead hcolon (Sequence.readsAs_anyName _) (.nothing _)

/-- What opens the body of a rule opens the rule. -/
theorem opens_body (hb : Complete FrontReadsAs b front) (h : Opens Sequence.ReadsAs c) :
    Opens Rule.ReadsAs (b ++ c) := by
  obtain ⟨t, body, hbody⟩ := h
  refine ⟨t ++ [';'], ⟨front.2, front.1, body⟩, fun r => ?_⟩
  obtain ⟨head, e, hlayout, hhead, hcolon⟩ := hb (c ++ (t ++ ';' :: r))
  simp only [List.append_assoc, List.cons_append, List.nil_append]
  exact .rule hlayout hhead hcolon (hbody _) (.nothing _)

/-- Behind its body a rule lacks its semicolon only. -/
theorem opens_semicolon (hb : Complete FrontReadsAs b front) (hc : Complete Sequence.ReadsAs c body)
    (hw : Endable w) : Opens Rule.ReadsAs (b ++ (c ++ w)) := by
  obtain ⟨t, hwhole, -⟩ := hw
  have hsemicolon := fun r => hwhole.before (';' :: r)
  refine ⟨t ++ [';'], ⟨front.2, front.1, body⟩, fun r => ?_⟩
  obtain ⟨head, e, hlayout, hhead, hcolon⟩ := hb (c ++ (w ++ (t ++ ';' :: r)))
  simp only [List.append_assoc, List.cons_append, List.nil_append] at hsemicolon ⊢
  exact .rule hlayout hhead hcolon (hc _) (hsemicolon r)

/-- A rule reads the same in front of anything. -/
theorem ReadsAs.exists_complete (h : ReadsAs s rule r) :
    ∃ b, s = b ++ r ∧ Complete Rule.ReadsAs b rule := by
  cases h with
  | @rule head e text e' _ kind id body hlayout hhead hcolon hbody hsemicolon =>
    have hfront : FrontReadsAs s (kind, id) text := ⟨head, e, hlayout, hhead, hcolon⟩
    obtain ⟨b, rfl, hb⟩ := hfront.exists_complete
    obtain ⟨c, rfl, hc⟩ := UtteranceGrammar.exists_complete (Sequence.readsAs_iff_lexed body) hbody
    obtain ⟨w, hw, rfl⟩ := hsemicolon.exists_whole (by decide)
    refine ⟨b ++ (c ++ (w ++ [';'])), by simp, fun r => ?_⟩
    obtain ⟨head, e, hlayout, hhead, hcolon⟩ := hb (c ++ (w ++ ';' :: r))
    simp only [List.append_assoc, List.cons_append, List.nil_append]
    exact .rule hlayout hhead hcolon (hc _) (hw.before _)

end Rule

end UtteranceGrammar
