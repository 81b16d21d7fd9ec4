/-
How the readers fail.

A reader fails within a part that it has another reader for, or where a token should stand, past the layout there;
for each reader a lemma says which it can be (`Term.exists_of_read_eq_error`, and so on). A tuple is different in one
respect: one that lists nothing fails too, but only behind its closing bracket.

And a part that cannot be read makes the whole one that cannot, since no reader goes back and tries another way. So a
hollow tuple is beyond repair, whatever is written behind it and however deep it stands.
-/
import UtteranceGrammar.Proofs.Source.Completion
import UtteranceGrammar.Proofs.Source.Recognition

set_option autoImplicit false

namespace UtteranceGrammar

open Layout (Whole)

variable {s b c w : Text} {f : Failure}

/-! ## Hollow tuples -/

namespace Token

/-- There is nothing in the content of a tuple but commas and white space. -/
def Hollow (content : Text) : Prop := ∀ c ∈ content, c = ',' ∨ Text.isBlank c = true

/-- A hollow content lists nothing. -/
theorem Hollow.tupleItems_eq (h : Hollow c) : tupleItems c = [] := by
  rw [tupleItems, Text.words_eq_nil_iff]
  intro d hd
  exact (h d hd).imp_left beq_iff_eq.2

/-- A content that lists nothing is hollow. -/
theorem hollow_of_tupleItems (h : tupleItems c = []) : Hollow c := by
  intro d hd
  exact (Text.words_eq_nil_iff.1 h d hd).imp_left beq_iff_eq.1

/-- Commas and white space may stand in a tuple. -/
theorem Hollow.forall_inTuple (h : Hollow c) : ∀ d ∈ c, inTuple d = true := by
  intro d hd
  rcases h d hd with rfl | hblank
  · decide
  · -- neither the closing bracket nor a mark is white space
    unfold inTuple Markup.isMark
    rw [Bool.and_eq_true, Bool.not_eq_true', Bool.or_eq_false_iff, bne_iff_ne, beq_eq_false_iff_ne,
      beq_eq_false_iff_ne]
    refine ⟨?_, ?_, ?_⟩ <;>
    · rintro rfl
      exact absurd hblank (by decide)

/-- A tuple fails where it should go on or be closed, or behind its bracket if it is hollow. -/
theorem exists_of_tuple_eq_error (h : tuple s = .error f) :
    (∃ content, (∀ d ∈ content, inTuple d = true) ∧ s = content ++ f.rest) ∨
      ∃ content, Hollow content ∧ s = content ++ ']' :: f.rest := by
  have hinside : ∀ d ∈ s.takeWhile inTuple, inTuple d = true := fun d hd => List.mem_takeWhile_imp hd
  have hs : s = s.takeWhile inTuple ++ s.dropWhile inTuple := List.takeWhile_append_dropWhile.symm
  unfold tuple at h
  split at h
  · rename_i hdrop
    rw [hdrop] at hs
    obtain rfl := Except.error.inj h
    exact .inl ⟨_, hinside, hs⟩
  · rename_i d rest hdrop
    rw [hdrop] at hs
    split at h
    · rename_i hd
      simp only at h
      split at h
      · rename_i hempty
        obtain rfl := Except.error.inj h
        rw [hd] at hs
        exact .inr ⟨_, hollow_of_tupleItems (List.isEmpty_iff.1 hempty), hs⟩
      · cases h
    · obtain rfl := Except.error.inj h
      exact .inl ⟨_, hinside, hs⟩

/-- A hollow tuple fails, but not until its closing bracket has been read. -/
theorem Hollow.tuple_eq (h : Hollow c) (r : Text) : tuple (c ++ ']' :: r) = .error ⟨r, []⟩ := by
  obtain ⟨htake, hdrop⟩ := Text.takeWhile_append_of_head (r := ']' :: r) h.forall_inTuple (by
    intro d hd
    obtain rfl := Option.some.inj hd
    decide)
  rw [tuple, hdrop, htake]
  simp only [h.tupleItems_eq, ↓reduceIte, List.isEmpty_nil]

end Token

/-! ## One step of each reader -/

/-- A term fails within the tuple or the group that it opens with, at the closing parenthesis, or in its place. -/
theorem Term.exists_of_read_eq_error (h : Term.read s = .error f) :
    (∃ inside f', Token.char? '(' s = some inside ∧ Sequence.read inside = .error f' ∧ f.rest = f'.rest) ∨
    (∃ inside body e, Token.char? '(' s = some inside ∧ Sequence.read inside = .ok (body, e) ∧
      f.rest = Layout.skip e) ∨
    (∃ inside f', Token.char? '(' s = none ∧ Token.char? '[' s = some inside ∧
      Token.tuple inside = .error f' ∧ f.rest = f'.rest) ∨
    f.rest = Layout.skip s := by
  rw [Term.read_eq] at h
  split at h
  · rename_i inside hopen
    split at h
    · rename_i f' hbody
      obtain rfl := Except.error.inj h
      exact .inl ⟨inside, f', hopen, hbody, rfl⟩
    · rename_i body e hbody
      split at h
      · obtain rfl := Except.error.inj h
        exact .inr (.inl ⟨inside, body, e, hopen, hbody, rfl⟩)
      · cases h
  · rename_i hopen
    unfold Term.readSimple at h
    split at h
    · rename_i inside hbracket
      split at h
      · rename_i f' htuple
        obtain rfl := Except.error.inj h
        exact .inr (.inr (.inl ⟨inside, f', hopen, hbracket, htuple, rfl⟩))
      · cases h
    · split at h
      · obtain rfl := Except.error.inj h
        exact .inr (.inr (.inr rfl))
      · cases h

/-- An alternation fails where its first term does, or behind a bar. -/
theorem Alternation.exists_of_read_eq_error (h : Alternation.read s = .error f) :
    Term.read s = .error f ∨
      ∃ t e more, Term.read s = .ok (t, e) ∧ Token.char? '|' e = some more ∧
        Alternation.read more = .error f := by
  rw [Alternation.read_eq] at h
  split at h
  · rename_i f' ht
    exact .inl (by rw [ht, Except.error.inj h])
  · rename_i t e ht
    split at h
    · cases h
    · rename_i more hbar
      split at h
      · rename_i f' hmore
        exact .inr ⟨t, e, more, ht, hbar, by rw [hmore, h]⟩
      · cases h

/-- A sequence fails where its first alternation does, or behind a comma. -/
theorem Sequence.exists_of_read_eq_error (h : Sequence.read s = .error f) :
    Alternation.read s = .error f ∨
      ∃ g e more, Alternation.read s = .ok (g, e) ∧ Token.char? ',' e = some more ∧
        Sequence.read more = .error f := by
  rw [Sequence.read_eq] at h
  split at h
  · rename_i f' hg
    exact .inl (by rw [hg, Except.error.inj h])
  · rename_i g e hg
    split at h
    · cases h
    · rename_i more hcomma
      split at h
      · rename_i f' hmore
        exact .inr ⟨g, e, more, hg, hcomma, by rw [hmore, h]⟩
      · cases h

/-- A rule fails in its place, where its colon should stand, within its body or where its semicolon should stand. -/
theorem Rule.exists_of_read_eq_error (h : Rule.read s = .error f) :
    f.rest = s ∨
    (∃ id e, Token.name? (Token.kind s).2 = some (id, e) ∧ f.rest = Layout.skip e) ∨
    ∃ id e text, Token.name? (Token.kind s).2 = some (id, e) ∧ Token.char? ':' e = some text ∧
      ((∃ f', Sequence.read text = .error f' ∧ f.rest = f'.rest) ∨
        ∃ body e', Sequence.read text = .ok (body, e') ∧ f.rest = Layout.skip e') := by
  simp only [Rule.read] at h
  split at h
  · obtain rfl := Except.error.inj h
    exact .inl rfl
  rename_i id e hname
  split at h
  · obtain rfl := Except.error.inj h
    exact .inr (.inl ⟨id, e, hname, rfl⟩)
  rename_i text hcolon
  split at h
  · rename_i f' hbody
    obtain rfl := Except.error.inj h
    exact .inr (.inr ⟨id, e, text, hname, hcolon, .inl ⟨f', hbody, rfl⟩⟩)
  rename_i body e' hbody
  split at h
  · obtain rfl := Except.error.inj h
    exact .inr (.inr ⟨id, e, text, hname, hcolon, .inr ⟨body, e', hbody, rfl⟩⟩)
  · cases h

/-! ## What cannot be read -/

/-- The reader fails on the text. -/
def Fails {α : Type} (read : Text → Except Failure (α × Text)) (s : Text) : Prop := ∃ f, read s = .error f

/-- No term is read from a hollow tuple, whatever comes behind it. -/
theorem Term.fails_tuple (hw : Whole w) (hc : Token.Hollow c) (r : Text) :
    Fails Term.read (w ++ '[' :: (c ++ ']' :: r)) := by
  have hbracket := hw.before ('[' :: (c ++ ']' :: r))
  have hopen := Token.char?_eq_none (Layout.skip_eq_of_before (by decide) hbracket) (c := '(') (by decide)
  rw [Fails, Term.read_eq, hopen, Term.readSimple, Token.char?_of_before (by decide) hbracket]
  simp only [hc.tuple_eq]
  exact ⟨_, rfl⟩

/-- No term is read from a group with a body that fails. -/
theorem Term.fails_group (hw : Whole w) (h : Fails Sequence.read b) : Fails Term.read (w ++ '(' :: b) := by
  obtain ⟨f, hf⟩ := h
  rw [Fails, Term.read_eq, Token.char?_of_before (by decide) (hw.before _)]
  simp only [hf]
  exact ⟨_, rfl⟩

/-- No alternation is read where no first term is. -/
theorem Alternation.fails_single (h : Fails Term.read b) : Fails Alternation.read b := by
  obtain ⟨f, hf⟩ := h
  rw [Fails, Alternation.read_eq, hf]
  exact ⟨f, rfl⟩

/-- A bar has to be followed by an alternation: the reader does not go back in front of it. -/
theorem Alternation.fails_cons {t : Term} (hb : Complete Term.ReadsAs b t) (hw : Whole w)
    (h : Fails Alternation.read c) : Fails Alternation.read (b ++ (w ++ '|' :: c)) := by
  obtain ⟨f, hf⟩ := h
  have hbar := hw.before ('|' :: c)
  have hread := Term.read_of_readsAs t (hb _) ⟨'|', by decide, by decide, c, hbar⟩
  rw [Fails, Alternation.read_eq, hread]
  simp only [Token.char?_of_before (by decide) hbar, hf]
  exact ⟨f, rfl⟩

/-- No sequence is read where no first alternation is. -/
theorem Sequence.fails_single (h : Fails Alternation.read b) : Fails Sequence.read b := by
  obtain ⟨f, hf⟩ := h
  rw [Fails, Sequence.read_eq, hf]
  exact ⟨f, rfl⟩

/-- A comma has to be followed by a sequence: the reader does not go back in front of it. -/
theorem Sequence.fails_cons {g : Alternation} (hb : Complete Alternation.ReadsAs b g) (hw : Whole w)
    (h : Fails Sequence.read c) : Fails Sequence.read (b ++ (w ++ ',' :: c)) := by
  obtain ⟨f, hf⟩ := h
  have hcomma := hw.before (',' :: c)
  have hread := Alternation.read_of_readsAs g (hb _) ⟨',', by decide, by decide, c, hcomma⟩
  rw [Fails, Sequence.read_eq, hread]
  simp only [Token.char?_of_before (by decide) hcomma, hf]
  exact ⟨f, rfl⟩

namespace Rule

/-- No rule can be read from the text, and it is not the end of a source either. -/
def FailsOn (s : Text) : Prop := Layout.skip s ≠ [] ∧ Fails Rule.read (Layout.skip s)

/-- No rule is read whose body fails. -/
theorem fails_body {front : RuleKind × Name} (hb : Complete FrontReadsAs b front)
    (h : Fails Sequence.read c) : FailsOn (b ++ c) := by
  obtain ⟨f, hf⟩ := h
  have hne := (hb c).skip_ne_nil
  obtain ⟨head, e, hlayout, hhead, hcolon⟩ := hb c
  have hfollow : Token.FollowedBy [':'] e := ⟨':', by decide, by decide, c, hcolon⟩
  have hcontinues := fun d hd => hfollow.head_continues (c := d) hd
  have hkind := hhead.kind_eq hcontinues
  have hname := hhead.isName.name?_append hcontinues
  refine ⟨hne, f.within [.ruleBody], ?_⟩
  rw [hlayout.skip_eq, hhead.skip_eq, Rule.read, hkind]
  simp only [hname, Token.char?_of_before (by decide) hcolon, hf]

end Rule

end UtteranceGrammar
