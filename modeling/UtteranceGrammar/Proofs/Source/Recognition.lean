/-
Reading accepts exactly the syntax.

A source is read as a grammar if and only if that is what it reads as (`Grammar.read_eq_ok_iff`). Since a
reader has at most one answer, no source reads as two grammars.

Both directions are by induction on what is read, not on the text: a reader calls another one for a part of
the value, so the value goes down where the text only gets shorter. From reader to syntax nothing needs to be
known of the text behind. From syntax to reader it has to be known that what is behind does not go on, with
another term of an alternation, say; at each level that is told by the characters that can come next.
-/
import UtteranceGrammar.Source.SourceError
import UtteranceGrammar.Proofs.Source.Tokens

set_option autoImplicit false

namespace UtteranceGrammar

open Token (FollowedBy)

/-! ## One step of each reader -/

/-- A term is read in one of two ways. Behind an opening parenthesis stand a sequence and a closing one, and after
that perhaps the mark that the group may be left out. Without a parenthesis it is a simple term. -/
theorem Term.read_eq_ok_iff {s r : Text} {t : Term} :
    Term.read s = .ok (t, r) ↔
      (∃ inside body e e', Token.char? '(' s = some inside ∧
        Sequence.read inside = .ok (body, e) ∧ Token.char? ')' e = some e' ∧
        t = .group body (Token.questionMark e').1 ∧ r = (Token.questionMark e').2) ∨
      Token.char? '(' s = none ∧ Term.readSimple s = .ok (t, r) := by
  rw [Term.read_eq]
  cases Token.char? '(' s with
  | none => simp
  | some inside =>
    cases hbody : Sequence.read inside with
    | error f => simp [hbody]
    | ok p =>
      cases hclose : Token.char? ')' p.2 with
      | none => grind
      | some e' => grind

/-- An alternation is one term with no bar behind it, or a term, a bar and an alternation. -/
theorem Alternation.read_eq_ok_iff {s r : Text} {ts : Alternation} :
    Alternation.read s = .ok (ts, r) ↔
      (∃ t, Term.read s = .ok (t, r) ∧ Token.char? '|' r = none ∧ ts = [t]) ∨
      ∃ t e more us, Term.read s = .ok (t, e) ∧ Token.char? '|' e = some more ∧
        Alternation.read more = .ok (us, r) ∧ ts = t :: us := by
  rw [Alternation.read_eq]
  cases Term.read s with
  | error f => simp
  | ok p =>
    cases hbar : Token.char? '|' p.2 with
    | none => grind
    | some more => cases hmore : Alternation.read more <;> grind

/-- A sequence is one alternation with no comma behind it, or an alternation, a comma and a sequence. -/
theorem Sequence.read_eq_ok_iff {s r : Text} {gs : Sequence} :
    Sequence.read s = .ok (gs, r) ↔
      (∃ g, Alternation.read s = .ok (g, r) ∧ Token.char? ',' r = none ∧ gs = [g]) ∨
      ∃ g e more hs, Alternation.read s = .ok (g, e) ∧ Token.char? ',' e = some more ∧
        Sequence.read more = .ok (hs, r) ∧ gs = g :: hs := by
  rw [Sequence.read_eq]
  cases Alternation.read s with
  | error f => simp
  | ok p =>
    cases hcomma : Token.char? ',' p.2 with
    | none => grind
    | some more => cases hmore : Sequence.read more <;> grind

/-- A rule is read in the order in which it is written: the kind word, if there is one, the name, a colon, the
pattern and a semicolon. -/
theorem Rule.read_eq_ok_iff {s r : Text} {rule : Rule} :
    Rule.read s = .ok (rule, r) ↔
      ∃ id e text body e', Token.name? (Token.kind s).2 = some (id, e) ∧
        Token.char? ':' e = some text ∧ Sequence.read text = .ok (body, e') ∧
        Token.char? ';' e' = some r ∧ rule = ⟨id, (Token.kind s).1, body⟩ := by
  unfold Rule.read
  cases hname : Token.name? (Token.kind s).2 with
  | none => simp [hname]
  | some p =>
    cases hcolon : Token.char? ':' p.2 with
    | none => grind
    | some text =>
      cases hbody : Sequence.read text with
      | error f => grind
      | ok q => cases hsemicolon : Token.char? ';' q.2 <;> grind

/-- No rules are read just if there is nothing but layout. -/
theorem Grammar.read_eq_nil_iff {s : Text} : Grammar.read s = .ok [] ↔ Layout.skip s = [] := by
  rw [Grammar.read]
  by_cases hempty : (Layout.skip s).isEmpty = true
  · rw [if_pos hempty]
    exact iff_of_true rfl (List.isEmpty_iff.1 hempty)
  · rw [if_neg hempty]
    apply iff_of_false
    · intro h
      split at h
      · cases h
      · split at h <;> cases h
    · intro hskip
      exact hempty (List.isEmpty_iff.2 hskip)

/-- A first rule is read behind the layout in front of it, and the others are read from what it leaves. -/
theorem Grammar.read_eq_cons_iff {s : Text} {rule : Rule} {rules : List Rule} :
    Grammar.read s = .ok (rule :: rules) ↔
      ∃ r, Rule.read (Layout.skip s) = .ok (rule, r) ∧ Grammar.read r = .ok rules := by
  rw [Grammar.read]
  by_cases hempty : (Layout.skip s).isEmpty = true
  · -- no rule is read from nothing
    rw [if_pos hempty, List.isEmpty_iff.1 hempty]
    apply iff_of_false
    · intro h
      cases h
    · rintro ⟨r, hrule, -⟩
      cases hrule
  · rw [if_neg hempty]
    split
    · rename_i f hrule
      simp [hrule]
    · rename_i rule' rest hrule
      cases hrest : Grammar.read rest <;> grind

/-! ## What is read is in the syntax -/

/-- What is read as a simple term is written as one, a tuple of literals or a name. -/
theorem Term.readsAs_of_readSimple {s r : Text} {t : Term} (h : Term.readSimple s = .ok (t, r)) :
    Term.ReadsAs s t r := by
  unfold Term.readSimple at h
  split at h
  · rename_i inside hopen
    split at h
    · cases h
    · rename_i items e htuple
      obtain ⟨rfl, rfl⟩ := Prod.mk.inj (Except.ok.inj h)
      obtain ⟨content, rfl, hcontent, hitems, hne⟩ := Token.exists_of_tuple htuple
      exact .tuple (Token.before_of_char? hopen) hcontent hitems hne (Token.mark_of_questionMark e)
  · split at h
    · cases h
    · rename_i id e hname
      obtain ⟨rfl, rfl⟩ := Prod.mk.inj (Except.ok.inj h)
      obtain ⟨hskip, hid⟩ := Token.name?_eq_some hname
      refine .name ?_ hid (Token.mark_of_questionMark e)
      rw [← hskip]
      exact Layout.before_skip s

mutual

/-- What is read as a term is written as one. The proof is by recursion on the term that comes out, and a group has
its body as a part. -/
theorem Term.readsAs_of_read : ∀ (t : Term) {s r : Text},
    Term.read s = .ok (t, r) → Term.ReadsAs s t r
  | .literals items optional, s, r, h => by
    rcases Term.read_eq_ok_iff.1 h with ⟨_, _, _, _, _, _, _, heq, -⟩ | ⟨-, hsimple⟩
    · cases heq
    · exact Term.readsAs_of_readSimple hsimple
  | .reference id optional, s, r, h => by
    rcases Term.read_eq_ok_iff.1 h with ⟨_, _, _, _, _, _, _, heq, -⟩ | ⟨-, hsimple⟩
    · cases heq
    · exact Term.readsAs_of_readSimple hsimple
  | .group body optional, s, r, h => by
    rcases Term.read_eq_ok_iff.1 h with
      ⟨inside, body', e, e', hopen, hbody, hclose, heq, rfl⟩ | ⟨-, hsimple⟩
    · obtain ⟨rfl, rfl⟩ := Term.group.inj heq
      exact .group (Token.before_of_char? hopen) (Sequence.readsAs_of_read body hbody)
        (Token.before_of_char? hclose) (Token.mark_of_questionMark e')
    · exact Term.readsAs_of_readSimple hsimple

/-- What is read as an alternation is written as one. -/
theorem Alternation.readsAs_of_read : ∀ (ts : List Term) {s r : Text},
    Alternation.read s = .ok (ts, r) → Alternation.ReadsAs s ts r
  | [], s, r, h => by
    rcases Alternation.read_eq_ok_iff.1 h with ⟨_, _, _, heq⟩ | ⟨_, _, _, _, _, _, _, heq⟩
    · cases heq
    · cases heq
  | t :: ts, s, r, h => by
    rcases Alternation.read_eq_ok_iff.1 h with
      ⟨t', ht, -, heq⟩ | ⟨t', e, more, us, ht, hbar, hmore, heq⟩
    · obtain ⟨rfl, rfl⟩ := List.cons.inj heq
      exact .single (Term.readsAs_of_read t ht)
    · obtain ⟨rfl, rfl⟩ := List.cons.inj heq
      exact .cons (Term.readsAs_of_read t ht) (Token.before_of_char? hbar)
        (Alternation.readsAs_of_read ts hmore)

/-- What is read as a sequence is written as one. -/
theorem Sequence.readsAs_of_read : ∀ (gs : List (List Term)) {s r : Text},
    Sequence.read s = .ok (gs, r) → Sequence.ReadsAs s gs r
  | [], s, r, h => by
    rcases Sequence.read_eq_ok_iff.1 h with ⟨_, _, _, heq⟩ | ⟨_, _, _, _, _, _, _, heq⟩
    · cases heq
    · cases heq
  | g :: gs, s, r, h => by
    rcases Sequence.read_eq_ok_iff.1 h with
      ⟨g', hg, -, heq⟩ | ⟨g', e, more, hs, hg, hcomma, hmore, heq⟩
    · obtain ⟨rfl, rfl⟩ := List.cons.inj heq
      exact .single (Alternation.readsAs_of_read g hg)
    · obtain ⟨rfl, rfl⟩ := List.cons.inj heq
      exact .cons (Alternation.readsAs_of_read g hg) (Token.before_of_char? hcomma)
        (Sequence.readsAs_of_read gs hmore)

end

/-! ## What is in the syntax is read -/

mutual

/-- What is written as a term is read as that term, if what follows cannot belong to it: a question mark there would
be taken as its mark, and a letter as part of its name. -/
theorem Term.read_of_readsAs : ∀ (t : Term) {s r : Text}, Term.ReadsAs s t r →
    FollowedBy ['|', ',', ')', ';'] r → Term.read s = .ok (t, r)
  | .literals items optional, s, r, h, hr => by
    cases h with
    | tuple hopen hcontent hitems hne hmark =>
      have hskip := Layout.skip_eq_of_before (by decide) hopen
      refine Term.read_eq_ok_iff.2 (.inr ⟨Token.char?_eq_none hskip (by decide), ?_⟩)
      rw [Term.readSimple, Token.char?_of_before (by decide) hopen]
      simp only [Token.tuple_append hcontent hitems hne, hmark.questionMark_eq hr (by decide)]
  | .reference id optional, s, r, h, hr => by
    cases h with
    | @name _ e _ _ _ hname hid hmark =>
      have hskip : Layout.skip s = id.toList ++ e := by rw [hname.skip_eq, hid.skip_append]
      have hread := hid.name?_append fun c hc => (hmark.followedBy hr).head_continues hc
      refine Term.read_eq_ok_iff.2 (.inr ⟨hid.char?_eq_none hskip (by decide), ?_⟩)
      rw [Term.readSimple, hid.char?_eq_none hskip (by decide), hskip]
      simp only [hread, hmark.questionMark_eq hr (by decide)]
  | .group body optional, s, r, h, hr => by
    cases h with
    | @group _ inside e e' _ _ _ hopen hbody hclose hmark =>
      have hread : Sequence.read inside = .ok (body, e) :=
        Sequence.read_of_readsAs body hbody ⟨')', by decide, by decide, e', hclose⟩
      refine Term.read_eq_ok_iff.2 (.inl ⟨inside, body, e, e', ?_, hread, ?_, ?_⟩)
      · exact Token.char?_of_before (by decide) hopen
      · exact Token.char?_of_before (by decide) hclose
      · rw [hmark.questionMark_eq hr (by decide)]
        exact ⟨rfl, rfl⟩

/-- What is written as an alternation is read as that alternation, if no bar follows, which would go on with it. -/
theorem Alternation.read_of_readsAs : ∀ (ts : List Term) {s r : Text}, Alternation.ReadsAs s ts r →
    FollowedBy [',', ')', ';'] r → Alternation.read s = .ok (ts, r)
  | [], _, _, h, _ => by cases h
  | t :: ts, s, r, h, hr => by
    refine Alternation.read_eq_ok_iff.2 ?_
    cases h with
    | single ht =>
      have hread := Term.read_of_readsAs t ht (hr.cons '|')
      exact .inl ⟨t, hread, hr.char?_eq_none (by decide), rfl⟩
    | @cons _ e more _ _ _ ht hbar hts =>
      have hread := Term.read_of_readsAs t ht ⟨'|', by decide, by decide, more, hbar⟩
      exact .inr ⟨t, e, more, ts, hread, Token.char?_of_before (by decide) hbar,
        Alternation.read_of_readsAs ts hts hr, rfl⟩

/-- What is written as a sequence is read as that sequence, if no comma follows, which would go on with it. -/
theorem Sequence.read_of_readsAs : ∀ (gs : List (List Term)) {s r : Text}, Sequence.ReadsAs s gs r →
    FollowedBy [')', ';'] r → Sequence.read s = .ok (gs, r)
  | [], _, _, h, _ => by cases h
  | g :: gs, s, r, h, hr => by
    refine Sequence.read_eq_ok_iff.2 ?_
    cases h with
    | single hg =>
      have hread := Alternation.read_of_readsAs g hg (hr.cons ',')
      exact .inl ⟨g, hread, hr.char?_eq_none (by decide), rfl⟩
    | @cons _ e more _ _ _ hg hcomma hgs =>
      have hread := Alternation.read_of_readsAs g hg ⟨',', by decide, by decide, more, hcomma⟩
      exact .inr ⟨g, e, more, gs, hread, Token.char?_of_before (by decide) hcomma,
        Sequence.read_of_readsAs gs hgs hr, rfl⟩

end

/-! ## Rules and sources -/

/-- Behind the layout in front of it, a rule is read just as it is written. Nothing need be asked of what follows, as
a rule ends with a semicolon. -/
theorem Rule.read_skip_eq_ok_iff {s r : Text} {rule : Rule} :
    Rule.read (Layout.skip s) = .ok (rule, r) ↔ Rule.ReadsAs s rule r := by
  rw [Rule.read_eq_ok_iff]
  constructor
  · rintro ⟨id, e, text, body, e', hname, hcolon, hbody, hsemicolon, rfl⟩
    exact .rule (Layout.before_skip s) (Rule.headReadsAs_of_kind hname) (Token.before_of_char? hcolon)
      (Sequence.readsAs_of_read body hbody) (Token.before_of_char? hsemicolon)
  · intro h
    cases h with
    | @rule head e text e' _ kind id body hlayout hhead hcolon hbody hsemicolon =>
      have hfollow : FollowedBy [':'] e := ⟨':', by decide, by decide, text, hcolon⟩
      have hkind := hhead.kind_eq fun c hc => hfollow.head_continues hc
      rw [hlayout.skip_eq, hhead.skip_eq, hkind]
      refine ⟨id, e, text, body, e', ?_, ?_, ?_, ?_, rfl⟩
      · exact hhead.isName.name?_append fun c hc => hfollow.head_continues hc
      · exact Token.char?_of_before (by decide) hcolon
      · exact Sequence.read_of_readsAs body hbody ⟨';', by decide, by decide, r, hsemicolon⟩
      · exact Token.char?_of_before (by decide) hsemicolon

namespace Grammar

/-- A text is read as a grammar just if it is written as one. -/
theorem read_eq_ok_iff {s : Text} {g : Grammar} : read s = .ok g ↔ ReadsAs s g := by
  induction g generalizing s with
  | nil =>
    rw [read_eq_nil_iff]
    constructor
    · intro hskip
      have hlayout := Layout.before_skip s
      rw [hskip] at hlayout
      exact .nil hlayout
    · intro h
      cases h with
      | nil hlayout =>
        rw [hlayout.skip_eq]
        exact Layout.skip_of_strip?_eq_none rfl
  | cons rule rules ih =>
    rw [read_eq_cons_iff]
    constructor
    · rintro ⟨r, hrule, hrules⟩
      exact .cons (Rule.read_skip_eq_ok_iff.1 hrule) (ih.1 hrules)
    · intro h
      cases h with
      | @cons _ r _ _ hrule hrules =>
        exact ⟨r, Rule.read_skip_eq_ok_iff.2 hrule, ih.2 hrules⟩

/-- Parsing adds nothing to reading but the place and the wording of errors. -/
theorem parse_eq_ok_iff {source : Text} {g : Grammar} : parse source = .ok g ↔ read source = .ok g := by
  rw [parse]
  cases read source with
  | error f => simp [Except.mapError]
  | ok g' => simp [Except.mapError]

/-- A source is accepted exactly if it reads as a grammar, and as that one, and it reads as no other. -/
theorem parse_accepts (source : Text) (g : Grammar) :
    (parse source = .ok g ↔ ReadsAs source g) ∧
      ∀ g', ReadsAs source g → ReadsAs source g' → g' = g := by
  refine ⟨parse_eq_ok_iff.trans read_eq_ok_iff, ?_⟩
  intro g' hg hg'
  have hread := read_eq_ok_iff.2 hg
  rw [read_eq_ok_iff.2 hg'] at hread
  exact Except.ok.inj hread

/-- A rule that is called like a kind and has one, and one that has none. -/
def kindWords : Grammar :=
  [⟨"ENTITY", .entity, [[.literals ["b".toList, "c".toList] true, .reference "x" false]]⟩,
    ⟨"intent", .plain, [[.group [[.reference "x" false]] false]]⟩]

/-- Names that are kind words, comments at odd places and an empty item: there is one grammar that the source can be
read as. -/
theorem parse_accepts_kindWords :
    ReadsAs "# kinds\r\nEntity\tENTITY : [b,, c ] ?|x; intent//\n:(x);".toList kindWords ∧
      ∀ g, ReadsAs "# kinds\r\nEntity\tENTITY : [b,, c ] ?|x; intent//\n:(x);".toList g →
        g = kindWords := by
  obtain ⟨hiff, hunique⟩ := parse_accepts
    "# kinds\r\nEntity\tENTITY : [b,, c ] ?|x; intent//\n:(x);".toList kindWords
  have hreads := hiff.1 (by decide +kernel)
  exact ⟨hreads, fun g hg => hunique g hreads hg⟩

/-- With white space behind it, the word is taken for a kind, and the rule for one without a name. -/
example : (parse "intent : (x);".toList).toOption = none := by decide +kernel

end Grammar

end UtteranceGrammar
