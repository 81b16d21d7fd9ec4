/-
The tokens of patterns, rules and grammars.

A grammar says which tokens a source of it has, up to what is not kept of them: the letter case of a kind word and
what a tuple has between its items (`Grammar.Lexed`). Nothing is said there of layout. For a pattern there is
nothing to say: a text reads as the pattern exactly if tokens of the pattern, with any layout in front of each,
lead from the text to what is left of it (`Sequence.readsAs_iff_lexed`). Nor need there be any layout, since in a
pattern no word stands next to another one (`Sequence.Lexed.within`).
-/
import UtteranceGrammar.Proofs.Source.Lexemes

set_option autoImplicit false

namespace UtteranceGrammar

/-! ## The tokens of a grammar -/

/-- A question mark, if there is to be one. -/
def Lexeme.mark (optional : Bool) : List Lexeme := if optional then [.sign .question] else []

mutual

/-- The tokens are those of the term. -/
inductive Term.Lexed : List Lexeme → Term → Prop where
  | tuple {content : { s : Text // ∀ c ∈ s, Token.inTuple c = true }} {items : List Text}
      (hitems : Token.Lists content.1 items) (hne : items ≠ []) (optional : Bool) :
      Term.Lexed (.tuple content :: Lexeme.mark optional) (.literals items optional)
  | name (id : { id : Name // Token.IsName id }) (optional : Bool) :
      Term.Lexed (.word id :: Lexeme.mark optional) (.reference id.1 optional)
  | group {ls : List Lexeme} {body : List (List Term)} (hbody : Sequence.Lexed ls body)
      (optional : Bool) :
      Term.Lexed (.sign .opening :: (ls ++ .sign .closing :: Lexeme.mark optional)) (.group body optional)

/-- The tokens are those of the terms, with bars between them. -/
inductive Alternation.Lexed : List Lexeme → List Term → Prop where
  | single {ls : List Lexeme} {t : Term} (ht : Term.Lexed ls t) : Alternation.Lexed ls [t]
  | cons {ls ms : List Lexeme} {t : Term} {ts : List Term} (ht : Term.Lexed ls t)
      (hts : Alternation.Lexed ms ts) : Alternation.Lexed (ls ++ .sign .bar :: ms) (t :: ts)

/-- The tokens are those of the alternations, with commas between them. -/
inductive Sequence.Lexed : List Lexeme → List (List Term) → Prop where
  | single {ls : List Lexeme} {g : List Term} (hg : Alternation.Lexed ls g) : Sequence.Lexed ls [g]
  | cons {ls ms : List Lexeme} {g : List Term} {gs : List (List Term)} (hg : Alternation.Lexed ls g)
      (hgs : Sequence.Lexed ms gs) : Sequence.Lexed (ls ++ .sign .comma :: ms) (g :: gs)

end

/-- The tokens are those of the rule, up to its semicolon. -/
inductive Rule.Lexed : List Lexeme → Rule → Prop where
  | plain (id : { id : Name // Token.IsName id }) {ls : List Lexeme} {body : Sequence}
      (hbody : Sequence.Lexed ls body) : Rule.Lexed (.word id :: .sign .colon :: ls) ⟨id.1, .plain, body⟩
  | kinded {k : RuleKind} {word : { id : Name // Token.IsName id }}
      (hword : Token.KindWord k word.1.toList) (id : { id : Name // Token.IsName id })
      {ls : List Lexeme} {body : Sequence} (hbody : Sequence.Lexed ls body) :
      Rule.Lexed (.word word :: .word id :: .sign .colon :: ls) ⟨id.1, k, body⟩

/-- The tokens are those of the rules, with a semicolon behind each. -/
inductive Grammar.Lexed : List Lexeme → Grammar → Prop where
  | nil : Grammar.Lexed [] []
  | cons {ls ms : List Lexeme} {rule : Rule} {rules : Grammar} (hrule : Rule.Lexed ls rule)
      (hrules : Grammar.Lexed ms rules) : Grammar.Lexed (ls ++ .sign .semicolon :: ms) (rule :: rules)

/-! ## Tokens between two places of a source -/

/-- The tokens, with layout in front of each, lead from one place of a source to the other. -/
def Piece.Bridges (s : Text) (ls : List Lexeme) (r : Text) : Prop :=
  ∃ ps : List Piece, ps.map Piece.token = ls ∧ s = Piece.write ps ++ r

namespace Piece

variable {s r : Text} {l : Lexeme} {ls ms : List Lexeme}

/-- Pieces one after the other are written one after the other. -/
theorem write_append (ps qs : List Piece) : write (ps ++ qs) = write ps ++ write qs :=
  List.flatMap_append

/-- Where there are no tokens, the two places are one. -/
theorem bridges_nil_iff : Bridges s [] r ↔ s = r := by
  constructor
  · rintro ⟨ps, hps, rfl⟩
    rw [List.map_eq_nil_iff] at hps
    rw [hps]
    rfl
  · rintro rfl
    exact ⟨[], rfl, rfl⟩

/-- The first of some tokens is written behind layout, and the others follow. -/
theorem bridges_cons_iff :
    Bridges s (l :: ls) r ↔ ∃ e, Layout.Before s (l.text ++ e) ∧ Bridges e ls r := by
  constructor
  · rintro ⟨ps, hps, rfl⟩
    obtain ⟨p, ps, rfl, rfl, hls⟩ := List.map_eq_cons_iff.1 hps
    refine ⟨write ps ++ r, ?_, ps, hls, rfl⟩
    rw [write_cons_append]
    exact p.whole.before _
  · rintro ⟨e, hbefore, ps, hps, rfl⟩
    obtain ⟨p, hp, rfl⟩ := exists_of_before hbefore
    refine ⟨p :: ps, ?_, ?_⟩
    · rw [List.map_cons, hp, hps]
    · rw [write_cons_append, text, List.append_assoc]

/-- Tokens lead to where the first of them lead, and the others from there. -/
theorem bridges_append_iff :
    Bridges s (ls ++ ms) r ↔ ∃ e, Bridges s ls e ∧ Bridges e ms r := by
  constructor
  · rintro ⟨ps, hps, rfl⟩
    obtain ⟨ps₁, ps₂, rfl, hls, hms⟩ := List.map_eq_append_iff.1 hps
    refine ⟨write ps₂ ++ r, ⟨ps₁, hls, ?_⟩, ps₂, hms, rfl⟩
    rw [write_append, List.append_assoc]
  · rintro ⟨e, ⟨ps₁, hls, rfl⟩, ps₂, hms, rfl⟩
    refine ⟨ps₁ ++ ps₂, ?_, ?_⟩
    · rw [List.map_append, hls, hms]
    · rw [write_append, List.append_assoc]

/-- The token of a mark, if there is one, leads where the mark leads. -/
theorem bridges_mark_iff {optional : Bool} :
    Bridges s (Lexeme.mark optional) r ↔ Token.Mark s optional r := by
  cases optional with
  | false =>
    rw [Lexeme.mark, if_neg Bool.false_ne_true, bridges_nil_iff]
    constructor
    · rintro rfl
      exact .absent s
    · intro h
      cases h with
      | absent => rfl
  | true =>
    rw [Lexeme.mark, if_pos rfl, bridges_cons_iff]
    constructor
    · rintro ⟨e, hbefore, hrest⟩
      obtain rfl := bridges_nil_iff.1 hrest
      exact .present hbefore
    · intro h
      cases h with
      | present h => exact ⟨r, h, bridges_nil_iff.2 rfl⟩

/-- Tokens, a sign, and tokens again. -/
theorem bridges_sign_iff {sign : Sign} :
    Bridges s (ls ++ .sign sign :: ms) r ↔
      ∃ e more, Bridges s ls e ∧ Layout.Before e (sign.char :: more) ∧ Bridges more ms r := by
  rw [bridges_append_iff]
  constructor
  · rintro ⟨e, hls, hrest⟩
    obtain ⟨more, hsign, hms⟩ := bridges_cons_iff.1 hrest
    exact ⟨e, more, hls, hsign, hms⟩
  · rintro ⟨e, more, hls, hsign, hms⟩
    exact ⟨e, hls, bridges_cons_iff.2 ⟨more, hsign, hms⟩⟩

end Piece

/-! ## Patterns -/

mutual

/-- A term is written from one text to another just if tokens of it lead from the one to the other. This is one case
for each way to write a term, and for a group it rests on the case of sequences. -/
theorem Term.readsAs_iff_lexed : ∀ (t : Term) {s r : Text},
    Term.ReadsAs s t r ↔ ∃ ls, Term.Lexed ls t ∧ Piece.Bridges s ls r
  | .literals items optional, s, r => by
    constructor
    · intro h
      cases h with
      | @tuple _ content e _ _ _ hopen hcontent hitems hne hmark =>
        refine ⟨.tuple ⟨content, hcontent⟩ :: Lexeme.mark optional, .tuple hitems hne optional, ?_⟩
        refine Piece.bridges_cons_iff.2 ⟨e, ?_, Piece.bridges_mark_iff.2 hmark⟩
        rw [Lexeme.tuple_text_append]
        exact hopen
    · rintro ⟨ls, hls, hbridge⟩
      cases hls with
      | @tuple content _ hitems hne _ =>
        obtain ⟨e, hbefore, hmark⟩ := Piece.bridges_cons_iff.1 hbridge
        rw [Lexeme.tuple_text_append] at hbefore
        exact .tuple hbefore content.2 hitems hne (Piece.bridges_mark_iff.1 hmark)
  | .reference id optional, s, r => by
    constructor
    · intro h
      cases h with
      | @name _ e _ _ _ hname hid hmark =>
        exact ⟨.word ⟨id, hid⟩ :: Lexeme.mark optional, .name ⟨id, hid⟩ optional,
          Piece.bridges_cons_iff.2 ⟨e, hname, Piece.bridges_mark_iff.2 hmark⟩⟩
    · rintro ⟨ls, hls, hbridge⟩
      cases hls with
      | name id _ =>
        obtain ⟨e, hbefore, hmark⟩ := Piece.bridges_cons_iff.1 hbridge
        exact .name hbefore id.2 (Piece.bridges_mark_iff.1 hmark)
  | .group body optional, s, r => by
    constructor
    · intro h
      cases h with
      | @group _ inside e e' _ _ _ hopen hbody hclose hmark =>
        obtain ⟨ls, hls, hinside⟩ := (Sequence.readsAs_iff_lexed body).1 hbody
        exact ⟨_, .group hls optional, Piece.bridges_cons_iff.2 ⟨inside, hopen,
          Piece.bridges_sign_iff.2 ⟨e, e', hinside, hclose, Piece.bridges_mark_iff.2 hmark⟩⟩⟩
    · rintro ⟨ls, hls, hbridge⟩
      cases hls with
      | @group ls _ hbody _ =>
        obtain ⟨inside, hopen, hrest⟩ := Piece.bridges_cons_iff.1 hbridge
        obtain ⟨e, e', hinside, hclose, hmark⟩ := Piece.bridges_sign_iff.1 hrest
        exact .group hopen ((Sequence.readsAs_iff_lexed body).2 ⟨ls, hbody, hinside⟩) hclose
          (Piece.bridges_mark_iff.1 hmark)

/-- The same for alternations, with a bar between terms. -/
theorem Alternation.readsAs_iff_lexed : ∀ (ts : List Term) {s r : Text},
    Alternation.ReadsAs s ts r ↔ ∃ ls, Alternation.Lexed ls ts ∧ Piece.Bridges s ls r
  | [], s, r => by
    constructor
    · intro h
      cases h
    · rintro ⟨ls, hls, -⟩
      cases hls
  | t :: ts, s, r => by
    constructor
    · intro h
      cases h with
      | single ht =>
        obtain ⟨ls, hls, hbridge⟩ := (Term.readsAs_iff_lexed t).1 ht
        exact ⟨ls, .single hls, hbridge⟩
      | @cons _ e more _ _ _ ht hbar hts =>
        obtain ⟨ls, hls, hbridge⟩ := (Term.readsAs_iff_lexed t).1 ht
        obtain ⟨ms, hms, hmore⟩ := (Alternation.readsAs_iff_lexed ts).1 hts
        exact ⟨_, .cons hls hms, Piece.bridges_sign_iff.2 ⟨e, more, hbridge, hbar, hmore⟩⟩
    · rintro ⟨ls, hls, hbridge⟩
      cases hls with
      | single ht => exact .single ((Term.readsAs_iff_lexed t).2 ⟨ls, ht, hbridge⟩)
      | @cons ls ms _ _ ht hts =>
        obtain ⟨e, more, hfirst, hbar, hmore⟩ := Piece.bridges_sign_iff.1 hbridge
        exact .cons ((Term.readsAs_iff_lexed t).2 ⟨ls, ht, hfirst⟩) hbar
          ((Alternation.readsAs_iff_lexed ts).2 ⟨ms, hts, hmore⟩)

/-- The same for sequences, with a comma between alternations. -/
theorem Sequence.readsAs_iff_lexed : ∀ (gs : List (List Term)) {s r : Text},
    Sequence.ReadsAs s gs r ↔ ∃ ls, Sequence.Lexed ls gs ∧ Piece.Bridges s ls r
  | [], s, r => by
    constructor
    · intro h
      cases h
    · rintro ⟨ls, hls, -⟩
      cases hls
  | g :: gs, s, r => by
    constructor
    · intro h
      cases h with
      | single hg =>
        obtain ⟨ls, hls, hbridge⟩ := (Alternation.readsAs_iff_lexed g).1 hg
        exact ⟨ls, .single hls, hbridge⟩
      | @cons _ e more _ _ _ hg hcomma hgs =>
        obtain ⟨ls, hls, hbridge⟩ := (Alternation.readsAs_iff_lexed g).1 hg
        obtain ⟨ms, hms, hmore⟩ := (Sequence.readsAs_iff_lexed gs).1 hgs
        exact ⟨_, .cons hls hms, Piece.bridges_sign_iff.2 ⟨e, more, hbridge, hcomma, hmore⟩⟩
    · rintro ⟨ls, hls, hbridge⟩
      cases hls with
      | single hg => exact .single ((Alternation.readsAs_iff_lexed g).2 ⟨ls, hg, hbridge⟩)
      | @cons ls ms _ _ hg hgs =>
        obtain ⟨e, more, hfirst, hcomma, hmore⟩ := Piece.bridges_sign_iff.1 hbridge
        exact .cons ((Alternation.readsAs_iff_lexed g).2 ⟨ls, hg, hfirst⟩) hcomma
          ((Sequence.readsAs_iff_lexed gs).2 ⟨ms, hgs, hmore⟩)

end

/-! ## What is inside a rule -/

/-- Chains are joined by what may stand next to anything. -/
theorem isChain_append_cons {α : Type} {R : α → α → Prop} {ls ms : List α} {a : α} (hls : ls.IsChain R)
    (hms : ms.IsChain R) (hleft : ∀ l, R l a) (hright : ∀ m, R a m) : (ls ++ a :: ms).IsChain R := by
  refine List.isChain_split.2 ⟨List.isChain_append.2 ⟨hls, List.isChain_singleton a, ?_⟩, ?_⟩
  · intro l _ m hm
    obtain rfl := Option.some.inj hm
    exact hleft l
  · cases ms with
    | nil => exact List.isChain_singleton a
    | cons m ms => exact List.isChain_cons_cons.2 ⟨hright m, hms⟩

namespace Lexeme

/-- Whether a rule ends with the token. -/
def endsRule : Lexeme → Bool
  | sign .semicolon => true
  | word _ | tuple _ | sign _ => false

/-- No word stands next to another one, and no rule ends here. -/
structure Within (ls : List Lexeme) : Prop where
  sparse : ls.IsChain fun l m => l.isWord = true → m.isWord = false
  inside : ∀ l ∈ ls, l.endsRule = false

/-- Where there are no tokens, no rule ends. -/
theorem Within.nil : Within [] := ⟨.nil, fun _ h => absurd h List.not_mem_nil⟩

/-- Two parts of a rule with a sign between them that ends no rule are part of a rule. -/
theorem Within.append_sign {ls ms : List Lexeme} (hls : Within ls) (hms : Within ms) {s : Sign}
    (hs : (sign s).endsRule = false) : Within (ls ++ sign s :: ms) := by
  refine ⟨isChain_append_cons hls.sparse hms.sparse (fun _ _ => rfl) nofun, ?_⟩
  rw [List.forall_mem_append, List.forall_mem_cons]
  exact ⟨hls.inside, hs, hms.inside⟩

/-- A mark is part of a rule. -/
theorem Within.mark (optional : Bool) : Within (mark optional) := by
  cases optional with
  | false => exact .nil
  | true => exact Within.nil.append_sign .nil rfl

/-- What ends no rule is part of one, with or without a mark behind it. -/
theorem Within.cons_mark {l : Lexeme} (hl : l.endsRule = false) (optional : Bool) :
    Within (l :: Lexeme.mark optional) := by
  have hsingle : Within [l] := ⟨List.isChain_singleton l, List.forall_mem_singleton.2 hl⟩
  cases optional with
  | false => exact hsingle
  | true => exact hsingle.append_sign .nil rfl

end Lexeme

mutual

/-- No token of a term ends a rule, and no two words in it stand side by side. -/
theorem Term.Lexed.within : ∀ (t : Term) {ls : List Lexeme}, Term.Lexed ls t → Lexeme.Within ls
  | .literals _ optional, _, h => by
    cases h with
    | tuple hitems hne _ => exact .cons_mark rfl optional
  | .reference _ optional, _, h => by
    cases h with
    | name id _ => exact .cons_mark rfl optional
  | .group body optional, _, h => by
    cases h with
    | group hbody _ =>
      have hclosed := (Sequence.Lexed.within body hbody).append_sign (s := .closing) (.mark optional) rfl
      exact Lexeme.Within.nil.append_sign hclosed rfl

/-- The same of an alternation, whose terms have bars between them. -/
theorem Alternation.Lexed.within : ∀ (ts : List Term) {ls : List Lexeme}, Alternation.Lexed ls ts →
    Lexeme.Within ls
  | [], _, h => by cases h
  | t :: ts, _, h => by
    cases h with
    | single ht => exact Term.Lexed.within t ht
    | cons ht hts =>
      exact (Term.Lexed.within t ht).append_sign (Alternation.Lexed.within ts hts) rfl

/-- The same of a sequence, whose alternations have commas between them. -/
theorem Sequence.Lexed.within : ∀ (gs : List (List Term)) {ls : List Lexeme}, Sequence.Lexed ls gs →
    Lexeme.Within ls
  | [], _, h => by cases h
  | g :: gs, _, h => by
    cases h with
    | single hg => exact Alternation.Lexed.within g hg
    | cons hg hgs =>
      exact (Alternation.Lexed.within g hg).append_sign (Sequence.Lexed.within gs hgs) rfl

end

end UtteranceGrammar
