/-
What layout has to do with the parse.

What reads as a grammar is told by its tokens, but for one thing that layout decides: whether the first word of a
rule says its kind. A word is taken for a kind if a space, a tabulator or the end of a line follows it, and then
the name has to come next, with no other layout in front of it. So between the two stands such white space and
nothing else, and a rule without a kind that is called like one has none behind its name (`Piece.KindsTold`).

That is all. A source reads as a grammar if its tokens are those of the grammar and the kinds are told
(`Grammar.readsAs_iff_lexed`); and since its tokens are its own, any other layout between them gives a source of
the same grammar exactly if the kinds are told in it too (`Grammar.parse_relaid`).

One would expect that less is asked: that layout of any kind may follow once a kind word has its white space. This
is not so (`Grammar.not_parse_relaid`).
-/
import UtteranceGrammar.Proofs.Source.Lexed
import UtteranceGrammar.Proofs.Source.Recognition

set_option autoImplicit false

namespace UtteranceGrammar

/-! ## Rules -/

namespace Piece

/-- The first word of a rule is told for what it is. Before another word it says the rule's kind, and there is
white space of the kind that parts it from the name, and no other layout. Before the colon it is the name, and if
it could say a kind, no such white space comes next. -/
def HeadTold : List Piece → Prop
  | p :: q :: _ =>
    if q.token.isWord then q.gap ≠ [] ∧ ∀ c ∈ q.gap, Token.partsKindWord c = true
    else ∀ k c, Token.KindWord k p.token.text → q.gap.head? = some c → Token.partsKindWord c = false
  | _ => True

/-- The kind of each rule is told by its head. -/
def KindsTold (ps : List Piece) : Prop :=
  ∀ rule ∈ ps.splitOnP (fun p => p.token.endsRule), HeadTold rule

theorem kindsTold_nil : KindsTold [] := List.forall_mem_singleton.2 trivial

/-- The kinds are told one rule after the other, up to each semicolon. -/
theorem kindsTold_append {ps qs : List Piece} {p : Piece} (hps : ∀ q ∈ ps, q.token.endsRule = false)
    (hp : p.token.endsRule = true) : KindsTold (ps ++ p :: qs) ↔ HeadTold ps ∧ KindsTold qs := by
  rw [KindsTold, List.splitOnP_append_cons_of_forall_mem hps p hp, List.forall_mem_cons]
  rfl

theorem headTold_word_iff {p q : Piece} {ps : List Piece} (hq : q.token.isWord = true) :
    HeadTold (p :: q :: ps) ↔ q.gap ≠ [] ∧ ∀ c ∈ q.gap, Token.partsKindWord c = true := by
  rw [HeadTold, if_pos hq]

theorem headTold_sign_iff {p q : Piece} {ps : List Piece} (hq : q.token.isWord = false) :
    HeadTold (p :: q :: ps) ↔
      ∀ k c, Token.KindWord k p.token.text → q.gap.head? = some c → Token.partsKindWord c = false := by
  rw [HeadTold, hq, if_neg Bool.false_ne_true]

/-- Around a sign no layout is needed. -/
theorem Parted.append_sign {ps qs : List Piece} {p : Piece} (hps : Parted ps) (hqs : Parted qs)
    (hp : p.token.isWord = false) : Parted (ps ++ p :: qs) := by
  refine isChain_append_cons hps hqs ?_ ?_
  · intro q _ hword
    rw [hp] at hword
    cases hword
  · intro q hword
    rw [hp] at hword
    cases hword

end Piece

namespace Rule

open Piece

variable {rule : Rule} {ps : List Piece} {s r : Text}

/-- What reads as a rule has the rule's tokens, up to the semicolon, and tells its kind. -/
theorem exists_lexed_of_readsAs (h : Rule.ReadsAs s rule r) : ∃ ps e, s = write ps ++ e ∧
    Layout.Before e (';' :: r) ∧ Rule.Lexed (ps.map Piece.token) rule ∧ HeadTold ps := by
  cases h with
  | @rule head e text e' _ kind id body hlayout hhead hcolon hbody hsemicolon =>
    obtain ⟨ls, hls, ps, rfl, rfl⟩ := (Sequence.readsAs_iff_lexed body).1 hbody
    obtain ⟨colon, htoken, rfl⟩ := exists_of_before (l := .sign .colon) (r := write ps ++ e') hcolon
    cases hhead with
    | plain hid hword =>
      obtain ⟨name, hname, rfl⟩ := exists_of_before (l := .word ⟨id, hid⟩) hlayout
      refine ⟨name :: colon :: ps, e', ?_, hsemicolon, ?_, ?_⟩
      · simp only [write, List.flatMap_cons, List.append_assoc]
      · rw [List.map_cons, List.map_cons, hname, htoken]
        exact .plain ⟨id, hid⟩ hls
      · rw [headTold_sign_iff (by rw [htoken]; rfl), hname]
        intro k c hk hc
        refine hword k c hk ?_
        rw [Piece.text, List.append_assoc, List.head?_append, hc]
        rfl
    | @kinded _ word blanks _ _ hword hne hblanks hid =>
      have hbefore : Layout.Before s ((Lexeme.word ⟨String.ofList word, hword.isName⟩).text ++
          (blanks ++ (id.toList ++ (colon.text ++ (write ps ++ e'))))) := by
        rw [Lexeme.text, String.toList_ofList]
        exact hlayout
      obtain ⟨first, hfirst, rfl⟩ := exists_of_before hbefore
      -- the white space behind the kind word is the name's layout, all of it
      have hwhole := Layout.Whole.of_blank fun c hc => Token.isBlank_of_partsKindWord (hblanks c hc)
      refine ⟨first :: ⟨blanks, hwhole, .word ⟨id, hid⟩⟩ :: colon :: ps, e', ?_, hsemicolon, ?_, ?_⟩
      · simp only [write, List.flatMap_cons, Piece.text, Lexeme.text, List.append_assoc]
      · rw [List.map_cons, List.map_cons, List.map_cons, hfirst, htoken]
        refine .kinded ?_ ⟨id, hid⟩ hls
        rw [String.toList_ofList]
        exact hword
      · exact (headTold_word_iff rfl).2 ⟨hne, hblanks⟩

/-- The tokens of a rule, its kind told, read as the rule if a semicolon follows. -/
theorem readsAs_of_lexed {e : Text} (h : Rule.Lexed (ps.map Piece.token) rule) (htold : HeadTold ps)
    (hsemicolon : Layout.Before e (';' :: r)) : Rule.ReadsAs (write ps ++ e) rule r := by
  generalize hls : ps.map Piece.token = ls at h
  cases h with
  | plain id hbody =>
    obtain ⟨name, ps, rfl, hname, hls⟩ := List.map_eq_cons_iff.1 hls
    obtain ⟨colon, ps, rfl, hcolon, rfl⟩ := List.map_eq_cons_iff.1 hls
    rw [headTold_sign_iff (by rw [hcolon]; rfl), hname] at htold
    rw [write_cons_append, write_cons_append, hname, hcolon]
    have hhead : Rule.HeadReadsAs (id.1.toList ++ (colon.gap ++ (':' :: (write ps ++ e)))) .plain id.1
        (colon.gap ++ (':' :: (write ps ++ e))) := by
      refine .plain id.2 ?_
      intro k c hk hc
      cases hgap : colon.gap with
      | nil =>
        -- then the colon comes next, which parts no word
        rw [hgap] at hc
        obtain rfl := Option.some.inj hc
        decide
      | cons d gap =>
        rw [hgap] at hc
        obtain rfl := Option.some.inj hc
        exact htold k d hk (by rw [hgap]; rfl)
    exact .rule (name.whole.before _) hhead (colon.whole.before _)
      ((Sequence.readsAs_iff_lexed _).2 ⟨_, hbody, ps, rfl, rfl⟩) hsemicolon
  | kinded hword id hbody =>
    obtain ⟨first, ps, rfl, hfirst, hls⟩ := List.map_eq_cons_iff.1 hls
    obtain ⟨name, ps, rfl, hname, hls⟩ := List.map_eq_cons_iff.1 hls
    obtain ⟨colon, ps, rfl, hcolon, rfl⟩ := List.map_eq_cons_iff.1 hls
    obtain ⟨hne, hblanks⟩ := (headTold_word_iff (by rw [hname]; rfl)).1 htold
    rw [write_cons_append, write_cons_append, write_cons_append, hfirst, hname, hcolon]
    exact .rule (first.whole.before _) (.kinded hword hne hblanks id.2) (colon.whole.before _)
      ((Sequence.readsAs_iff_lexed _).2 ⟨_, hbody, ps, rfl, rfl⟩) hsemicolon

/-- There is no semicolon within a rule. -/
theorem Lexed.inside (h : Rule.Lexed (ps.map Piece.token) rule) : ∀ p ∈ ps, p.token.endsRule = false := by
  have hall : ∀ l ∈ ps.map Piece.token, l.endsRule = false := by
    generalize ps.map Piece.token = ls at h
    cases h with
    | plain id hbody =>
      exact List.forall_mem_cons.2 ⟨rfl, List.forall_mem_cons.2 ⟨rfl, (hbody.within _).inside⟩⟩
    | kinded hword id hbody =>
      exact List.forall_mem_cons.2 ⟨rfl, List.forall_mem_cons.2 ⟨rfl,
        List.forall_mem_cons.2 ⟨rfl, (hbody.within _).inside⟩⟩⟩
  intro p hp
  exact hall p.token (List.mem_map_of_mem hp)

/-- In a rule whose kind is told, words have layout between them. -/
theorem Lexed.parted (h : Rule.Lexed (ps.map Piece.token) rule) (htold : HeadTold ps) : Parted ps := by
  -- only at the head do two words stand next to each other
  have hwithin : ∀ {ps : List Piece}, Lexeme.Within (ps.map Piece.token) → Parted ps := by
    intro ps hps
    refine ((List.isChain_map _).1 hps.sparse).imp ?_
    intro p q hsparse hp hq
    rw [hsparse hp] at hq
    cases hq
  have hnamed : ∀ (id : { id : Name // Token.IsName id }) {ls : List Lexeme} {body : Sequence},
      Sequence.Lexed ls body → Lexeme.Within (.word id :: .sign .colon :: ls) := by
    intro id ls body hbody
    have hname : Lexeme.Within [.word id] := .cons_mark rfl false
    exact hname.append_sign (hbody.within _) rfl
  generalize hls : ps.map Piece.token = ls at h
  cases h with
  | plain id hbody =>
    apply hwithin
    rw [hls]
    exact hnamed id hbody
  | kinded hword id hbody =>
    obtain ⟨first, rest, rfl, -, hrest⟩ := List.map_eq_cons_iff.1 hls
    have hparted : Parted rest := by
      apply hwithin
      rw [hrest]
      exact hnamed id hbody
    obtain ⟨name, qs, rfl, -, -⟩ := List.map_eq_cons_iff.1 hrest
    refine List.isChain_cons_cons.2 ⟨?_, hparted⟩
    intro _ hq
    exact ((headTold_word_iff hq).1 htold).1

end Rule

/-! ## Grammars -/

namespace Grammar

open Piece

/-- A source reads as a grammar exactly if its tokens are the grammar's and the kinds are told. -/
theorem readsAs_iff_lexed {g : Grammar} {source : Text} : ReadsAs source g ↔
    ∃ ps tail, Spells ps tail source ∧ Lexed (ps.map Piece.token) g ∧ KindsTold ps := by
  induction g generalizing source with
  | nil =>
    constructor
    · intro h
      cases h with
      | nil hlayout => exact ⟨[], source, ⟨rfl, .nil, hlayout⟩, .nil, kindsTold_nil⟩
    · rintro ⟨ps, tail, hspells, hlexed, -⟩
      generalize hls : ps.map Piece.token = ls at hlexed
      cases hlexed with
      | nil =>
        rw [List.map_eq_nil_iff] at hls
        rw [hspells.source_eq, hls]
        exact .nil hspells.tail
  | cons rule rules ih =>
    constructor
    · intro h
      cases h with
      | @cons _ r _ _ hrule hrules =>
        obtain ⟨ps, e, rfl, hsemicolon, hlexedRule, htold⟩ := Rule.exists_lexed_of_readsAs hrule
        obtain ⟨qs, tail, ⟨rfl, hparted, htail⟩, hlexed, hrulesTold⟩ := ih.1 hrules
        obtain ⟨p, hp, rfl⟩ := exists_of_before (l := .sign .semicolon) (r := write qs ++ tail) hsemicolon
        refine ⟨ps ++ p :: qs, tail, ⟨?_, ?_, htail⟩, ?_, ?_⟩
        · simp only [write, List.flatMap_append, List.flatMap_cons, List.append_assoc]
        · exact (hlexedRule.parted htold).append_sign hparted (by rw [hp]; rfl)
        · rw [List.map_append, List.map_cons, hp]
          exact .cons hlexedRule hlexed
        · exact (kindsTold_append hlexedRule.inside (by rw [hp]; rfl)).2 ⟨htold, hrulesTold⟩
    · rintro ⟨ps, tail, ⟨rfl, hparted, htail⟩, hlexed, htold⟩
      generalize hls : ps.map Piece.token = ls at hlexed
      cases hlexed with
      | cons hrule hrules =>
        obtain ⟨ps, rest, rfl, rfl, hrest⟩ := List.map_eq_append_iff.1 hls
        obtain ⟨p, qs, rfl, hp, rfl⟩ := List.map_eq_cons_iff.1 hrest
        obtain ⟨hruleTold, hrulesTold⟩ := (kindsTold_append hrule.inside (by rw [hp]; rfl)).1 htold
        rw [write_append, List.append_assoc, write_cons_append, hp]
        refine .cons (Rule.readsAs_of_lexed hrule hruleTold (p.whole.before _)) (ih.2 ?_)
        have hqs : Parted qs := List.isChain_of_isChain_cons (List.isChain_append.1 hparted).2.1
        exact ⟨qs, tail, ⟨rfl, hqs, htail⟩, hrules, hrulesTold⟩

/-- A source that parses consists of tokens with layout between them, and another source of the same tokens
parses to the same rules exactly if it tells the kind of each rule. -/
theorem parse_relaid {source : Text} {g : Grammar} (h : parse source = .ok g) :
    (∃ ps tail, Spells ps tail source) ∧
      ∀ ps tail, Spells ps tail source →
        ∀ ps' tail' source', Spells ps' tail' source' → ps'.map Piece.token = ps.map Piece.token →
          (parse source' = .ok g ↔ KindsTold ps') := by
  obtain ⟨qs, behind, hqs, hlexed, -⟩ := readsAs_iff_lexed.1 (read_eq_ok_iff.1 (parse_eq_ok_iff.1 h))
  refine ⟨⟨qs, behind, hqs⟩, ?_⟩
  intro ps tail hps ps' tail' source' hps' htokens
  obtain ⟨rfl, -⟩ := hqs.unique hps
  rw [parse_eq_ok_iff, read_eq_ok_iff, readsAs_iff_lexed]
  constructor
  · rintro ⟨rs, end', hrs, -, htold⟩
    obtain ⟨rfl, -⟩ := hrs.unique hps'
    exact htold
  · intro htold
    rw [← htokens] at hlexed
    exact ⟨ps', tail', hps', hlexed, htold⟩

/-- A rule that has a kind. -/
def city : Grammar := [⟨"CITY", .entity, [[.literals ["Prague".toList] false]]⟩]

/-- The word for its kind. -/
def cityKind : Piece :=
  ⟨[], .nothing, .word ⟨"entity", 'e', "ntity".toList, rfl, rfl, List.all_eq_true.1 rfl⟩⟩

/-- Its name, with layout of choice in front of it. -/
def cityName (gap : Text) (whole : Layout.Whole gap) : Piece :=
  ⟨gap, whole, .word ⟨"CITY", 'C', "ITY".toList, rfl, rfl, List.all_eq_true.1 rfl⟩⟩

/-- What stands behind its name. -/
def cityBody : List Piece :=
  [⟨[], .nothing, .sign .colon⟩, ⟨[' '], .blank (by decide) .nothing, .tuple ⟨"Prague".toList, List.all_eq_true.1 rfl⟩⟩]

/-- A semicolon, right behind what it ends. -/
def semicolon : Piece := ⟨[], .nothing, .sign .semicolon⟩

section City

variable {gap : Text} (whole : Layout.Whole gap)

/-- The rule of a city, with layout of choice behind its kind word. -/
theorem spells_city (hne : gap ≠ []) :
    Spells ((cityKind :: cityName gap whole :: cityBody) ++ [semicolon]) []
      ("entity".toList ++ (gap ++ "CITY: [Prague];".toList)) := by
  refine ⟨?_, ?_, .nothing []⟩
  · rw [List.cons_append, List.cons_append, write_cons_append, write_cons_append]
    rfl
  · refine List.isChain_cons_cons.2 ⟨fun _ _ => hne, ?_⟩
    simp [cityName, cityBody, semicolon, Lexeme.isWord]

/-- Its kind is told if the layout is of the kind that parts the word from the name. -/
theorem kindsTold_city : KindsTold ((cityKind :: cityName gap whole :: cityBody) ++ [semicolon]) ↔
    gap ≠ [] ∧ ∀ c ∈ gap, Token.partsKindWord c = true := by
  have hinside : ∀ q ∈ cityKind :: cityName gap whole :: cityBody, q.token.endsRule = false := by
    simp [cityKind, cityName, cityBody, Lexeme.endsRule]
  rw [kindsTold_append hinside rfl, headTold_word_iff rfl]
  exact and_iff_left kindsTold_nil

end City

/-- With other layout behind its kind word, the rule of a city is read as before just if that is white space of the
right kind. -/
theorem parse_relaid_city : parse "entity CITY: [Prague];".toList = .ok city ∧
    ∀ (gap : Text) (_ : Layout.Whole gap), gap ≠ [] →
      (parse ("entity".toList ++ (gap ++ "CITY: [Prague];".toList)) = .ok city ↔
        ∀ c ∈ gap, Token.partsKindWord c = true) := by
  have hblank : Layout.Whole [' '] := .blank (by decide) .nothing
  have hparse : parse "entity CITY: [Prague];".toList = .ok city := by decide +kernel
  refine ⟨hparse, ?_⟩
  intro gap whole hne
  have hrelaid := (parse_relaid hparse).2 _ _ (spells_city hblank (List.cons_ne_nil _ _)) _ _ _
    (spells_city whole hne) rfl
  rw [hrelaid, kindsTold_city]
  exact and_iff_right hne

/-- It is not enough that a kind word has its white space. Where a comment follows that, the source has its tokens
still and does not parse. -/
theorem not_parse_relaid : ¬ ∀ (source : Text) (g : Grammar) (before : List Piece) (p q : Piece)
    (behind : List Piece) (tail gap : Text) (hgap : Layout.Whole gap), parse source = .ok g →
    Spells (before ++ p :: q :: behind) tail source → p.token.endsRule = false → gap ≠ [] → '\r' ∉ gap →
    (p.token.isWord = true → q.token.isWord = true →
      ∃ c, gap.head? = some c ∧ Token.partsKindWord c = true) →
    parse (write (before ++ p :: ⟨gap, hgap, q.token⟩ :: behind) ++ tail) = .ok g := by
  intro hall
  have hline : Layout.IsComment " cities".toList := by
    have hall : (" cities".toList.all fun c => decide (c ≠ '\n' ∧ c ≠ '\r')) = true := rfl
    exact fun c hc => of_decide_eq_true (List.all_eq_true.1 hall c hc)
  have hblank : Layout.Whole [' '] := .blank (by decide) .nothing
  have hfeed : Layout.Whole ['\n'] := .blank (by decide) .nothing
  have hgap : Layout.Whole " # cities\n".toList :=
    .blank (by decide) (.comment (.inl rfl) hline (List.cons_ne_nil _ _) (.inr (.inl rfl)) hfeed)
  have hparse : parse "entity CITY: [Prague];".toList = .ok city := by decide +kernel
  have hrelaid := hall _ city [] cityKind (cityName [' '] hblank) (cityBody ++ [semicolon]) []
    " # cities\n".toList hgap hparse (spells_city hblank (List.cons_ne_nil _ _)) rfl (by decide) (by decide)
    (fun _ _ => ⟨' ', rfl, by decide⟩)
  have hsource : parse "entity # cities\nCITY: [Prague];".toList ≠ .ok city := by decide +kernel
  exact hsource hrelaid

end Grammar

end UtteranceGrammar
