/-
Sources as tokens with layout between them.

A source is a list of pieces, each a token with the layout in front of it, and layout behind the last one
(`Spells`). The layout of a piece is whole: white space, and comments with the ends of their lines
(`Layout.Whole`), so that it stays layout whatever token follows.

There is only one such list for a source (`Spells.unique`). The layout in front of a token is what is skipped,
and a token ends where it says so itself: a sign is one character, a tuple ends with the first closing bracket.
A word alone goes on as long as its characters do, which is why two words must have layout between them.
-/
import Mathlib.Data.List.Chain
import UtteranceGrammar.Proofs.Source.Tokens

set_option autoImplicit false

namespace UtteranceGrammar

/-! ## Layout in front of a token -/

namespace Layout

/-- White space and comments, each comment with the end of its line behind it. -/
inductive Whole : Text → Prop where
  | nothing : Whole []
  | blank {c : Char} {w : Text} (hc : Text.isBlank c = true) (rest : Whole w) : Whole (c :: w)
  | comment {opener line w : Text} (hopener : opener = ['#'] ∨ opener = ['/', '/'])
      (hline : IsComment line) (hne : w ≠ []) (hend : EndsLine w) (rest : Whole w) :
      Whole (opener ++ (line ++ w))

variable {s r w : Text}

/-- Text behind a line's end does not take it away. -/
theorem EndsLine.append (h : EndsLine w) (hne : w ≠ []) (r : Text) : EndsLine (w ++ r) := by
  obtain ⟨c, w, rfl⟩ := List.exists_cons_of_ne_nil hne
  rw [List.cons_append, endsLine_cons_iff]
  rw [endsLine_cons_iff] at h
  refine h.imp_right fun h => ⟨h.1, ?_⟩
  rw [List.head?_append, h.2]
  rfl

/-- Whole layout is layout in front of any text. -/
theorem Whole.before (h : Whole w) (r : Text) : Before (w ++ r) r := by
  induction h with
  | nothing => exact .nothing r
  | blank hc _ ih => exact .blank hc ih
  | comment hopener hline hne hend _ ih =>
    rw [List.append_assoc, List.append_assoc]
    exact .comment hopener hline (hend.append hne r) ih

/-- White space is whole layout. -/
theorem Whole.of_blank (h : ∀ c ∈ w, Text.isBlank c = true) : Whole w := by
  induction w with
  | nil => exact .nothing
  | cons c w ih =>
    obtain ⟨hc, hw⟩ := List.forall_mem_cons.1 h
    exact .blank hc (ih hw)

/-- Layout in front of a character that is no white space is whole. -/
theorem Before.exists_whole {c : Char} (h : Before s (c :: r)) (hc : Text.isBlank c = false) :
    ∃ w, Whole w ∧ s = w ++ c :: r := by
  generalize ht : c :: r = t at h
  induction h with
  | nothing t =>
    refine ⟨[], .nothing, ?_⟩
    rw [← ht]
    rfl
  | @blank d s t hd _ ih =>
    obtain ⟨w, hw, rfl⟩ := ih ht
    exact ⟨d :: w, .blank hd hw, rfl⟩
  | @comment opener line s t hopener hline hend _ ih =>
    subst ht
    obtain ⟨w, hw, rfl⟩ := ih rfl
    have hnot : c ≠ '\n' ∧ c ≠ '\r' := by
      constructor
      · rintro rfl
        exact absurd hc (by decide)
      · rintro rfl
        exact absurd hc (by decide)
    -- the line's end is white space, so it lies in front of the character
    have hw' : w ≠ [] ∧ EndsLine w := by
      cases w with
      | nil =>
        rcases endsLine_cons_iff.1 hend with hfeed | ⟨hreturn, -⟩
        · exact absurd hfeed hnot.1
        · exact absurd hreturn hnot.2
      | cons d w =>
        refine ⟨List.cons_ne_nil d w, ?_⟩
        rw [List.cons_append, endsLine_cons_iff] at hend
        rw [endsLine_cons_iff]
        refine hend.imp_right fun ⟨hreturn, hfeed⟩ => ⟨hreturn, ?_⟩
        cases w with
        | nil => exact absurd (Option.some.inj hfeed) hnot.1
        | cons e w => exact hfeed
    refine ⟨opener ++ (line ++ w), .comment hopener hline hw'.1 hw'.2 hw, ?_⟩
    rw [List.append_assoc, List.append_assoc]

theorem isBlank_of_mayOpen {c : Char} (h : mayOpen c = false) : Text.isBlank c = false := by
  rw [mayOpen, Bool.or_eq_false_iff, Bool.or_eq_false_iff] at h
  exact h.1.1

/-- Where there is layout, it starts with a character that opens it. -/
theorem Before.mayOpen_head (h : Before s r) (hne : s ≠ r) {c : Char} (hc : s.head? = some c) :
    mayOpen c = true := by
  cases h with
  | nothing => exact absurd rfl hne
  | blank hblank _ =>
    obtain rfl := Option.some.inj hc
    rw [mayOpen, hblank]
    rfl
  | comment hopener _ _ _ =>
    rcases hopener with rfl | rfl
    · obtain rfl := Option.some.inj hc
      decide
    · obtain rfl := Option.some.inj hc
      decide

end Layout

/-! ## Tokens -/

/-- A token that is a single character. -/
inductive Sign where
  | colon | bar | comma | question | opening | closing | semicolon
deriving DecidableEq

/-- The character of a sign. -/
def Sign.char : Sign → Char
  | .colon => ':'
  | .bar => '|'
  | .comma => ','
  | .question => '?'
  | .opening => '('
  | .closing => ')'
  | .semicolon => ';'

theorem Sign.mem_punctuation (s : Sign) : s.char ∈ Token.punctuation := by
  cases s <;> decide

theorem Sign.char_ne_bracket (s : Sign) : s.char ≠ '[' := by
  cases s <;> decide

theorem Sign.char_injective {s s' : Sign} (h : s.char = s'.char) : s = s' := by
  revert h
  cases s <;> cases s' <;> decide

/-- A token: a word, which is a name or says a kind, a tuple, or a sign. -/
inductive Lexeme where
  | word (id : { id : Name // Token.IsName id })
  | tuple (content : { s : Text // ∀ c ∈ s, Token.inTuple c = true })
  | sign (s : Sign)
deriving DecidableEq

namespace Lexeme

/-- A token as it is written. -/
def text : Lexeme → Text
  | word id => id.1.toList
  | tuple content => '[' :: (content.1 ++ [']'])
  | sign s => [s.char]

/-- Whether the token is a word. -/
def isWord : Lexeme → Bool
  | word _ => true
  | tuple _ | sign _ => false

variable {l l' : Lexeme} {r r' : Text}

/-- A token is not empty, and it does not start as layout does. -/
theorem exists_text (l : Lexeme) : ∃ c t, l.text = c :: t ∧ Layout.mayOpen c = false := by
  cases l with
  | word id =>
    obtain ⟨c, t, hid, hc, -⟩ := id.2
    exact ⟨c, t, hid, Token.mayOpen_of_continuesName (Token.continuesName_of_startsName hc)⟩
  | tuple content => exact ⟨'[', _, rfl, by decide⟩
  | sign s => exact ⟨s.char, [], rfl, Token.mayOpen_of_mem_punctuation _ s.mem_punctuation⟩

theorem tuple_text_append (content : { s : Text // ∀ c ∈ s, Token.inTuple c = true }) (r : Text) :
    (tuple content).text ++ r = '[' :: (content.1 ++ ']' :: r) := by
  rw [text, List.cons_append, List.append_assoc]
  rfl

/-- Only a word starts with a character that could continue one. -/
theorem head_of_not_word (hl : l.isWord = false) {c : Char} (hc : (l.text ++ r).head? = some c) :
    Token.continuesName c = false := by
  cases l with
  | word id => cases hl
  | tuple content =>
    obtain rfl := Option.some.inj hc
    decide
  | sign s =>
    obtain rfl := Option.some.inj hc
    exact Token.continuesName_of_mem_punctuation _ s.mem_punctuation

/-- What starts with a word starts with no other token. -/
theorem isWord_of_append {id : { id : Name // Token.IsName id }} (h : (word id).text ++ r = l.text ++ r') :
    l.isWord = true := by
  obtain ⟨c, t, hid, hc, -⟩ := id.2
  have hhead : (l.text ++ r').head? = some c := by
    rw [← h, text, hid]
    rfl
  rw [← Bool.not_eq_false]
  intro hl
  have hcontinues := Token.continuesName_of_startsName hc
  rw [head_of_not_word hl hhead] at hcontinues
  exact Bool.false_ne_true hcontinues

/-- A token that is no part of a longer word is told from the text. -/
theorem eq_of_append (h : l.text ++ r = l'.text ++ r')
    (hr : l.isWord = true → ∀ c, r.head? = some c → Token.continuesName c = false)
    (hr' : l'.isWord = true → ∀ c, r'.head? = some c → Token.continuesName c = false) :
    l = l' ∧ r = r' := by
  cases l with
  | word id =>
    have hword := isWord_of_append h
    cases l' with
    | word id' =>
      obtain ⟨htake, hdrop⟩ := Text.takeWhile_append_of_head id.2.continues (hr rfl)
      obtain ⟨htake', hdrop'⟩ := Text.takeWhile_append_of_head id'.2.continues (hr' rfl)
      rw [text, text] at h
      rw [h, htake'] at htake
      rw [h, hdrop'] at hdrop
      have hid : id = id' := Subtype.ext (String.toList_injective htake.symm)
      exact ⟨by rw [hid], hdrop.symm⟩
    | tuple content => cases hword
    | sign s => cases hword
  | tuple content =>
    cases l' with
    | word id => cases isWord_of_append h.symm
    | tuple content' =>
      have hnot : ∀ content : { s : Text // ∀ c ∈ s, Token.inTuple c = true }, ']' ∉ content.1 := by
        intro content hmem
        exact absurd (content.2 ']' hmem) (by decide)
      rw [tuple_text_append, tuple_text_append] at h
      have hcut : Text.cut ']' (content.1 ++ ']' :: r) = some (content'.1, r') :=
        Text.cut_eq_some_iff.2 ⟨List.tail_eq_of_cons_eq h, hnot content'⟩
      rw [Text.cut_eq_some_iff.2 ⟨rfl, hnot content⟩] at hcut
      obtain ⟨heq, hrest⟩ := Prod.mk.inj (Option.some.inj hcut)
      exact ⟨by rw [Subtype.ext heq], hrest⟩
    | sign s => exact absurd (List.head_eq_of_cons_eq h).symm s.char_ne_bracket
  | sign s =>
    cases l' with
    | word id => cases isWord_of_append h.symm
    | tuple content => exact absurd (List.head_eq_of_cons_eq h) s.char_ne_bracket
    | sign s' =>
      obtain ⟨hchar, hrest⟩ := List.cons.inj h
      exact ⟨by rw [Sign.char_injective hchar], hrest⟩

end Lexeme

/-! ## Pieces -/

/-- A token with the layout in front of it. -/
structure Piece where
  gap : Text
  whole : Layout.Whole gap
  token : Lexeme

/-- A piece as it is written. -/
def Piece.text (p : Piece) : Text := p.gap ++ p.token.text

/-- Pieces as they are written, one after the other. -/
def Piece.write (ps : List Piece) : Text := ps.flatMap Piece.text

/-- Two words have layout between them. -/
def Piece.Parted (ps : List Piece) : Prop :=
  ps.IsChain fun p q => p.token.isWord = true → q.token.isWord = true → q.gap ≠ []

/-- The source consists of the pieces, with nothing behind them but layout. -/
structure Spells (ps : List Piece) (tail source : Text) : Prop where
  source_eq : source = Piece.write ps ++ tail
  parted : Piece.Parted ps
  tail : Layout.Before tail []

namespace Piece

variable {p : Piece} {ps : List Piece} {l : Lexeme} {s r tail : Text}

theorem write_cons_append (p : Piece) (ps : List Piece) (r : Text) :
    write (p :: ps) ++ r = p.gap ++ (p.token.text ++ (write ps ++ r)) := by
  rw [write, List.flatMap_cons, text, ← write, List.append_assoc, List.append_assoc]

/-- A token with layout in front of it is a piece. -/
theorem exists_of_before (h : Layout.Before s (l.text ++ r)) : ∃ p : Piece, p.token = l ∧ s = p.text ++ r := by
  obtain ⟨c, t, hl, hc⟩ := l.exists_text
  rw [hl, List.cons_append] at h
  obtain ⟨w, hw, rfl⟩ := h.exists_whole (Layout.isBlank_of_mayOpen hc)
  refine ⟨⟨w, hw, l⟩, rfl, ?_⟩
  rw [text, hl, List.append_assoc, List.cons_append]

/-- All layout in front of a token is in its piece. -/
theorem skip_write_cons (p : Piece) (ps : List Piece) (r : Text) :
    Layout.skip (write (p :: ps) ++ r) = p.token.text ++ (write ps ++ r) := by
  obtain ⟨c, t, hl, hc⟩ := p.token.exists_text
  rw [write_cons_append, (p.whole.before _).skip_eq, hl, List.cons_append]
  exact Layout.skip_cons hc _

/-- There is no token in layout. -/
theorem eq_nil_of_before (h : Layout.Before (write ps ++ r) []) : ps = [] := by
  cases ps with
  | nil => rfl
  | cons p ps =>
    obtain ⟨c, t, hl, -⟩ := p.token.exists_text
    have hskip := h.skip_eq
    rw [skip_write_cons, hl, Layout.skip_of_strip?_eq_none rfl] at hskip
    exact absurd hskip (List.cons_ne_nil c _)

/-- Behind a word comes what does not continue it. -/
theorem head_behind_word (hp : p.token.isWord = true) (hparted : Parted (p :: ps))
    (htail : Layout.Before tail []) {c : Char} (hc : (write ps ++ tail).head? = some c) :
    Token.continuesName c = false := by
  have hlayout : ∀ {s r : Text}, Layout.Before s r → s ≠ r → s.head? = some c →
      Token.continuesName c = false := by
    intro s r hbefore hne hhead
    rw [Bool.eq_false_iff]
    intro hcontinues
    have hopen := hbefore.mayOpen_head hne hhead
    rw [Token.mayOpen_of_continuesName hcontinues] at hopen
    exact Bool.false_ne_true hopen
  cases ps with
  | nil =>
    have hne : tail ≠ [] := by
      rintro rfl
      cases hc
    exact hlayout htail hne hc
  | cons q ps =>
    rw [write_cons_append] at hc
    by_cases hgap : q.gap = []
    · have hq : q.token.isWord = false := by
        rw [Bool.eq_false_iff]
        intro hq
        exact (List.isChain_cons_cons.1 hparted).1 hp hq hgap
      rw [hgap] at hc
      exact Lexeme.head_of_not_word hq hc
    · exact hlayout (q.whole.before _) (fun heq => hgap (List.append_left_eq_self.1 heq)) hc

end Piece

/-- A source is spelled in one way only. -/
theorem Spells.unique {ps ps' : List Piece} {tail tail' source : Text} (h : Spells ps tail source)
    (h' : Spells ps' tail' source) : ps = ps' ∧ tail = tail' := by
  obtain ⟨rfl, hparted, htail⟩ := h
  obtain ⟨hsource, hparted', htail'⟩ := h'
  induction ps generalizing ps' with
  | nil =>
    have hnil : ps' = [] := by
      apply Piece.eq_nil_of_before
      rw [← hsource]
      exact htail
    rw [hnil] at hsource ⊢
    exact ⟨rfl, hsource⟩
  | cons p ps ih =>
    cases ps' with
    | nil =>
      have hnil : p :: ps = [] := by
        apply Piece.eq_nil_of_before
        rw [hsource]
        exact htail'
      cases hnil
    | cons p' ps' =>
      have htokens := congrArg Layout.skip hsource
      rw [Piece.skip_write_cons, Piece.skip_write_cons] at htokens
      obtain ⟨htoken, hrest⟩ := Lexeme.eq_of_append htokens
        (fun hp _ hc => Piece.head_behind_word hp hparted htail hc)
        (fun hp _ hc => Piece.head_behind_word hp hparted' htail' hc)
      -- what is skipped is the same, since what is left is
      rw [Piece.write_cons_append, Piece.write_cons_append, htokens] at hsource
      have hgap : p.gap = p'.gap := List.append_cancel_right hsource
      obtain ⟨rfl, rfl⟩ := ih (List.isChain_of_isChain_cons hparted) hrest (List.isChain_of_isChain_cons hparted')
      obtain ⟨gap, whole, token⟩ := p
      obtain ⟨gap', whole', token'⟩ := p'
      obtain rfl : gap = gap' := hgap
      obtain rfl : token = token' := htoken
      exact ⟨rfl, rfl⟩

end UtteranceGrammar
