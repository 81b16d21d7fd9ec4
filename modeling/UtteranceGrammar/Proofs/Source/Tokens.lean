/-
The readers of tokens against the syntax.

For each token the reader is right in two senses. What it takes off the front of a text, the syntax allows.
And what the syntax allows is what it takes, provided that what stands behind the token cannot continue it.
For layout that is the case in front of any character that opens none (`Layout.skip_eq_of_before`), for a
name in front of any character that continues none. Both hold in front of punctuation, with or without
layout before it; `FollowedBy` says that punctuation comes next, and of which kind.
-/
import UtteranceGrammar.Proofs.Source.Syntax
import UtteranceGrammar.Proofs.Text.Trimming

set_option autoImplicit false

namespace UtteranceGrammar

/-! ## Layout -/

namespace Layout

/-- A line ends at a line feed, with or without a carriage return in front. A carriage return alone does not end it.
-/
theorem endsLine_cons_iff {c : Char} {s : Text} :
    EndsLine (c :: s) ↔ c = '\n' ∨ c = '\r' ∧ s.head? = some '\n' := by
  unfold EndsLine
  cases s with
  | nil => simp
  | cons d s => simp

/-- What is passed over up to the end of a line is a comment, and the line ends where it is said to. -/
theorem exists_of_lineEnd? {s r : Text} (h : lineEnd? s = some r) :
    ∃ line, s = line ++ r ∧ IsComment line ∧ EndsLine r := by
  induction s with
  | nil =>
    obtain rfl := Option.some.inj h
    exact ⟨[], rfl, fun c hc => absurd hc List.not_mem_nil, .inl rfl⟩
  | cons c s ih =>
    have hhere : EndsLine (c :: s) → some (c :: s) = some r →
        ∃ line, c :: s = line ++ r ∧ IsComment line ∧ EndsLine r := by
      intro hend heq
      obtain rfl := Option.some.inj heq
      exact ⟨[], rfl, fun c hc => absurd hc List.not_mem_nil, hend⟩
    unfold lineEnd? at h
    by_cases hfeed : c = '\n'
    · rw [if_pos hfeed] at h
      exact hhere (endsLine_cons_iff.2 (.inl hfeed)) h
    rw [if_neg hfeed] at h
    by_cases hreturn : c = '\r'
    · rw [if_pos hreturn] at h
      by_cases hs : s.head? = some '\n'
      · rw [if_pos hs] at h
        exact hhere (endsLine_cons_iff.2 (.inr ⟨hreturn, hs⟩)) h
      · rw [if_neg hs] at h
        cases h
    · rw [if_neg hreturn] at h
      obtain ⟨line, rfl, hline, hend⟩ := ih h
      exact ⟨c :: line, rfl, List.forall_mem_cons.2 ⟨⟨hfeed, hreturn⟩, hline⟩, hend⟩

/-- A comment is passed over as far as its line goes, and no further. -/
theorem lineEnd?_append {line s : Text} (hline : IsComment line) (hend : EndsLine s) :
    lineEnd? (line ++ s) = some s := by
  induction line with
  | nil =>
    cases s with
    | nil => rfl
    | cons c s =>
      rw [List.nil_append]
      unfold lineEnd?
      rcases endsLine_cons_iff.1 hend with rfl | ⟨rfl, hs⟩
      · rw [if_pos rfl]
      · rw [if_neg (by decide), if_pos rfl, if_pos hs]
  | cons c line ih =>
    obtain ⟨hc, hline⟩ := List.forall_mem_cons.1 hline
    rw [List.cons_append, lineEnd?, if_neg hc.1, if_neg hc.2]
    exact ih hline

/-- What is stripped off a text at once is layout. -/
theorem before_of_strip? {s r : Text} (h : strip? s = some r) : Before s r := by
  cases s with
  | nil => cases h
  | cons c s =>
    rw [strip?] at h
    by_cases hc : Text.isBlank c = true
    · rw [if_pos hc] at h
      obtain rfl := Option.some.inj h
      exact .blank hc (.nothing s)
    · rw [if_neg hc] at h
      obtain ⟨t, ht, hr⟩ := Option.bind_eq_some_iff.1 h
      obtain ⟨line, rfl, hline, hend⟩ := exists_of_lineEnd? hr
      unfold openComment? at ht
      split at ht
      · rename_i heq
        obtain rfl := Option.some.inj ht
        rw [heq]
        exact .comment (.inl rfl) hline hend (.nothing r)
      · rename_i heq
        obtain rfl := Option.some.inj ht
        rw [heq]
        exact .comment (.inr rfl) hline hend (.nothing r)
      · cases ht

/-- Layout in front of layout is layout. -/
theorem Before.trans {s t r : Text} (hst : Before s t) (htr : Before t r) : Before s r := by
  induction hst with
  | nothing s => exact htr
  | blank hc _ ih => exact .blank hc (ih htr)
  | comment hopener hline hend _ ih => exact .comment hopener hline hend (ih htr)

/-- What is skipped is layout. -/
theorem before_skip (s : Text) : Before s (skip s) := by
  fun_induction skip s with
  | case1 s r h ih => exact (before_of_strip? h).trans ih
  | case2 s h => exact .nothing s

/-- Layout makes no difference to what is left when all layout is skipped. -/
theorem Before.skip_eq {s r : Text} (h : Before s r) : skip s = skip r := by
  induction h with
  | nothing s => rfl
  | @blank c s r hc _ ih =>
    have hstrip : strip? (c :: s) = some s := by rw [strip?, if_pos hc]
    rw [skip_of_strip? hstrip, ih]
  | @comment opener line s r hopener hline hend _ ih =>
    have hstrip : strip? (opener ++ (line ++ s)) = some s := by
      rcases hopener with rfl | rfl
      · rw [List.cons_append, strip?, if_neg (by decide)]
        exact lineEnd?_append hline hend
      · rw [List.cons_append, strip?, if_neg (by decide)]
        exact lineEnd?_append hline hend
    rw [skip_of_strip? hstrip, ih]

/-- Whether layout may start with the character. -/
def mayOpen (c : Char) : Bool := Text.isBlank c || c == '#' || c == '/'

/-- Where no layout can begin, none is skipped. -/
theorem skip_cons {c : Char} (hc : mayOpen c = false) (s : Text) : skip (c :: s) = c :: s := by
  unfold mayOpen at hc
  rw [Bool.or_eq_false_iff, Bool.or_eq_false_iff, beq_eq_false_iff_ne, beq_eq_false_iff_ne] at hc
  obtain ⟨⟨hblank, hhash⟩, hslash⟩ := hc
  apply skip_of_strip?_eq_none
  rw [strip?, hblank, if_neg Bool.false_ne_true]
  unfold openComment?
  split
  · rename_i heq
    exact absurd (List.cons.inj heq).1 hhash
  · rename_i heq
    exact absurd (List.cons.inj heq).1 hslash
  · rfl

/-- In front of a character that opens no layout, the layout there is is all that is skipped. -/
theorem skip_eq_of_before {c : Char} {s r : Text} (hc : mayOpen c = false)
    (h : Before s (c :: r)) : skip s = c :: r := by
  rw [h.skip_eq, skip_cons hc]

end Layout

/-! ## Single characters -/

namespace Token

/-- The characters that are tokens by themselves. -/
def punctuation : List Char := [':', '|', ',', ')', ';', '?', '(', '[']

/-- No sign of the grammar can begin layout. -/
theorem mayOpen_of_mem_punctuation : ∀ c ∈ punctuation, Layout.mayOpen c = false := by
  have hall : (punctuation.all fun c => !Layout.mayOpen c) = true := by decide
  intro c hc
  rw [← Bool.not_eq_true']
  exact List.all_eq_true.1 hall c hc

/-- No sign of the grammar can be part of a name. -/
theorem continuesName_of_mem_punctuation : ∀ c ∈ punctuation, continuesName c = false := by
  have hall : (punctuation.all fun c => !continuesName c) = true := by decide
  intro c hc
  rw [← Bool.not_eq_true']
  exact List.all_eq_true.1 hall c hc

/-- A sign that is read stands behind layout. -/
theorem before_of_char? {c : Char} {s r : Text} (h : char? c s = some r) :
    Layout.Before s (c :: r) := by
  rw [← char?_eq_some_iff.1 h]
  exact Layout.before_skip s

/-- A sign that stands behind layout is read. -/
theorem char?_of_before {c : Char} {s r : Text} (hc : c ∈ punctuation)
    (h : Layout.Before s (c :: r)) : char? c s = some r :=
  char?_eq_some_iff.2 (Layout.skip_eq_of_before (mayOpen_of_mem_punctuation c hc) h)

/-- A sign is not read where another character stands behind the layout. -/
theorem char?_eq_none {c d : Char} {s r : Text} (hs : Layout.skip s = d :: r) (hcd : d ≠ c) :
    char? c s = none := by
  rw [char?, hs]
  exact if_neg hcd

/-- One of the given characters comes next, past layout, and it is punctuation. -/
def FollowedBy (ds : List Char) (s : Text) : Prop :=
  ∃ d ∈ ds, d ∈ punctuation ∧ ∃ r, Layout.Before s (d :: r)

/-- What is followed by one of some signs is followed by one of them and more. -/
theorem FollowedBy.cons {ds : List Char} {s : Text} (h : FollowedBy ds s) (c : Char) :
    FollowedBy (c :: ds) s := by
  obtain ⟨d, hd, hr⟩ := h
  exact ⟨d, List.mem_cons_of_mem c hd, hr⟩

/-- A sign is not read where others are due. -/
theorem FollowedBy.char?_eq_none {ds : List Char} {s : Text} {c : Char} (h : FollowedBy ds s)
    (hc : c ∉ ds) : char? c s = none := by
  obtain ⟨d, hd, hpunctuation, r, hbefore⟩ := h
  have hskip := Layout.skip_eq_of_before (mayOpen_of_mem_punctuation d hpunctuation) hbefore
  refine Token.char?_eq_none hskip ?_
  rintro rfl
  exact hc hd

/-! ## Question marks -/

/-- Reading a mark, there or not, goes where the mark goes. -/
theorem mark_of_questionMark (s : Text) : Mark s (questionMark s).1 (questionMark s).2 := by
  unfold questionMark
  split
  · rename_i r h
    exact .present (before_of_char? h)
  · exact .absent s

/-- A mark is read as it is written, if no question mark can follow that would be taken for it. -/
theorem Mark.questionMark_eq {ds : List Char} {s r : Text} {optional : Bool}
    (h : Mark s optional r) (hr : FollowedBy ds r) (hds : '?' ∉ ds) :
    questionMark s = (optional, r) := by
  unfold questionMark
  cases h with
  | absent => rw [hr.char?_eq_none hds]
  | present h => rw [char?_of_before (by decide) h]

/-- Where a mark may stand, a question mark follows, or what follows the mark. -/
theorem Mark.followedBy {ds : List Char} {s r : Text} {optional : Bool} (h : Mark s optional r)
    (hr : FollowedBy ds r) : FollowedBy ('?' :: ds) s := by
  cases h with
  | absent => exact hr.cons '?'
  | present h => exact ⟨'?', List.mem_cons_self, by decide, r, h⟩

/-! ## Names -/

/-- No character of a name can begin layout. -/
theorem mayOpen_of_continuesName {c : Char} (h : continuesName c = true) :
    Layout.mayOpen c = false := by
  have hval : c.val.toNat = c.toNat := rfl
  unfold continuesName Char.isAlphanum Char.isAlpha Char.isUpper Char.isLower Char.isDigit at h
  simp only [Bool.or_eq_true, Bool.and_eq_true, decide_eq_true_eq, beq_iff_eq,
    UInt32.le_iff_toNat_le, ge_iff_le, Char.reduceVal, UInt32.reduceToNat, hval] at h
  rw [Bool.eq_false_iff]
  intro hopen
  unfold Layout.mayOpen Text.isBlank at hopen
  simp only [Bool.or_eq_true, Bool.and_eq_true, decide_eq_true_eq, beq_iff_eq] at hopen
  -- letters and digits lie between the blanks of ASCII and the others
  rcases h with (h | rfl) | rfl
  · rcases hopen with (hopen | rfl) | rfl
    · omega
    · revert h
      decide
    · revert h
      decide
  · revert hopen
    decide
  · revert hopen
    decide

/-- A name does not go on where a sign is due, be there layout in front of the sign or not. -/
theorem FollowedBy.head_continues {ds : List Char} {s : Text} {c : Char} (h : FollowedBy ds s)
    (hc : s.head? = some c) : continuesName c = false := by
  obtain ⟨d, -, hpunctuation, r, hbefore⟩ := h
  -- a character that continues a name is no punctuation and opens no layout
  cases hbefore with
  | nothing =>
    obtain rfl := Option.some.inj hc
    exact continuesName_of_mem_punctuation d hpunctuation
  | @blank b _ _ hb _ =>
    obtain rfl := Option.some.inj hc
    rw [Bool.eq_false_iff]
    intro hname
    have hopen := mayOpen_of_continuesName hname
    rw [Layout.mayOpen, hb, Bool.true_or, Bool.true_or] at hopen
    exact Bool.false_ne_true hopen.symm
  | comment hopener _ _ _ =>
    rcases hopener with rfl | rfl
    · obtain rfl := Option.some.inj hc
      decide
    · obtain rfl := Option.some.inj hc
      decide

/-- A character that can begin a name can stand in one. -/
theorem continuesName_of_startsName {c : Char} (h : startsName c = true) : continuesName c = true := by
  unfold startsName at h
  unfold continuesName Char.isAlphanum
  rw [Bool.or_eq_true] at h
  rcases h with h | h
  · rw [h, Bool.true_or, Bool.true_or, Bool.true_or]
  · rw [h, Bool.or_true, Bool.true_or]

/-- A name consists of characters that can stand in one. -/
theorem IsName.continues {id : Name} (h : IsName id) : ∀ c ∈ id.toList, continuesName c = true := by
  obtain ⟨c, s, hid, hc, hs⟩ := h
  rw [hid]
  exact List.forall_mem_cons.2 ⟨continuesName_of_startsName hc, hs⟩

/-- A text that starts with a name starts with no layout. -/
theorem IsName.skip_append {id : Name} (h : IsName id) (r : Text) :
    Layout.skip (id.toList ++ r) = id.toList ++ r := by
  obtain ⟨c, s, hid, hc, -⟩ := h
  rw [hid, List.cons_append]
  exact Layout.skip_cons (mayOpen_of_continuesName (continuesName_of_startsName hc)) _

/-- Where a name stands, no sign is read. -/
theorem IsName.char?_eq_none {id : Name} (h : IsName id) {c : Char} {s r : Text}
    (hs : Layout.skip s = id.toList ++ r) (hc : continuesName c = false) : char? c s = none := by
  obtain ⟨d, t, hid, hd, -⟩ := h
  rw [hid, List.cons_append] at hs
  refine Token.char?_eq_none hs ?_
  rintro rfl
  rw [continuesName_of_startsName hd] at hc
  cases hc

/-- What is read as a name is one, and it is taken off the text. -/
theorem name?_eq_some {s r : Text} {id : Name} (h : name? s = some (id, r)) :
    s = id.toList ++ r ∧ IsName id := by
  cases s with
  | nil => cases h
  | cons c s =>
    rw [name?] at h
    split at h
    · rename_i hc
      obtain ⟨rfl, rfl⟩ := Prod.mk.inj (Option.some.inj h)
      refine ⟨?_, c, s.takeWhile continuesName, String.toList_ofList, hc, ?_⟩
      · rw [String.toList_ofList, List.cons_append, List.takeWhile_append_dropWhile]
      · exact fun d hd => List.mem_takeWhile_imp hd
    · cases h

/-- A name is read as far as it goes, if what follows does not continue it. -/
theorem IsName.name?_append {id : Name} (h : IsName id) {r : Text}
    (hr : ∀ c, r.head? = some c → continuesName c = false) :
    name? (id.toList ++ r) = some (id, r) := by
  obtain ⟨c, s, hid, hc, hs⟩ := h
  obtain ⟨htake, hdrop⟩ := Text.takeWhile_append_of_head hs hr
  rw [hid, List.cons_append, name?, if_pos hc, htake, hdrop, ← hid, String.ofList_toList]

/-! ## Kind words -/

/-- A word is read where the text begins with it, in letters of any case. -/
theorem word?_eq_some_iff {w s r : Text} :
    word? w s = some r ↔ ∃ word, s = word ++ r ∧ word.map Char.toLower = w := by
  induction w generalizing s with
  | nil => simp [word?, eq_comm]
  | cons d w ih =>
    cases s with
    | nil => simp [word?]
    | cons c s =>
      rw [word?]
      by_cases hc : c.toLower = d
      · rw [if_pos hc, ih]
        constructor
        · rintro ⟨word, rfl, rfl⟩
          exact ⟨c :: word, rfl, by rw [List.map_cons, hc]⟩
        · rintro ⟨word, hs, hword⟩
          cases word with
          | nil => cases hword
          | cons c' word =>
            obtain ⟨rfl, rfl⟩ := List.cons.inj hs
            exact ⟨word, rfl, (List.cons.inj hword).2⟩
      · rw [if_neg hc]
        constructor
        · intro h
          cases h
        · rintro ⟨word, hs, hword⟩
          cases word with
          | nil => cases hword
          | cons c' word =>
            obtain ⟨rfl, -⟩ := List.cons.inj hs
            exact absurd (List.cons.inj hword).1 hc

/-- A word is read with all the white space behind it that can part it from a name. -/
theorem partedWord?_append {w word : Text} {c : Char} (hword : word.map Char.toLower = w)
    (hc : partsKindWord c = true) (r : Text) :
    partedWord? w (word ++ c :: r) = some (r.dropWhile partsKindWord) := by
  rw [partedWord?, word?_eq_some_iff.2 ⟨word, rfl, hword⟩]
  exact if_pos hc

/-- A word that is read has white space behind it, at least one character of it, and all of that is taken off. -/
theorem partedWord?_eq_some {w s r : Text} (h : partedWord? w s = some r) :
    ∃ word c blanks, s = word ++ (c :: blanks ++ r) ∧ word.map Char.toLower = w ∧
      ∀ b ∈ c :: blanks, partsKindWord b = true := by
  unfold partedWord? at h
  split at h
  · rename_i c t ht
    split at h
    · rename_i hc
      obtain rfl := Option.some.inj h
      obtain ⟨word, rfl, hword⟩ := word?_eq_some_iff.1 ht
      refine ⟨word, c, t.takeWhile partsKindWord, ?_, hword, ?_⟩
      · rw [List.cons_append, List.takeWhile_append_dropWhile]
      · exact List.forall_mem_cons.2 ⟨hc, fun b hb => List.mem_takeWhile_imp hb⟩
    · cases h
  · cases h

/-- What holds of a small letter holds of the letter, if it holds of all capitals. -/
theorem of_toLower {p : Char → Bool} (hupper : ∀ c, c.isUpper = true → p c = true) {c : Char}
    (h : p c.toLower = true) : p c = true := by
  by_cases hc : c.isUpper = true
  · exact hupper c hc
  · unfold Char.isUpper at hc
    unfold Char.toLower at h
    rw [dif_neg (by simpa using hc)] at h
    exact h

/-- Whether a character can begin a name does not depend on its case. -/
theorem startsName_of_toLower {c : Char} (h : startsName c.toLower = true) : startsName c = true := by
  refine of_toLower ?_ h
  intro d hd
  unfold startsName Char.isAlpha
  rw [hd]
  rfl

/-- Whether a character can stand in a name does not depend on its case. -/
theorem continuesName_of_toLower {c : Char} (h : continuesName c.toLower = true) :
    continuesName c = true := by
  refine of_toLower ?_ h
  intro d hd
  unfold continuesName Char.isAlphanum Char.isAlpha
  rw [hd]
  rfl

theorem kindWord_entity : KindWord .entity "entity".toList := .entity rfl

theorem kindWord_intent : KindWord .intent "intent".toList := .intent rfl

/-- A kind word consists of characters that can stand in a name. -/
theorem KindWord.continues {k : RuleKind} {w : Text} (h : KindWord k w) :
    ∀ c ∈ w, continuesName c = true := by
  have hlower : ∀ c ∈ w.map Char.toLower, continuesName c = true := by
    cases h with
    | entity h =>
      rw [h]
      exact List.all_eq_true.1 (by decide)
    | intent h =>
      rw [h]
      exact List.all_eq_true.1 (by decide)
  intro c hc
  exact continuesName_of_toLower (hlower _ (List.mem_map_of_mem hc))

/-- What parts a kind word from a name can stand in neither. -/
theorem continuesName_of_partsKindWord {c : Char} (h : partsKindWord c = true) :
    continuesName c = false := by
  unfold partsKindWord at h
  simp only [Bool.or_eq_true, beq_iff_eq] at h
  rcases h with ((rfl | rfl) | rfl) | rfl <;> decide

/-- What parts a kind word from a name is white space. -/
theorem isBlank_of_partsKindWord {c : Char} (h : partsKindWord c = true) : Text.isBlank c = true := by
  unfold partsKindWord at h
  simp only [Bool.or_eq_true, beq_iff_eq] at h
  rcases h with ((rfl | rfl) | rfl) | rfl <;> decide

/-- No word is found at the front but the one that the name characters there make, and that one only with
white space behind it. -/
theorem partedWord?_eq_none {w word r : Text} (hw : ∀ c ∈ w, continuesName c = true)
    (hword : ∀ c ∈ word, continuesName c = true)
    (hr : ∀ c, r.head? = some c → continuesName c = false)
    (hparts : word.map Char.toLower = w → ∀ c, r.head? = some c → partsKindWord c = false) :
    partedWord? w (word ++ r) = none := by
  cases hparted : partedWord? w (word ++ r) with
  | none => rfl
  | some t =>
    obtain ⟨found, c, blanks, happend, rfl, hblanks⟩ := partedWord?_eq_some hparted
    have hc : partsKindWord c = true := hblanks c List.mem_cons_self
    have hfound : ∀ d ∈ found, continuesName d = true := by
      intro d hd
      exact continuesName_of_toLower (hw _ (List.mem_map_of_mem hd))
    have hblank : ∀ d, (c :: blanks ++ t).head? = some d → continuesName d = false := by
      intro d hd
      obtain rfl := Option.some.inj hd
      exact continuesName_of_partsKindWord hc
    -- the name characters end at one place only
    have hleft := Text.takeWhile_append_of_head hword hr
    rw [happend, (Text.takeWhile_append_of_head hfound hblank).1,
      (Text.takeWhile_append_of_head hfound hblank).2] at hleft
    obtain ⟨rfl, rfl⟩ := hleft
    rw [hparts rfl c rfl] at hc
    cases hc

/-- A kind word is not empty. -/
theorem KindWord.ne_nil {k : RuleKind} {w : Text} (h : KindWord k w) : w ≠ [] := by
  rintro rfl
  cases h with
  | entity h => exact absurd h (by decide)
  | intent h => exact absurd h (by decide)

/-- A word that says a kind could be a name. -/
theorem KindWord.isName {k : RuleKind} {w : Text} (h : KindWord k w) : IsName (String.ofList w) := by
  obtain ⟨c, s, rfl⟩ := List.exists_cons_of_ne_nil h.ne_nil
  refine ⟨c, s, String.toList_ofList, startsName_of_toLower ?_, (List.forall_mem_cons.1 h.continues).2⟩
  cases h with
  | entity h =>
    rw [List.head_eq_of_cons_eq h]
    decide
  | intent h =>
    rw [List.head_eq_of_cons_eq h]
    decide

/-- White space behind a word is skipped up to the name. -/
theorem IsName.partedWord?_append {id : Name} (h : IsName id) {w word : Text} {c : Char}
    {blanks : List Char} (hword : word.map Char.toLower = w)
    (hblanks : ∀ b ∈ c :: blanks, partsKindWord b = true) (r : Text) :
    partedWord? w (word ++ (c :: blanks ++ (id.toList ++ r))) = some (id.toList ++ r) := by
  obtain ⟨hc, hblanks⟩ := List.forall_mem_cons.1 hblanks
  have hhead : ∀ d, (id.toList ++ r).head? = some d → partsKindWord d = false := by
    intro d hd
    obtain ⟨first, others, hfirst, hstarts, -⟩ := h
    rw [hfirst] at hd
    obtain rfl := Option.some.inj hd
    rw [Bool.eq_false_iff]
    intro hparts
    have hcontinues := continuesName_of_startsName hstarts
    rw [continuesName_of_partsKindWord hparts] at hcontinues
    cases hcontinues
  rw [List.cons_append, Token.partedWord?_append hword hc, (Text.takeWhile_append_of_head hblanks hhead).2]

end Token

/-! ## The head of a rule -/

namespace Rule

open Token

/-- A head that is read is written as one, with the kind and the name that are read. -/
theorem headReadsAs_of_kind {s r : Text} {id : Name} (h : name? (Token.kind s).2 = some (id, r)) :
    HeadReadsAs s (Token.kind s).1 id r := by
  unfold Token.kind at h ⊢
  cases hentity : partedWord? "entity".toList s with
  | some t =>
    rw [hentity] at h
    obtain ⟨rfl, hid⟩ := name?_eq_some h
    obtain ⟨word, c, blanks, rfl, hword, hblanks⟩ := partedWord?_eq_some hentity
    exact .kinded (.entity hword) (List.cons_ne_nil c blanks) hblanks hid
  | none =>
    rw [hentity] at h
    cases hintent : partedWord? "intent".toList s with
    | some t =>
      rw [hintent] at h
      obtain ⟨rfl, hid⟩ := name?_eq_some h
      obtain ⟨word, c, blanks, rfl, hword, hblanks⟩ := partedWord?_eq_some hintent
      exact .kinded (.intent hword) (List.cons_ne_nil c blanks) hblanks hid
    | none =>
      rw [hintent] at h
      obtain ⟨rfl, hid⟩ := name?_eq_some h
      refine .plain hid fun k c hword hc => ?_
      -- white space behind the word would have made it a kind word
      rw [Bool.eq_false_iff]
      intro hparts
      obtain ⟨r, rfl⟩ : ∃ t, r = c :: t := ⟨r.tail, (List.cons_head?_tail hc).symm⟩
      cases hword with
      | entity hword =>
        rw [partedWord?_append hword hparts] at hentity
        cases hentity
      | intent hword =>
        rw [partedWord?_append hword hparts] at hintent
        cases hintent

/-- A head is read with its kind, if its name ends where it is said to. A name that looks like a kind word is taken
for one if white space follows that could part it from a name, and that is what a head without a kind rules out. -/
theorem HeadReadsAs.kind_eq {s r : Text} {k : RuleKind} {id : Name} (h : HeadReadsAs s k id r)
    (hr : ∀ c, r.head? = some c → continuesName c = false) : Token.kind s = (k, id.toList ++ r) := by
  cases h with
  | plain hid hword =>
    have hentity : partedWord? "entity".toList (id.toList ++ r) = none :=
      partedWord?_eq_none kindWord_entity.continues hid.continues hr fun hlower c hc =>
        hword _ c (.entity hlower) hc
    have hintent : partedWord? "intent".toList (id.toList ++ r) = none :=
      partedWord?_eq_none kindWord_intent.continues hid.continues hr fun hlower c hc =>
        hword _ c (.intent hlower) hc
    unfold Token.kind
    rw [hentity, hintent]
  | @kinded _ word blanks r _ hword hne hblanks hid =>
    obtain ⟨c, blanks, rfl⟩ := List.exists_cons_of_ne_nil hne
    unfold Token.kind
    cases hword with
    | entity hlower => rw [hid.partedWord?_append hlower hblanks]
    | intent hlower =>
      have hblank : ∀ d, (c :: blanks ++ (id.toList ++ r)).head? = some d →
          continuesName d = false := by
        intro d hd
        obtain rfl := Option.some.inj hd
        exact continuesName_of_partsKindWord (hblanks c List.mem_cons_self)
      -- one word cannot say both kinds
      have hentity : partedWord? "entity".toList (word ++ (c :: blanks ++ (id.toList ++ r))) = none := by
        apply partedWord?_eq_none kindWord_entity.continues (KindWord.intent hlower).continues hblank
        intro hlower'
        rw [hlower] at hlower'
        exact absurd hlower' (by decide)
      rw [hentity, hid.partedWord?_append hlower hblanks]

/-- The name in a head is a name. -/
theorem HeadReadsAs.isName {s r : Text} {k : RuleKind} {id : Name} (h : HeadReadsAs s k id r) :
    IsName id := by
  cases h with
  | plain hid _ => exact hid
  | kinded _ _ _ hid => exact hid

/-- The head of a rule starts with no layout. -/
theorem HeadReadsAs.skip_eq {s r : Text} {k : RuleKind} {id : Name} (h : HeadReadsAs s k id r) :
    Layout.skip s = s := by
  cases h with
  | plain hid _ => exact hid.skip_append r
  | @kinded _ word blanks r _ hword _ _ _ =>
    obtain ⟨c, s, rfl⟩ := List.exists_cons_of_ne_nil hword.ne_nil
    exact Layout.skip_cons (mayOpen_of_continuesName (hword.continues c List.mem_cons_self)) _

end Rule

/-! ## Tuples -/

namespace Token

/-- The items that are found in a tuple are those that its content lists. -/
theorem lists_tupleItems (content : Text) : Lists content (tupleItems content) := by
  refine ⟨Text.split (· == ',') content, Text.split_ne_nil _ content, ?_,
    (Text.intercalate_split ',' content).symm, rfl⟩
  intro p hp hcomma
  have hseparates := (Text.mem_split hp ',' hcomma).2
  exact absurd hseparates (by decide)

/-- A content lists the items that are found in it, and no others. -/
theorem Lists.tupleItems_eq {content : Text} {items : List Text} (h : Lists content items) :
    tupleItems content = items := by
  obtain ⟨pieces, hne, hpieces, rfl, rfl⟩ := h
  rw [tupleItems, Text.words, Text.split_intercalate hne hpieces]

/-- A tuple that is read has a content without closing bracket that lists its items, of which there are some. -/
theorem exists_of_tuple {s r : Text} {items : List Text} (h : tuple s = .ok (items, r)) :
    ∃ content, s = content ++ ']' :: r ∧ (∀ c ∈ content, inTuple c = true) ∧
      Lists content items ∧ items ≠ [] := by
  unfold tuple at h
  split at h
  · cases h
  · rename_i c rest hdrop
    split at h
    · rename_i hc
      simp only at h
      split at h
      · cases h
      · rename_i hne
        obtain ⟨rfl, rfl⟩ := Prod.mk.inj (Except.ok.inj h)
        refine ⟨s.takeWhile inTuple, ?_, fun d hd => List.mem_takeWhile_imp hd,
          lists_tupleItems _, by simpa using hne⟩
        rw [← hc, ← hdrop, List.takeWhile_append_dropWhile]
    · cases h

/-- A content that lists some items is read as a tuple of them, up to the first closing bracket. -/
theorem tuple_append {content : Text} {items : List Text}
    (hcontent : ∀ c ∈ content, inTuple c = true) (hitems : Lists content items)
    (hne : items ≠ []) (r : Text) : tuple (content ++ ']' :: r) = .ok (items, r) := by
  obtain ⟨htake, hdrop⟩ := Text.takeWhile_append_of_head (r := ']' :: r) hcontent (by
    intro c hc
    obtain rfl := Option.some.inj hc
    decide)
  rw [tuple, hdrop, htake]
  simp only [hitems.tupleItems_eq, ↓reduceIte, List.isEmpty_eq_false_iff.2 hne, Bool.false_eq_true]

end Token

end UtteranceGrammar
