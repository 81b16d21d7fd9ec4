/-
Where a source is at fault.

A reader that fails leaves what it has not read, and the error is told at that place. It is the right one: up to there
the text opens the thing to be read, so nothing in front of the place is wrong, or it does once a hollow tuple is taken
off its end (`FaultAt`). A reader that fails in a part of what it reads has its fault where the part has it
(`FaultAt.within`), so this goes up from terms to the whole source, along the readers' own recursion.

An error tells its place by line and column. No two places in a source have both in common (`Text.offset_unique`).
-/
import UtteranceGrammar.Proofs.Source.Failing

set_option autoImplicit false

namespace UtteranceGrammar

open Layout (Endable)

variable {s b c : Text} {f : Failure}

/-! ## Faults -/

/-- A reader that fails on `s` and leaves `rest` is right about the fault. It has read what opens the thing to be read,
or else a hollow tuple behind that, and then no continuation can make up for it. -/
inductive FaultAt (opens fails : Text → Prop) (s rest : Text) : Prop where
  | next {b : Text} (hs : s = b ++ rest) (hb : opens b)
  | hollow {b content : Text} (hs : s = b ++ '[' :: (content ++ ']' :: rest))
      (hcontent : Token.Hollow content) (hb : opens b)
      (hfails : ∀ r, fails (b ++ '[' :: (content ++ ']' :: r)))

/-- A fault in a part is one in the whole that the part is put into, if what opens the part opens the whole, and a part
that cannot be read makes the whole one that cannot. -/
theorem FaultAt.within {opens fails opens' fails' : Text → Prop} {s rest : Text} (whole : Text → Text)
    (hwhole : ∀ b r, whole (b ++ r) = whole b ++ r) (hopens : ∀ b, opens b → opens' (whole b))
    (hfails : ∀ b, fails b → fails' (whole b)) (h : FaultAt opens fails s rest) :
    FaultAt opens' fails' (whole s) rest := by
  cases h with
  | next hs hb => exact .next (by rw [hs, hwhole]) (hopens _ hb)
  | hollow hs hcontent hb hfails' =>
    refine .hollow (by rw [hs, hwhole]) hcontent (hopens _ hb) fun r => ?_
    rw [← hwhole]
    exact hfails _ (hfails' r)

/-! ## Faults in patterns -/

/-- Something has been read, and what should come behind it does not. -/
theorem FaultAt.behind {opens fails : Text → Prop} {s e : Text} (hs : s = b ++ e)
    (hopens : ∀ g, Endable g → opens (b ++ g)) : FaultAt opens fails s (Layout.skip e) := by
  obtain ⟨g, hg, he⟩ := Layout.exists_endable_skip e
  refine .next (b := b ++ g) ?_ (hopens g hg)
  rw [List.append_assoc, ← he]
  exact hs

mutual

/-- Where a term cannot be read, the reader is right about the fault. This and the two below go along the reader's
own recursion. -/
theorem Term.faultAt_of_read {s : Text} {f : Failure} (h : Term.read s = .error f) :
    FaultAt (Opens Term.ReadsAs) (Fails Term.read) s f.rest := by
  rcases Term.exists_of_read_eq_error h with ⟨inside, f', hopen, hbody, hrest⟩ |
    ⟨inside, body, e, hopen, hbody, hrest⟩ | ⟨inside, f', hopen, hbracket, htuple, hrest⟩ | hrest
  · -- past the parenthesis the text is shorter
    have hlt := Token.length_lt_of_char? hopen
    obtain ⟨w, hw, hs⟩ := Token.exists_whole_of_char? hopen
    rw [hrest, hs]
    exact (Sequence.faultAt_of_read hbody).within (fun b => w ++ '(' :: b) (fun b r => by simp)
      (fun b => Term.opens_group hw) fun b => Term.fails_group hw
  · obtain ⟨w, hw, hs⟩ := Token.exists_whole_of_char? hopen
    obtain ⟨b, rfl, hb⟩ := exists_complete (Sequence.readsAs_iff_lexed body)
      (Sequence.readsAs_of_read body hbody)
    rw [hrest]
    refine FaultAt.behind (b := w ++ '(' :: b) (by rw [hs]; simp) fun g hg => ?_
    rw [List.append_assoc, List.cons_append]
    exact Term.opens_closing hw hb hg
  · obtain ⟨w, hw, rfl⟩ := Token.exists_whole_of_char? hbracket
    rw [hrest]
    rcases Token.exists_of_tuple_eq_error htuple with ⟨content, hcontent, rfl⟩ | ⟨content, hcontent, rfl⟩
    · exact .next (b := w ++ '[' :: content) (by simp) (Term.opens_tuple hw hcontent)
    · exact .hollow rfl hcontent (Term.opens_of_endable hw.endable) fun r => Term.fails_tuple hw hcontent r
  · rw [hrest]
    exact FaultAt.behind (b := []) rfl fun g => Term.opens_of_endable
termination_by 3 * s.length

theorem Alternation.faultAt_of_read {s : Text} {f : Failure} (h : Alternation.read s = .error f) :
    FaultAt (Opens Alternation.ReadsAs) (Fails Alternation.read) s f.rest := by
  rcases Alternation.exists_of_read_eq_error h with ht | ⟨t, e, more, ht, hbar, hmore⟩
  · exact (Term.faultAt_of_read ht).within id (fun _ _ => rfl) (fun b => Alternation.opens_single) fun b =>
      Alternation.fails_single
  · obtain ⟨b, w, hs, hb, hw⟩ :=
      exists_complete_char (Term.readsAs_iff_lexed t) (Term.readsAs_of_read t ht) hbar
    have hlt : more.length < s.length := by
      rw [hs, List.length_append, List.length_append, List.length_cons]
      omega
    rw [hs]
    exact (Alternation.faultAt_of_read hmore).within (fun c => b ++ (w ++ '|' :: c)) (fun c r => by simp)
      (fun c => Alternation.opens_cons hb hw) fun c => Alternation.fails_cons hb hw
termination_by 3 * s.length + 1

theorem Sequence.faultAt_of_read {s : Text} {f : Failure} (h : Sequence.read s = .error f) :
    FaultAt (Opens Sequence.ReadsAs) (Fails Sequence.read) s f.rest := by
  rcases Sequence.exists_of_read_eq_error h with hg | ⟨g, e, more, hg, hcomma, hmore⟩
  · exact (Alternation.faultAt_of_read hg).within id (fun _ _ => rfl) (fun b => Sequence.opens_single) fun b =>
      Sequence.fails_single
  · obtain ⟨b, w, hs, hb, hw⟩ :=
      exists_complete_char (Alternation.readsAs_iff_lexed g) (Alternation.readsAs_of_read g hg) hcomma
    have hlt : more.length < s.length := by
      rw [hs, List.length_append, List.length_append, List.length_cons]
      omega
    rw [hs]
    exact (Sequence.faultAt_of_read hmore).within (fun c => b ++ (w ++ ',' :: c)) (fun c r => by simp)
      (fun c => Sequence.opens_cons hb hw) fun c => Sequence.fails_cons hb hw
termination_by 3 * s.length + 2

end

/-! ## Faults in rules -/

/-- The same for a rule, with the layout in front of it. -/
theorem Rule.faultAt_of_read (h : Rule.read (Layout.skip s) = .error f) :
    FaultAt (Opens Rule.ReadsAs) Rule.FailsOn s f.rest := by
  rcases Rule.exists_of_read_eq_error h with hrest | ⟨id, e, hname, hrest⟩ |
    ⟨id, e, text, hname, hcolon, hbehind⟩
  · rw [hrest]
    exact FaultAt.behind (b := []) rfl fun g hg => Rule.opens_front (Rule.opens_front_of_endable hg)
  · obtain ⟨b, hs, hb⟩ := Rule.exists_opens_of_head (Rule.headReadsAs_of_kind hname)
    rw [hrest]
    exact .next hs (Rule.opens_front hb)
  · have hfront : Rule.FrontReadsAs s ((Token.kind (Layout.skip s)).1, id) text :=
      ⟨_, e, Layout.before_skip s, Rule.headReadsAs_of_kind hname, Token.before_of_char? hcolon⟩
    obtain ⟨b, rfl, hb⟩ := hfront.exists_complete
    rcases hbehind with ⟨f', hbody, hrest⟩ | ⟨body, e', hbody, hrest⟩
    · rw [hrest]
      exact (Sequence.faultAt_of_read hbody).within (fun c => b ++ c) (fun c r => by simp)
        (fun c => Rule.opens_body hb) fun c => Rule.fails_body hb
    · obtain ⟨c, rfl, hc⟩ := exists_complete (Sequence.readsAs_iff_lexed body)
        (Sequence.readsAs_of_read body hbody)
      rw [hrest]
      refine FaultAt.behind (b := b ++ c) (by simp) fun g hg => ?_
      rw [List.append_assoc]
      exact Rule.opens_semicolon hb hc hg

/-! ## Faults in sources -/

namespace Grammar

/-- The text can be continued to a source that is accepted. -/
def Begins (b : Text) : Prop := ∃ t g, parse (b ++ t) = .ok g

/-- The source is not accepted. -/
def Refuses (s : Text) : Prop := ∀ g, parse s ≠ .ok g

variable {rule : Rule}

/-- A text that reads as a grammar is accepted. -/
theorem parse_of_readsAs {g : Grammar} (h : ReadsAs s g) : parse s = .ok g :=
  parse_eq_ok_iff.2 (read_eq_ok_iff.2 h)

/-- What opens a rule begins a source, of that rule alone. -/
theorem begins_of_opens (h : Opens Rule.ReadsAs b) : Begins b := by
  obtain ⟨t, rule, hrule⟩ := h
  exact ⟨t ++ [], [rule], parse_of_readsAs (.cons (hrule []) (.nil (.nothing [])))⟩

/-- Behind a rule, what begins a source begins the longer one. -/
theorem begins_append (hb : Complete Rule.ReadsAs b rule) (h : Begins c) : Begins (b ++ c) := by
  obtain ⟨t, g, hg⟩ := h
  refine ⟨t, rule :: g, parse_of_readsAs ?_⟩
  rw [List.append_assoc]
  exact .cons (hb _) (read_eq_ok_iff.1 (parse_eq_ok_iff.1 hg))

/-- Where no rule can be read and the source is not at its end, it is refused. -/
theorem refuses_of_failsOn (h : Rule.FailsOn s) : Refuses s := by
  obtain ⟨hne, f, hf⟩ := h
  intro g hg
  rw [parse_eq_ok_iff] at hg
  cases g with
  | nil => exact hne (read_eq_nil_iff.1 hg)
  | cons rule rules =>
    obtain ⟨r, hrule, -⟩ := read_eq_cons_iff.1 hg
    rw [hf] at hrule
    cases hrule

/-- Behind a rule, what is refused makes the whole refused. -/
theorem refuses_append (hb : Complete Rule.ReadsAs b rule) (h : Refuses c) : Refuses (b ++ c) := by
  have hrule := Rule.read_skip_eq_ok_iff.2 (hb c)
  intro g hg
  rw [parse_eq_ok_iff] at hg
  cases g with
  | nil =>
    rw [read_eq_nil_iff.1 hg] at hrule
    cases hrule
  | cons rule' rules =>
    obtain ⟨r, hrule', hrules⟩ := read_eq_cons_iff.1 hg
    rw [hrule] at hrule'
    obtain ⟨-, rfl⟩ := Prod.mk.inj (Except.ok.inj hrule')
    exact h rules (parse_eq_ok_iff.2 hrules)

/-- Reading fails on the first rule, or on what is behind it. -/
theorem exists_of_read_eq_error (h : read s = .error f) :
    Rule.read (Layout.skip s) = .error f ∨
      ∃ rule r, Rule.read (Layout.skip s) = .ok (rule, r) ∧ read r = .error f := by
  rw [read] at h
  split at h
  · cases h
  split at h
  · rename_i f' hrule
    exact .inl (by rw [hrule, Except.error.inj h])
  · rename_i rule r hrule
    split at h
    · rename_i f' hrules
      exact .inr ⟨rule, r, hrule, by rw [hrules, Except.error.inj h]⟩
    · cases h

/-- Where a source cannot be read, the reader is right about the fault. -/
theorem faultAt_of_read {s : Text} {f : Failure} (h : read s = .error f) :
    FaultAt Begins Refuses s f.rest := by
  rcases exists_of_read_eq_error h with hrule | ⟨rule, r, hrule, hrules⟩
  · exact (Rule.faultAt_of_read hrule).within id (fun _ _ => rfl) (fun _ => begins_of_opens) fun _ =>
      refuses_of_failsOn
  · have hlt := Nat.lt_of_lt_of_le (Rule.length_lt_of_read hrule) (Layout.length_skip_le s)
    obtain ⟨b, hs, hb⟩ := (Rule.read_skip_eq_ok_iff.1 hrule).exists_complete
    rw [hs]
    exact (faultAt_of_read hrules).within (fun c => b ++ c) (fun c r => by simp)
      (fun c => begins_append hb) fun c => refuses_append hb
termination_by s.length

end Grammar

/-! ## Lines and columns -/

namespace Text

theorem lineAfter_append (a b : Text) : lineAfter (a ++ b) = lineAfter a + b.count '\n' := by
  rw [lineAfter, lineAfter, List.count_append]
  omega

/-- On one line the column grows with the text. -/
theorem columnAfter_append {b : Text} (hb : '\n' ∉ b) (a : Text) :
    columnAfter (a ++ b) = columnAfter a + b.length := by
  have hline : ∀ c ∈ b.reverse, (c != '\n') = true := by
    intro c hc
    rw [bne_iff_ne]
    rintro rfl
    exact hb (List.mem_reverse.1 hc)
  rw [columnAfter, columnAfter, lastLine, lastLine, List.reverse_append, List.takeWhile_append_of_pos hline]
  simp only [List.length_reverse, List.length_append]
  omega

/-- Of two offsets on one line, the one further behind is in the column further behind. -/
theorem columnAfter_lt {s : Text} {p q : Nat} (hpq : p < q) (hq : q ≤ s.length)
    (hline : lineAfter (s.take p) = lineAfter (s.take q)) :
    columnAfter (s.take p) < columnAfter (s.take q) := by
  have hsplit : s.take q = s.take p ++ (s.drop p).take (q - p) := by
    rw [← List.take_add, Nat.add_sub_cancel' (Nat.le_of_lt hpq)]
  rw [hsplit, lineAfter_append] at hline
  have hbetween : '\n' ∉ (s.drop p).take (q - p) := List.count_eq_zero.1 (by omega)
  rw [hsplit, columnAfter_append hbetween, List.length_take, List.length_drop]
  omega

/-- Two offsets into a text do not have both their line and their column in common. -/
theorem offset_unique {s : Text} {p q : Nat} (hp : p ≤ s.length) (hq : q ≤ s.length)
    (hline : lineAfter (s.take p) = lineAfter (s.take q))
    (hcolumn : columnAfter (s.take p) = columnAfter (s.take q)) : p = q := by
  rcases Nat.lt_trichotomy p q with hlt | heq | hlt
  · have hcolumns := columnAfter_lt hlt hq hline
    omega
  · exact heq
  · have hcolumns := columnAfter_lt hlt hp hline.symm
    omega

end Text

/-! ## Where a source is at fault -/

namespace Grammar

/-- The error that is told comes from a failure of the reader. -/
theorem exists_of_parse_eq_error {e : SourceError} (h : parse s = .error e) :
    ∃ f, read s = .error f ∧ f.inSource s = e := by
  rw [parse] at h
  cases hread : read s with
  | ok g =>
    rw [hread] at h
    cases h
  | error f =>
    rw [hread] at h
    exact ⟨f, rfl, Except.error.inj h⟩

/-- What stands in front of an error is what has been read. -/
theorem take_offset_inSource (hs : s = b ++ f.rest) : s.take (f.inSource s).offset = b := by
  have hoffset : s.length - f.rest.length = b.length := by
    rw [hs, List.length_append]
    omega
  show s.take (s.length - f.rest.length) = b
  rw [hoffset, hs, List.take_left]

/-- **An error is where the fault is.** Of all offsets into the source one alone has the line and the column that are
told, and up to there the source can be continued to one that is accepted. The one exception is a tuple with nothing in
it but commas and white space: there the error is right behind its closing bracket, which is too late for that, and what
can be continued is the source up to the opening one. -/
theorem error_of_parse {source : Text} {e : SourceError} (h : parse source = .error e) :
    e.offset ≤ source.length ∧
      (∀ p ≤ source.length,
        Text.lineAfter (source.take p) = e.line ∧ Text.columnAfter (source.take p) = e.column ↔ p = e.offset) ∧
      (Begins (source.take e.offset) ∨
        ∃ before content, source.take e.offset = before ++ '[' :: (content ++ [']']) ∧ Token.Hollow content ∧
          Begins before ∧ ¬Begins (source.take e.offset)) := by
  obtain ⟨f, hf, rfl⟩ := exists_of_parse_eq_error h
  have hle : (f.inSource source).offset ≤ source.length := Nat.sub_le _ _
  refine ⟨hle, fun p hp => ⟨fun hplace => ?_, ?_⟩, ?_⟩
  · exact Text.offset_unique hp hle hplace.1 hplace.2
  · rintro rfl
    exact ⟨rfl, rfl⟩
  · cases faultAt_of_read hf with
    | next hs hb =>
      rw [take_offset_inSource hs]
      exact .inl hb
    | @hollow b content hs hcontent hb hrefuses =>
      have htake : source.take (f.inSource source).offset = b ++ '[' :: (content ++ [']']) := by
        apply take_offset_inSource
        rw [hs, List.append_assoc, List.cons_append, List.append_assoc]
        rfl
      rw [htake]
      refine .inr ⟨b, content, rfl, hcontent, hb, ?_⟩
      rintro ⟨t, g, hg⟩
      rw [List.append_assoc, List.cons_append, List.append_assoc] at hg
      exact hrefuses t g hg

/-- Within a group, a tuple behind another group without a comma between them. -/
def unparted : Text := "a: [x]; # y\nb: (a, (a) [z]);".toList

/-- Where `unparted` is at fault. -/
def missingComma : SourceError := ⟨unparted, 23, [.character ')', .term, .ruleBody]⟩

/-- A tuple in a group without the comma in front of it: the place of the error is the tuple's, and nowhere else in
the source is in that line and column. -/
theorem error_of_parse_unparted :
    parse unparted = .error missingComma ∧ missingComma.line = 2 ∧ missingComma.column = 12 ∧
      (∀ p ≤ unparted.length,
        Text.lineAfter (unparted.take p) = missingComma.line ∧
          Text.columnAfter (unparted.take p) = missingComma.column ↔ p = 23) ∧
      Begins "a: [x]; # y\nb: (a, (a) ".toList := by
  have h : parse unparted = .error missingComma := by decide +kernel
  obtain ⟨-, hplace, hfault⟩ := error_of_parse h
  have hbefore : unparted.take missingComma.offset = "a: [x]; # y\nb: (a, (a) ".toList := by decide
  rw [hbefore] at hfault
  refine ⟨h, by decide, by decide, hplace, hfault.resolve_right ?_⟩
  -- the text in front of the fault does not end with a closing bracket
  rintro ⟨before, content, htake, -⟩
  have hlast := congrArg List.getLast? htake
  rw [List.append_cons, ← List.append_assoc, List.getLast?_concat] at hlast
  exact absurd hlast (by decide)

-- behind the closing bracket of the hollow tuple
example :
    parse "go: ([to], [ ,, ]);".toList =
      .error ⟨"go: ([to], [ ,, ]);".toList, 17, [.term, .character ')', .term, .ruleBody]⟩ := by
  decide +kernel

end Grammar

end UtteranceGrammar
