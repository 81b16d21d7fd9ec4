/-
Matching the marks of a text in one pass.

Decoding goes down through all heads of a text first and finds the ENDs on the way back. A matcher goes through
the text once, character by character from left to right, with a stack of the spans that are open: the `]` of a
head puts its name on the stack, and an END outside all heads takes the last one off, or stays in the text if
there is none. It refuses a text at the first head that is none, and at the end of the text if a span is still
open.

Both accept the same texts and refuse the others for the same reason (`decode_eq_outcome`). What makes that clear
is the number of ENDs that stripping leaves. They close nothing in what has been stripped, so they are the ones
that close spans opened before. In terms of the stack: a matcher that goes through a text which can be stripped
ends with its stack shortened by that number (`Matcher.outcome_eq`). So the first END left behind a head, if there
is any, is the one that takes the name of that head off the stack.
-/
import UtteranceGrammar.Proofs.Markup.Decoding

set_option autoImplicit false

namespace UtteranceGrammar

namespace Markup

/-! ## The matcher -/

/-- Where in a text a matcher stands. -/
inductive Place where
  /-- Outside all heads. -/
  | outside
  /-- Right behind the START at the index `start`. -/
  | opening (start : Nat)
  /-- In the head of the START at the index `start`, behind the characters `name`. -/
  | naming (start : Nat) (name : Text)
deriving DecidableEq, Repr

/-- What a matcher knows of the characters that it has gone through. -/
structure Matcher where
  /-- Their number, and so the index of the next one. -/
  index : Nat
  /-- The number of those that belong to complete heads. -/
  headed : Nat
  /-- Those that belong to no head and are no END that closes a span. -/
  text : Text
  /-- The names in the complete heads, the last one first. -/
  names : List Name
  /-- The names of the open spans, the last opened first. -/
  opened : List Name
  place : Place
deriving DecidableEq, Repr

namespace Matcher

/-- The matcher in front of a text. -/
def start : Matcher := ⟨0, 0, [], [], [], .outside⟩

/-- Goes past a character that is no START and stands outside all heads. -/
def pass (m : Matcher) (c : Char) : Matcher :=
  match m.opened with
  | [] => { m with index := m.index + 1, text := m.text ++ [c] }
  | _ :: enclosing =>
    if c = spanEnd then { m with index := m.index + 1, opened := enclosing }
    else { m with index := m.index + 1, text := m.text ++ [c] }

/-- Goes past one character. -/
def step (m : Matcher) (c : Char) : Except MarkupError Matcher :=
  match m.place with
  | .outside =>
    if c = spanStart then .ok { m with index := m.index + 1, place := .opening m.index }
    else .ok (m.pass c)
  | .opening start =>
    if c = '[' then .ok { m with index := m.index + 1, place := .naming start [] }
    else .error (.nameNotOpened (start - m.headed))
  | .naming start name =>
    if c = ']' then
      .ok { m with
        index := m.index + 1
        headed := m.headed + (m.index + 1 - start)
        names := String.ofList name :: m.names
        opened := String.ofList name :: m.opened
        place := .outside }
    else .ok { m with index := m.index + 1, place := .naming start (name ++ [c]) }

/-- What comes of a text that ends outside all heads: the characters left and the names of its spans, unless a
span is still open. -/
def settle (opened : List Name) (text : Text) (names : List Name) : Except MarkupError (Text × List Name) :=
  match opened with
  | [] => .ok (text, names)
  | name :: _ => .error (.entityNotEnded name)

/-- What comes of a text at its end. -/
def finish (m : Matcher) : Except MarkupError (Text × List Name) :=
  match m.place with
  | .outside => settle m.opened m.text m.names
  | .opening start => .error (.nameNotOpened (start - m.headed))
  | .naming start _ => .error (.nameNotClosed (start - m.headed))

/-- What comes of a text. -/
def outcome (m : Matcher) (s : Text) : Except MarkupError (Text × List Name) :=
  s.foldlM step m >>= finish

theorem outcome_nil (m : Matcher) : m.outcome [] = m.finish := rfl

theorem outcome_cons (m : Matcher) (c : Char) (s : Text) :
    m.outcome (c :: s) = m.step c >>= fun m' => m'.outcome s := by
  rw [outcome, List.foldlM_cons, bind_assoc]
  rfl

/-- The outcome of a text can be had piece by piece. -/
theorem outcome_append {m m' : Matcher} {s : Text} (h : s.foldlM step m = .ok m') (t : Text) :
    m.outcome (s ++ t) = m'.outcome t := by
  rw [outcome, List.foldlM_append, h]
  rfl

end Matcher

/-! ## Texts without some of their ENDs -/

/-- A text without its first `n` ENDs. -/
def dropEnds : Nat → Text → Text
  | 0, s => s
  | _ + 1, [] => []
  | n + 1, c :: s => if c = spanEnd then dropEnds n s else c :: dropEnds (n + 1) s

/-- What is no END stays. -/
theorem dropEnds_cons_of_ne {c : Char} (hc : c ≠ spanEnd) (n : Nat) (s : Text) :
    dropEnds n (c :: s) = c :: dropEnds n s := by
  cases n with
  | zero => rw [dropEnds, dropEnds]
  | succ n => rw [dropEnds, if_neg hc]

/-- Those of the first `n` ENDs that are not in the front part are dropped behind it. -/
theorem dropEnds_append (n : Nat) (s t : Text) :
    dropEnds n (s ++ t) = dropEnds n s ++ dropEnds (n - s.count spanEnd) t := by
  fun_induction dropEnds n s with
  | case1 s => rw [Nat.zero_sub, dropEnds, dropEnds]
  | case2 n => rfl
  | case3 n s ih =>
    rw [List.cons_append, dropEnds, if_pos rfl, ih, List.count_cons_self, Nat.succ_sub_succ]
  | case4 n c s hc ih =>
    rw [List.cons_append, dropEnds, if_neg hc, ih, List.count_cons_of_ne hc, List.cons_append]

/-- A text without END is kept. -/
theorem dropEnds_append_of_spanEnd_not_mem (n : Nat) {s : Text} (hs : spanEnd ∉ s) (t : Text) :
    dropEnds n (s ++ t) = s ++ dropEnds n t := by
  induction s with
  | nil => rfl
  | cons c s ih =>
    rw [List.mem_cons, not_or] at hs
    rw [List.cons_append, dropEnds_cons_of_ne (Ne.symm hs.1), ih hs.2, List.cons_append]

theorem dropEnds_nil (n : Nat) : dropEnds n [] = [] := by
  cases n <;> rfl

/-- The first END goes first. -/
theorem dropEnds_succ_append (n : Nat) {s : Text} (hs : spanEnd ∉ s) (t : Text) :
    dropEnds (n + 1) (s ++ spanEnd :: t) = s ++ dropEnds n t := by
  rw [dropEnds_append_of_spanEnd_not_mem _ hs, dropEnds, if_pos rfl]

namespace Matcher

/-! ## Past a text without START, and past a head -/

/-- The matcher stands outside all heads, with `n` characters behind it that belong to none. -/
structure Outside (m : Matcher) (n : Nat) : Prop where
  place : m.place = .outside
  index : m.index = m.headed + n

/-- The matcher behind a text without START. -/
def passAll (m : Matcher) (s : Text) : Matcher :=
  { m with
    index := m.index + s.length
    text := m.text ++ dropEnds m.opened.length s
    opened := m.opened.drop (s.count spanEnd) }

/-- Behind a text without START the matcher is still outside all heads. -/
theorem Outside.passAll {m : Matcher} {n : Nat} (hm : m.Outside n) (s : Text) :
    (m.passAll s).Outside (n + s.length) := by
  refine ⟨hm.place, ?_⟩
  have hindex := hm.index
  simp only [Matcher.passAll]
  omega

theorem place_pass (m : Matcher) (c : Char) : (m.pass c).place = m.place := by
  unfold pass
  split
  · rfl
  · split <;> rfl

/-- One character after the other, or all at once. -/
theorem passAll_pass (m : Matcher) (c : Char) (s : Text) : (m.pass c).passAll s = m.passAll (c :: s) := by
  have hindex : m.index + 1 + s.length = m.index + (c :: s).length := by
    rw [List.length_cons]
    omega
  unfold pass
  split
  · rename_i hopened
    simp only [passAll, hopened, hindex, List.drop_nil, List.length_nil, dropEnds, List.append_assoc,
      List.singleton_append]
  · rename_i name enclosing hopened
    by_cases hc : c = spanEnd
    · simp only [passAll, hopened, hindex, hc, ↓reduceIte, List.count_cons_self, List.drop_succ_cons,
        List.length_cons, dropEnds]
    · simp only [passAll, hopened, hindex, if_neg hc, List.count_cons_of_ne hc, dropEnds_cons_of_ne hc,
        List.append_assoc, List.singleton_append]

/-- A text without START is passed: each END closes a span as long as one is open. -/
theorem foldlM_step_of_spanStart_not_mem {m : Matcher} (hm : m.place = .outside) {s : Text}
    (hs : spanStart ∉ s) : s.foldlM step m = .ok (m.passAll s) := by
  induction s generalizing m with
  | nil =>
    have hnil : m.passAll [] = m := by
      simp only [passAll, dropEnds_nil, List.append_nil, List.length_nil, List.count_nil, List.drop_zero,
        Nat.add_zero]
    rw [hnil]
    rfl
  | cons c s ih =>
    rw [List.mem_cons, not_or] at hs
    have hstep : m.step c = .ok (m.pass c) := by
      simp only [step, hm, if_neg (Ne.symm hs.1)]
    rw [List.foldlM_cons, hstep, ← passAll_pass]
    exact ih ((place_pass m c).trans hm) hs.2

/-- The matcher in the head of the START in front of which it stands, behind the characters `name`. -/
def naming (m : Matcher) (name : Text) : Matcher :=
  { m with index := m.index + (name.length + 2), place := .naming m.index name }

/-- The matcher behind the head of the START in front of which it stands. -/
def enter (m : Matcher) (name : Name) : Matcher :=
  ⟨m.index + (name.toList.length + 3), m.headed + (name.toList.length + 3), m.text, name :: m.names,
    name :: m.opened, .outside⟩

/-- The characters of a head are counted both in the index and as headed. -/
theorem Outside.enter {m : Matcher} {n : Nat} (hm : m.Outside n) (name : Name) :
    (m.enter name).Outside n := by
  refine ⟨rfl, ?_⟩
  have hindex := hm.index
  simp only [Matcher.enter]
  omega

/-- A head ends with the first `]`. -/
theorem outcome_naming (m : Matcher) (name s : Text) :
    (m.naming name).outcome s =
      match Text.cut ']' s with
      | none => .error (.nameNotClosed (m.index - m.headed))
      | some (rest, content) => (m.enter (String.ofList (name ++ rest))).outcome content := by
  induction s generalizing name with
  | nil => rfl
  | cons c s ih =>
    rw [outcome_cons, Text.cut]
    by_cases hc : c = ']'
    · have hstep : (m.naming name).step c = .ok (m.enter (String.ofList name)) := by
        simp only [step, naming, enter, if_pos hc, String.toList_ofList]
        congr 2
        omega
      rw [hstep, if_pos hc]
      simp only [List.append_nil]
      rfl
    · have hstep : (m.naming name).step c = .ok (m.naming (name ++ [c])) := by
        simp only [step, naming, if_neg hc, List.length_append, List.length_singleton]
        congr 2
      rw [hstep, if_neg hc]
      refine (ih (name ++ [c])).trans ?_
      cases Text.cut ']' s with
      | none => rfl
      | some parts => simp only [Option.map_some, List.append_assoc, List.singleton_append]

/-- A START is gone past with its head, and without one it is refused. -/
theorem outcome_spanStart {m : Matcher} {n : Nat} (hm : m.Outside n) (s : Text) :
    m.outcome (spanStart :: s) =
      match readHead n s with
      | .error e => .error e
      | .ok (name, content) => (m.enter name).outcome content := by
  obtain ⟨hplace, hindex⟩ := hm
  have hposition : m.index - m.headed = n := by omega
  have hstep : m.step spanStart = .ok { m with index := m.index + 1, place := .opening m.index } := by
    simp only [step, hplace, ↓reduceIte]
  rw [outcome_cons, hstep, ← hposition]
  cases s with
  | nil => rfl
  | cons c s =>
    by_cases hc : c = '['
    · -- behind `[` the name begins
      rw [hc]
      refine (outcome_naming m [] s).trans ?_
      simp only [readHead, List.nil_append]
      cases Text.cut ']' s <;> rfl
    · have hhead : readHead (m.index - m.headed) (c :: s) = .error (.nameNotOpened (m.index - m.headed)) := by
        simp [readHead, hc]
      rw [hhead]
      simp only [bind, Except.bind, outcome_cons, step, if_neg hc]

/-- The first START of a text is gone past with its head, and without one it is refused. -/
theorem outcome_append_spanStart {m : Matcher} {n : Nat} (hm : m.Outside n) {plain : Text}
    (hplain : spanStart ∉ plain) (opened : Text) :
    m.outcome (plain ++ spanStart :: opened) =
      match readHead (n + plain.length) opened with
      | .error e => .error e
      | .ok (name, content) => ((m.passAll plain).enter name).outcome content := by
  rw [outcome_append (foldlM_step_of_spanStart_not_mem hm.place hplain),
    outcome_spanStart (hm.passAll plain)]

/-! ## Matching and stripping -/

/-- A matcher refuses what cannot be stripped. What can be stripped takes as many names off its stack as ENDs are
left in it, and these ENDs close the spans of the names. The others stay. -/
theorem outcome_eq {m : Matcher} {before rest : Text} (hm : m.Outside before.length) :
    m.outcome rest =
      match extract before rest with
      | .error e => .error e
      | .ok (stripped, entities) =>
        settle (m.opened.drop (stripped.count spanEnd)) (m.text ++ dropEnds m.opened.length stripped)
          (entities.map Entity.name ++ m.names) := by
  fun_induction extract before rest generalizing m with
  | case1 before rest hcut =>
    have hend := outcome_append
      (foldlM_step_of_spanStart_not_mem hm.place (Text.cut_eq_none_iff.1 hcut)) []
    rw [List.append_nil, outcome_nil, finish, (hm.passAll rest).place] at hend
    exact hend
  | case2 before rest plain opened hcut e hhead =>
    obtain ⟨rfl, hplain⟩ := Text.cut_eq_some_iff.1 hcut
    rw [List.length_append] at hhead
    rw [outcome_append_spanStart hm hplain, hhead]
  | case3 before rest plain opened hcut name content hhead e hinner ih =>
    obtain ⟨rfl, hplain⟩ := Text.cut_eq_some_iff.1 hcut
    rw [List.length_append] at hhead ih
    rw [outcome_append_spanStart hm hplain, hhead]
    simp only
    rw [ih ((hm.passAll plain).enter name), hinner]
  | case4 before rest plain opened hcut name content hhead stripped entities hinner hend ih =>
    obtain ⟨rfl, hplain⟩ := Text.cut_eq_some_iff.1 hcut
    rw [List.length_append] at hhead ih
    rw [outcome_append_spanStart hm hplain, hhead]
    simp only
    -- no END is left for the head, so its name is still on the stack
    have hcount : stripped.count spanEnd = 0 := List.count_eq_zero.2 (Text.cut_eq_none_iff.1 hend)
    rw [ih ((hm.passAll plain).enter name), hinner]
    simp only [hcount, List.drop_zero]
    rfl
  | case5 before rest plain opened hcut name content hhead stripped entities hinner text tail hend start =>
    rename_i ih
    obtain ⟨rfl, hplain⟩ := Text.cut_eq_some_iff.1 hcut
    obtain ⟨rfl, htext⟩ := Text.cut_eq_some_iff.1 hend
    rw [List.length_append] at hhead ih
    rw [outcome_append_spanStart hm hplain, hhead]
    simp only
    -- the first END left takes the name of the head, and the others go on to the names below it
    have hcount : (text ++ spanEnd :: tail).count spanEnd = tail.count spanEnd + 1 := by
      rw [List.count_append, List.count_eq_zero.2 htext, List.count_cons_self, Nat.zero_add]
    have hcount' : (plain ++ (text ++ tail)).count spanEnd
        = plain.count spanEnd + tail.count spanEnd := by
      rw [List.count_append, List.count_append, List.count_eq_zero.2 htext, Nat.zero_add]
    have hdrop : dropEnds m.opened.length (plain ++ (text ++ tail))
        = dropEnds m.opened.length plain
          ++ (text ++ dropEnds (m.opened.length - plain.count spanEnd) tail) := by
      rw [dropEnds_append, dropEnds_append_of_spanEnd_not_mem _ htext]
    rw [ih ((hm.passAll plain).enter name), hinner]
    simp only [List.append_assoc, hcount, hcount', hdrop, enter, passAll, List.drop_succ_cons,
      List.drop_drop, List.length_cons, List.length_drop, dropEnds_succ_append _ htext, List.map_append,
      List.map_cons, List.map_nil, List.singleton_append]

end Matcher

/-- **Decoding accepts and refuses as one bracket match from left to right does.** Where the match leaves no span
open, decoding returns the text that it leaves, and one entity for each head, the last one first. Where the match
refuses the text, at its first bad head or for the last opened of the spans that are left open, decoding fails
with the same error. -/
theorem decode_eq_outcome (s : Text) :
    (decode s).map (fun u => (u.text, u.entities.map Entity.name)) = Matcher.start.outcome s := by
  have hstart : Matcher.start.Outside ([] : Text).length := ⟨rfl, rfl⟩
  rw [Matcher.outcome_eq hstart, decode]
  cases extract [] s with
  | error e => rfl
  | ok parts =>
    obtain ⟨stripped, entities⟩ := parts
    simp [Except.map, Matcher.settle, Matcher.start, dropEnds]

-- sentinels in a name, an END that closes nothing, a span that is left open
example :
    Matcher.start.outcome ("a\u001f\u001e[A\u001e\u001f]b\u001fc".toList)
        = .ok ("a\u001fbc".toList, ["A\u001e\u001f"]) ∧
      Matcher.start.outcome ("\u001e[A]\u001e[B]x\u001f".toList) = .error (.entityNotEnded "A") ∧
      Matcher.start.outcome ("\u001e[A]x\u001ey".toList) = .error (.nameNotOpened 1) := by
  decide +kernel

end Markup

end UtteranceGrammar
