/-
Decoding in place.

`extract` is given what stands in front of a text and the text itself, and it returns what is left. The same can be
done in one buffer with a cursor: heads and ENDs are taken out where they stand, and characters are reached by
index. Then every step can go wrong on its own, as `start` and the end of the head are computed before the rest of
the buffer is stripped, and the END is looked for after that. So each access is checked here, and `none` stands for
one that is out of range, or for a difference below zero.

It never happens (`Buffer.extract_append`): whatever stripping takes out stands behind the head that has been taken
out before, so what is in front of `start` is still there, and `start` is still an index of the buffer. An END
found from there on is in range, and of the characters in front of `start` no more than `start` can be ENDs.
-/
import UtteranceGrammar.Proofs.Markup.Nesting

set_option autoImplicit false

namespace UtteranceGrammar

namespace Text

/-! ## Checked access by index -/

/-- The index of the first `c` at `start` or after it. -/
def find? (c : Char) (start : Nat) (s : Text) : Option Nat :=
  ((s.drop start).idxOf? c).map (start + ·)

/-- The characters from the index `start` on, up to but without the one at `stop`. -/
def slice? (start stop : Nat) (s : Text) : Option Text :=
  if start ≤ stop ∧ stop ≤ s.length then some ((s.drop start).take (stop - start)) else none

/-- A text without the characters from the index `first` to the index `last`. -/
def drain? (first last : Nat) (s : Text) : Option { t : Text // t.length < s.length } :=
  if h : first ≤ last ∧ last < s.length then
    some ⟨s.take first ++ s.drop (last + 1), by
      rw [List.length_append, List.length_take, List.length_drop]
      omega⟩
  else none

/-- A text without the character at the index `i`. -/
def remove? (i : Nat) (s : Text) : Option Text := if i < s.length then some (s.eraseIdx i) else none

/-- The first index of a character is the length of what is cut off in front of it. -/
theorem idxOf?_eq_map_cut (c : Char) (s : Text) : s.idxOf? c = (cut c s).map (·.1.length) := by
  induction s with
  | nil => rfl
  | cons d s ih =>
    rw [List.idxOf?_cons, cut, ih]
    by_cases h : d = c
    · rw [if_pos h, if_pos (beq_iff_eq.2 h)]
      rfl
    · rw [if_neg h, if_neg (mt beq_iff_eq.1 h), Option.map_map, Option.map_map]
      rfl

/-- To find a character behind a text is to cut there. -/
theorem find?_append (c : Char) (a b : Text) :
    find? c a.length (a ++ b) = (cut c b).map fun p => a.length + p.1.length := by
  rw [find?, List.drop_left, idxOf?_eq_map_cut, Option.map_map]
  rfl

/-- A slice whose ends lie in the text is there. -/
theorem slice?_eq_some {start stop : Nat} {s a b c : Text} (hs : s = a ++ (b ++ c))
    (hstart : start = a.length) (hstop : stop = start + b.length) : slice? start stop s = some b := by
  have hrange : start ≤ stop ∧ stop ≤ s.length := by
    rw [hs, List.length_append, List.length_append]
    omega
  have hlength : stop - start = b.length := by omega
  rw [slice?, if_pos hrange, hlength, hs, hstart, List.drop_left, List.take_left]

/-- A stretch of a text can be taken out of it. -/
theorem drain?_eq_some {first last : Nat} {s a b c : Text} (hs : s = a ++ (b ++ c))
    (hfirst : first = a.length) (hle : first ≤ last) (hlast : last + 1 = first + b.length) :
    ∃ h, drain? first last s = some ⟨a ++ c, h⟩ := by
  have hrange : first ≤ last ∧ last < s.length := by
    rw [hs, List.length_append, List.length_append]
    omega
  have hdrop : last + 1 = (a ++ b).length := by
    rw [List.length_append, ← hfirst, hlast]
  have hleft : s.take first ++ s.drop (last + 1) = a ++ c := by
    rw [hdrop, hs, hfirst, List.take_left, ← List.append_assoc, List.drop_left]
  refine ⟨?_, ?_⟩
  · rw [hs, List.length_append, List.length_append, List.length_append]
    omega
  · rw [drain?, dif_pos hrange]
    simp only [hleft]

/-- A character of a text can be taken out of it. -/
theorem remove?_eq_some {i : Nat} {s a b : Text} {c : Char} (hs : s = a ++ c :: b) (hi : i = a.length) :
    remove? i s = some (a ++ b) := by
  have hrange : i < s.length := by
    rw [hs, List.length_append, List.length_cons]
    omega
  rw [remove?, if_pos hrange, hs, hi, List.eraseIdx_append_of_length_le (Nat.le_refl _), Nat.sub_self,
    List.eraseIdx_cons_zero]

end Text

namespace Markup

/-! ## The buffer -/

/-- A marked text while it is decoded in place, and the entities found in it so far. -/
structure Buffer where
  chars : Text
  entities : List Entity
deriving DecidableEq, Repr

/-- A difference that is not below zero. -/
def sub? (m n : Nat) : Option Nat := if n ≤ m then some (m - n) else none

namespace Buffer

/-- Takes the head of the START at `start` out of a text, the START included. -/
def takeHead (start : Nat) (s : Text) :
    Option (Except MarkupError (Name × { t : Text // t.length < s.length })) :=
  if s[start + 1]? = some '[' then
    match Text.find? ']' (start + 2) s with
    | none => some (.error (.nameNotClosed start))
    | some close => do
      let name ← Text.slice? (start + 2) close s
      let rest ← Text.drain? start close s
      some (.ok (String.ofList name, rest))
  else some (.error (.nameNotOpened start))

/-- Takes the first END at `start` or behind it out of the buffer, and enters the span that it closes. -/
def endSpan (name : Name) (start : Nat) (b : Buffer) : Option (Except MarkupError Unit × Buffer) :=
  match Text.find? spanEnd start b.chars with
  | none => some (.error (.entityNotEnded name), b)
  | some stop => do
    let text ← Text.slice? start stop b.chars
    let chars ← Text.remove? stop b.chars
    -- the ENDs in front close spans that have been opened before
    let pending := (← Text.slice? 0 start chars).count spanEnd
    let first ← sub? start pending
    let last ← sub? stop pending
    some (.ok (), ⟨chars, b.entities ++ [⟨name, text, first, last⟩]⟩)

/-- Strips the heads at or behind the cursor, and one END for each. The buffer is returned as it is by then, also
if that fails. -/
def extract (cursor : Nat) (b : Buffer) : Option (Except MarkupError Unit × Buffer) :=
  match Text.find? spanStart cursor b.chars with
  | none => some (.ok (), b)
  | some start => do
    match ← takeHead start b.chars with
    | .error e => some (.error e, b)
    | .ok (name, ⟨chars, _⟩) =>
      let (result, b) ← extract start ⟨chars, b.entities⟩
      match result with
      | .error e => some (.error e, b)
      | .ok () => endSpan name start b
termination_by b.chars.length

/-! ## What the steps do -/

/-- What the START is followed by. -/
theorem getElem?_behind (before opened : Text) :
    (before ++ spanStart :: opened)[before.length + 1]? = opened[0]? := by
  rw [List.getElem?_append_right (Nat.le_add_right _ _), Nat.add_sub_cancel_left,
    List.getElem?_cons_succ]

/-- The closing bracket of a head is looked for behind its opening one. -/
theorem find?_close (before s : Text) :
    Text.find? ']' (before.length + 2) (before ++ spanStart :: '[' :: s) =
      (Text.cut ']' s).map fun p => before.length + 2 + p.1.length := by
  have h := Text.find?_append ']' (before ++ [spanStart, '[']) s
  rwa [List.append_assoc, List.length_append] at h

/-- Where no head can be read, none is taken. -/
theorem takeHead_of_error {before opened : Text} {e : MarkupError}
    (h : readHead before.length opened = .error e) :
    takeHead before.length (before ++ spanStart :: opened) = some (.error e) := by
  rw [takeHead, getElem?_behind]
  unfold readHead at h
  split at h
  · rename_i s
    cases hcut : Text.cut ']' s with
    | some p =>
      rw [hcut] at h
      cases h
    | none =>
      rw [hcut] at h
      obtain rfl := Except.error.inj h
      rw [List.getElem?_cons_zero, if_pos rfl, find?_close, hcut]
      rfl
  · rename_i hopened
    obtain rfl := Except.error.inj h
    rw [if_neg]
    intro hhead
    cases opened with
    | nil => cases hhead
    | cons c s => exact hopened s (congrArg (· :: s) (Option.some.inj hhead))

/-- A head that can be read is taken out, and nothing else is. -/
theorem takeHead_of_ok {before opened content : Text} {name : Name}
    (h : readHead before.length opened = .ok (name, content)) :
    ∃ hlt, takeHead before.length (before ++ spanStart :: opened)
      = some (.ok (name, ⟨before ++ content, hlt⟩)) := by
  obtain ⟨rfl, hname⟩ := readHead_eq_ok_iff.1 h
  have hcut : Text.cut ']' (name.toList ++ ']' :: content) = some (name.toList, content) :=
    Text.cut_eq_some_iff.2 ⟨rfl, hname⟩
  -- the name stands between the brackets, and the head goes from the START to the closing bracket
  have hslice : Text.slice? (before.length + 2) (before.length + 2 + name.toList.length)
      (before ++ spanStart :: '[' :: (name.toList ++ ']' :: content)) = some name.toList := by
    apply Text.slice?_eq_some (a := before ++ [spanStart, '[']) (c := ']' :: content)
    · rw [List.append_assoc, List.cons_append, List.cons_append, List.nil_append]
    · rw [List.length_append]
      rfl
    · rfl
  obtain ⟨hlt, hdrain⟩ : ∃ hlt, Text.drain? before.length (before.length + 2 + name.toList.length)
      (before ++ spanStart :: '[' :: (name.toList ++ ']' :: content)) = some ⟨before ++ content, hlt⟩ := by
    apply Text.drain?_eq_some (b := spanStart :: '[' :: (name.toList ++ [']']))
    · simp only [List.append_assoc, List.cons_append, List.nil_append]
    · rfl
    · omega
    · simp only [List.length_append, List.length_cons, List.length_nil]
      omega
  refine ⟨hlt, ?_⟩
  rw [takeHead, getElem?_behind, List.getElem?_cons_zero, if_pos rfl, find?_close, hcut]
  simp only [Option.map_some, hslice, hdrain, bind, Option.bind_some, String.ofList_toList]

/-- Every character is an END or counted as plain. -/
theorem count_spanEnd_add_plainLength (s : Text) : s.count spanEnd + plainLength s = s.length := by
  rw [List.length_eq_countP_add_countP (· == spanEnd), List.count, plainLength]
  congr 2
  funext c
  rw [bne, decide_not, Bool.decide_eq_true]

/-- The span that was opened last ends at the first END behind the cursor. The differences of offset and ENDs never
fall below zero, for the ENDs in front of the cursor are among the characters there. -/
theorem endSpan_append (name : Name) (before left : Text) (entities : List Entity) :
    endSpan name before.length ⟨before ++ left, entities⟩ =
      match Text.cut spanEnd left with
      | none => some (.error (.entityNotEnded name), ⟨before ++ left, entities⟩)
      | some (text, tail) =>
        some (.ok (), ⟨before ++ (text ++ tail), entities ++ [⟨name, text, plainLength before,
          plainLength before + text.length⟩]⟩) := by
  rw [endSpan, Text.find?_append]
  cases hcut : Text.cut spanEnd left with
  | none => rfl
  | some p =>
    obtain ⟨text, tail⟩ := p
    obtain ⟨rfl, htext⟩ := Text.cut_eq_some_iff.1 hcut
    have htext : Text.slice? before.length (before.length + text.length)
        (before ++ (text ++ spanEnd :: tail)) = some text := Text.slice?_eq_some rfl rfl rfl
    have hremove : Text.remove? (before.length + text.length) (before ++ (text ++ spanEnd :: tail))
        = some (before ++ (text ++ tail)) := by
      rw [← List.append_assoc, ← List.append_assoc]
      exact Text.remove?_eq_some rfl List.length_append.symm
    have hfront : Text.slice? 0 before.length (before ++ (text ++ tail)) = some before :=
      Text.slice?_eq_some (a := []) rfl rfl (Nat.zero_add _).symm
    -- no more ENDs stand in front than characters do
    have hcount := count_spanEnd_add_plainLength before
    have hfirst : sub? before.length (before.count spanEnd) = some (plainLength before) := by
      rw [sub?, if_pos (by omega), ← hcount, Nat.add_sub_cancel_left]
    have hlast : sub? (before.length + text.length) (before.count spanEnd)
        = some (plainLength before + text.length) := by
      rw [sub?, if_pos (by omega), ← hcount, Nat.add_assoc, Nat.add_sub_cancel_left]
    simp only [Option.map_some, htext, hremove, hfront, hfirst, hlast, bind, Option.bind_some]

/-! ## What a run does -/

/-- Stripping a buffer from the end of a text on: no access fails, the text stays in front, and what is left behind
it and what is found is what stripping leaves and finds. -/
theorem extract_append (before rest : Text) (entities : List Entity) :
    ∃ result left found, extract before.length ⟨before ++ rest, entities⟩
        = some (result, ⟨before ++ left, entities ++ found⟩) ∧
      Markup.extract before rest = result.map fun _ => (left, found) := by
  induction hn : rest.length using Nat.strongRecOn generalizing before rest entities with
  | _ n ih =>
    have hfind := Text.find?_append spanStart before rest
    rw [extract_eq]
    cases hcut : Text.cut spanStart rest with
    | none =>
      rw [hcut] at hfind
      refine ⟨.ok (), rest, [], ?_, rfl⟩
      rw [extract, hfind, List.append_nil]
      rfl
    | some p =>
      obtain ⟨plain, opened⟩ := p
      obtain ⟨rfl, -⟩ := Text.cut_eq_some_iff.1 hcut
      rw [hcut, Option.map_some, ← List.length_append] at hfind
      rw [← List.append_assoc] at hfind ⊢
      rw [extract, hfind]
      cases hhead : readHead (before ++ plain).length opened with
      | error e =>
        refine ⟨.error e, plain ++ spanStart :: opened, [], ?_, ?_⟩
        · rw [List.append_nil, ← List.append_assoc]
          simp only [takeHead_of_error hhead, bind, Option.bind_some]
        · simp only [hhead]
          rfl
      | ok head =>
        obtain ⟨name, content⟩ := head
        obtain ⟨hlt, htake⟩ := takeHead_of_ok hhead
        have hshorter : content.length < n := by
          have hcontent := length_lt_of_readHead hhead
          rw [← hn, List.length_append, List.length_cons]
          omega
        -- what is stripped next stands behind `plain`
        obtain ⟨result, left, found, hrun, hmodel⟩ := ih _ hshorter (before ++ plain) content entities rfl
        simp only [htake, hrun, hhead, hmodel, bind, Option.bind_some]
        cases result with
        | error e => exact ⟨.error e, plain ++ left, found, by rw [← List.append_assoc], rfl⟩
        | ok _ =>
          simp only [Except.map, endSpan_append]
          cases hend : Text.cut spanEnd left with
          | none =>
            exact ⟨.error (.entityNotEnded name), plain ++ left, found, by rw [← List.append_assoc], rfl⟩
          | some parts =>
            obtain ⟨text, tail⟩ := parts
            refine ⟨.ok (), plain ++ text ++ tail, _, ?_, rfl⟩
            simp only [List.append_assoc]

/-- The same for a cursor anywhere. Past the end it finds nothing to do. -/
theorem extract_eq_some (cursor : Nat) (b : Buffer) :
    ∃ result after found, extract cursor b = some (result, after) ∧
      after.chars.take cursor = b.chars.take cursor ∧ after.entities = b.entities ++ found ∧
      Markup.extract (b.chars.take cursor) (b.chars.drop cursor)
        = result.map (fun _ => (after.chars.drop cursor, found)) := by
  by_cases hcursor : cursor ≤ b.chars.length
  · have hlength : (b.chars.take cursor).length = cursor := List.length_take_of_le hcursor
    obtain ⟨result, left, found, hrun, hmodel⟩ :=
      extract_append (b.chars.take cursor) (b.chars.drop cursor) b.entities
    rw [hlength, List.take_append_drop] at hrun
    refine ⟨result, _, found, hrun, List.take_left' hlength, rfl, ?_⟩
    rw [hmodel, List.drop_left' hlength]
  · have hdrop : b.chars.drop cursor = [] := List.drop_eq_nil_of_le (by omega)
    have hfind : Text.find? spanStart cursor b.chars = none := by
      rw [Text.find?, hdrop]
      rfl
    refine ⟨.ok (), b, [], ?_, rfl, (List.append_nil _).symm, ?_⟩
    · rw [extract, hfind]
    · rw [hdrop, extract_eq]
      rfl

/-- **Decoding in place goes wrong nowhere.** Wherever the cursor stands, no access is out of range and no
difference is below zero. What stands in front of the cursor stays, also if stripping fails, and entities are only
added. Behind the cursor the buffer comes to what stripping leaves. If that succeeds, no START is left there, and
what stood there was a loose forest, of which the heads are gone, and with each of them its END and nothing else;
and the entities added are the spans of that forest, one for each head. -/
theorem extract_inPlace (cursor : Nat) (b : Buffer) :
    ∃ result after found, extract cursor b = some (result, after) ∧
      after.chars.take cursor = b.chars.take cursor ∧ after.entities = b.entities ++ found ∧
      Markup.extract (b.chars.take cursor) (b.chars.drop cursor)
        = result.map (fun _ => (after.chars.drop cursor, found)) ∧
      (result = .ok () →
        spanStart ∉ after.chars.drop cursor ∧
        ∃ l : Loose, l.render = b.chars.drop cursor ∧ l.text = after.chars.drop cursor ∧
          found = (l.forest.spans (plainLength (b.chars.take cursor))).reverse) := by
  obtain ⟨result, after, found, hrun, htake, hentities, hmodel⟩ := extract_eq_some cursor b
  refine ⟨result, after, found, hrun, htake, hentities, hmodel, ?_⟩
  rintro rfl
  obtain ⟨l, hrender, hleft, hfound⟩ := exists_loose_of_extract hmodel
  exact ⟨hleft ▸ Loose.spanStart_not_mem_text l, l, hrender, hleft, hfound⟩

-- the START in front of the cursor stays, and the END that closes nothing is not counted
example :
    extract 1 ⟨"\u001ea\u001f\u001e[A]b\u001f".toList, []⟩ =
      some (.ok (), ⟨"\u001ea\u001fb".toList, [⟨"A", ['b'], 2, 3⟩]⟩) := by
  decide +kernel

end Buffer

end Markup

end UtteranceGrammar
