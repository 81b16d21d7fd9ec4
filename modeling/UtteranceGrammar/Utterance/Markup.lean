/-
Marked text: entity spans written into the text itself.

A span is written as START, a head, its content and END, where START and END are two control
characters and the head is the entity's name in square brackets. Spans nest, and a text with spans
may be joined to another without a look at either, which is what makes the marks useful while texts
are being put together. `decode` takes the marks out again and says where each span lies.

Decoding goes outside in for the heads and inside out for the ends. `extract` strips the first head
that it meets, then strips everything behind it, and only then looks for the END of its own span:
by that time every span opened later has lost its END, so the next one left is the right one. Two
consequences can be seen from outside. A span is listed after all spans that open behind it, nested
or not. And an END that closes nothing stays in the text, where offsets do not count it.
-/
import UtteranceGrammar.Utterance.Basic

set_option autoImplicit false

namespace UtteranceGrammar

/-- Why a marked text cannot be decoded. Positions count the characters left once the heads before
the faulty one are stripped. -/
inductive MarkupError where
  /-- A START without `[` right behind it. -/
  | nameNotOpened (position : Nat)
  /-- A head without its `]`. -/
  | nameNotClosed (position : Nat)
  /-- A span without its END. -/
  | entityNotEnded (name : Name)
deriving DecidableEq, Repr

/-- The wording of a markup error. -/
def MarkupError.message : MarkupError → String
  | .nameNotOpened position => s!"malformed entity markup at {position}: expected '['"
  | .nameNotClosed position => s!"malformed entity markup at {position}: expected ']'"
  | .entityNotEnded name => s!"malformed entity markup: entity '{name}' has no end marker"

namespace Markup

/-- START, the character that opens an entity span. -/
def spanStart : Char := '\u001e'

/-- END, the character that closes an entity span. -/
def spanEnd : Char := '\u001f'

/-- Whether a character is one of the two marks. -/
def isMark (c : Char) : Bool := c == spanStart || c == spanEnd

/-- A text as the content of a span. -/
def wrap (name : Name) (text : Text) : Text :=
  spanStart :: '[' :: (name.toList ++ ']' :: (text ++ [spanEnd]))

/-- The number of characters that are no END. -/
def plainLength (s : Text) : Nat := s.countP (· != spanEnd)

/-- Reads the head that a START at `position` has to have right behind it: the name in its brackets,
and what follows. -/
def readHead (position : Nat) : Text → Except MarkupError (Name × Text)
  | '[' :: s =>
    match Text.cut ']' s with
    | some (name, content) => .ok (String.ofList name, content)
    | none => .error (.nameNotClosed position)
  | _ => .error (.nameNotOpened position)

/-- A head is a name in brackets, and the name is all up to the first closing one. -/
theorem readHead_eq_ok_iff {position : Nat} {s content : Text} {name : Name} :
    readHead position s = .ok (name, content) ↔
      s = '[' :: (name.toList ++ ']' :: content) ∧ ']' ∉ name.toList := by
  unfold readHead
  split
  · rename_i s
    simp only [List.cons.injEq, true_and, ← Text.cut_eq_some_iff]
    cases h : Text.cut ']' s with
    | none => simp
    | some p =>
      simp only [Except.ok.injEq, Option.some.injEq, Prod.ext_iff]
      constructor
      · rintro ⟨rfl, rfl⟩
        simp
      · rintro ⟨h, rfl⟩
        simp [h]
  · rename_i h
    simp only [reduceCtorEq, false_iff, not_and]
    rintro rfl
    exact absurd rfl (h _)

/-- What follows a head is shorter than what it was read from. -/
theorem length_lt_of_readHead {position : Nat} {s content : Text} {name : Name}
    (h : readHead position s = .ok (name, content)) : content.length < s.length := by
  rw [(readHead_eq_ok_iff.1 h).1]
  simp only [List.length_append, List.length_cons]
  omega

/-- Strips the heads in `rest`, and one END for each, and lists the spans, those that open last
first. What stands before `rest` stays as it is; it only fixes positions and offsets. -/
def extract (before rest : Text) : Except MarkupError (Text × List Entity) :=
  match _hcut : Text.cut spanStart rest with
  | none => .ok (rest, [])
  | some (plain, opened) =>
    match _hhead : readHead (before ++ plain).length opened with
    | .error e => .error e
    | .ok (name, content) =>
      match extract (before ++ plain) content with
      | .error e => .error e
      | .ok (stripped, entities) =>
        -- every span opened later has lost its END by now
        match Text.cut spanEnd stripped with
        | none => .error (.entityNotEnded name)
        | some (text, tail) =>
          let start := plainLength (before ++ plain)
          .ok (plain ++ text ++ tail, entities ++ [⟨name, text, start, start + text.length⟩])
termination_by rest.length
decreasing_by exact Nat.lt_trans (length_lt_of_readHead _hhead) (Text.length_lt_of_cut _hcut)

/-- The utterance that a marked text stands for. -/
def decode (marked : Text) : Except MarkupError Utterance :=
  (extract [] marked).map fun (text, entities) => ⟨text, entities⟩

end Markup

end UtteranceGrammar
