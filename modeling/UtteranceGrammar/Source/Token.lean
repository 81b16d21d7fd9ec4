/-
The tokens of a written grammar.

A name is a letter or underscore followed by letters, digits, underscores and dots, all of them
ASCII. A tuple is a list of literal texts in square brackets. A kind word is `entity` or `intent` in
letters of any case, and it is one only if white space stands behind it: of that white space the four
characters that a typewriter knows, space, tabulator, carriage return and line feed, and nothing
else, not even a comment. Everything else is a single character.

Each reader here takes one token off the front of a text and returns what follows it, which is
shorter than the text. Readers that end in `?` answer `none` if the token is not there.
-/
import UtteranceGrammar.Rule
import UtteranceGrammar.Source.Failure
import UtteranceGrammar.Source.Layout
import UtteranceGrammar.Utterance.Markup

set_option autoImplicit false

namespace UtteranceGrammar

namespace Token

/-! ## Single characters -/

/-- What follows the character `c`, past the layout in front of it. -/
def char? (c : Char) (s : Text) : Option Text :=
  match Layout.skip s with
  | [] => none
  | d :: r => if d = c then some r else none

theorem char?_eq_some_iff {c : Char} {s r : Text} :
    char? c s = some r ↔ Layout.skip s = c :: r := by
  unfold char?
  cases h : Layout.skip s with
  | nil => simp
  | cons d t => by_cases hd : d = c <;> simp [hd]

theorem length_lt_of_char? {c : Char} {s r : Text} (h : char? c s = some r) :
    r.length < s.length := by
  have := Layout.length_skip_le s
  rw [char?_eq_some_iff.1 h] at this
  exact this

/-- Whether a question mark comes next, past layout, and what follows it if so. Without one the text
is left as it is, layout included. -/
def questionMark (s : Text) : Bool × Text :=
  match char? '?' s with
  | some r => (true, r)
  | none => (false, s)

theorem length_questionMark_le (s : Text) : (questionMark s).2.length ≤ s.length := by
  unfold questionMark
  split
  · exact Nat.le_of_lt (length_lt_of_char? (by assumption))
  · exact Nat.le_refl _

/-! ## Names -/

/-- The characters that a name may start with. -/
def startsName (c : Char) : Bool := c.isAlpha || c == '_'

/-- The characters that a name may go on with. -/
def continuesName (c : Char) : Bool := c.isAlphanum || c == '_' || c == '.'

/-- The name at the front of a text. -/
def name? : Text → Option (Name × Text)
  | [] => none
  | c :: s =>
    if startsName c then
      some (String.ofList (c :: s.takeWhile continuesName), s.dropWhile continuesName)
    else none

theorem length_lt_of_name? {s r : Text} {id : Name} (h : name? s = some (id, r)) :
    r.length < s.length := by
  cases s with
  | nil => simp [name?] at h
  | cons c s =>
    simp only [name?] at h
    split at h
    · simp only [Option.some.injEq, Prod.mk.injEq] at h
      obtain ⟨-, rfl⟩ := h
      exact Nat.lt_succ_of_le (List.dropWhile_sublist _).length_le
    · simp at h

/-! ## Kind words -/

/-- What follows a word, which is given in lower case and found in any. -/
def word? : Text → Text → Option Text
  | [], s => some s
  | _ :: _, [] => none
  | w :: ws, c :: s => if c.toLower = w then word? ws s else none

/-- The characters that part a kind word from the name behind it. -/
def partsKindWord (c : Char) : Bool := c == ' ' || c == '\t' || c == '\r' || c == '\n'

/-- What follows a word and the white space that has to stand behind it. -/
def partedWord? (word s : Text) : Option Text :=
  match word? word s with
  | some (c :: r) => if partsKindWord c then some (r.dropWhile partsKindWord) else none
  | _ => none

/-- The kind that a rule starts with, and what follows its word; a rule that starts with no kind word
is plain. -/
def kind (s : Text) : RuleKind × Text :=
  match partedWord? "entity".toList s with
  | some r => (.entity, r)
  | none =>
    match partedWord? "intent".toList s with
    | some r => (.intent, r)
    | none => (.plain, s)

theorem length_le_of_word? {w s r : Text} (h : word? w s = some r) : r.length ≤ s.length := by
  induction w generalizing s with
  | nil => simp_all [word?]
  | cons c w ih =>
    cases s with
    | nil => simp [word?] at h
    | cons d s =>
      simp only [word?] at h
      split at h
      · exact Nat.le_succ_of_le (ih h)
      · simp at h

theorem length_le_of_partedWord? {w s r : Text} (h : partedWord? w s = some r) :
    r.length ≤ s.length := by
  unfold partedWord? at h
  split at h
  · rename_i c t ht
    split at h
    · simp only [Option.some.injEq] at h
      subst h
      have h₁ := length_le_of_word? ht
      have h₂ := (List.dropWhile_sublist partsKindWord (l := t)).length_le
      simp only [List.length_cons] at h₁
      omega
    · simp at h
  · simp at h

theorem length_kind_le (s : Text) : (kind s).2.length ≤ s.length := by
  unfold kind
  split
  · exact length_le_of_partedWord? (by assumption)
  · split
    · exact length_le_of_partedWord? (by assumption)
    · exact Nat.le_refl _

/-! ## Tuples -/

/-- The characters that may stand in a tuple. -/
def inTuple (c : Char) : Bool := c != ']' && !Markup.isMark c

/-- The literal texts that a tuple's content lists: the pieces between its commas, trimmed, those
left out of which nothing remains. -/
def tupleItems (content : Text) : List Text := Text.words (· == ',') content

/-- Reads a tuple, once its opening bracket is read. A tuple that lists nothing fails too, but only
behind its closing bracket. -/
def tuple (s : Text) : Except Failure (List Text × Text) :=
  match s.dropWhile inTuple with
  | [] => .error ⟨[], [.character ']']⟩
  | c :: rest =>
    if c = ']' then
      let items := tupleItems (s.takeWhile inTuple)
      if items.isEmpty then .error ⟨rest, []⟩ else .ok (items, rest)
    else .error ⟨c :: rest, [.character ']']⟩

theorem length_lt_of_tuple {s r : Text} {items : List Text} (h : tuple s = .ok (items, r)) :
    r.length < s.length := by
  have hle := (List.dropWhile_sublist inTuple (l := s)).length_le
  unfold tuple at h
  split at h
  · simp at h
  · rename_i c rest hs
    rw [hs] at hle
    split at h
    · simp only at h
      split at h
      · simp at h
      · simp only [Except.ok.injEq, Prod.mk.injEq] at h
        rw [← h.2]
        exact hle
    · simp at h

end Token

end UtteranceGrammar
