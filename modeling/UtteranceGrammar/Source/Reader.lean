/-
Reading patterns, rules and grammars.

One reader for each level, each deciding on the next token alone: an opening parenthesis starts a
group, a bracket a tuple, anything else has to be a name; behind a term a bar asks for another term
of the same alternation, behind an alternation a comma asks for another one of the sequence. So
nothing is ever read twice, and where a reader stops is where the source is at fault.

The three readers of patterns call each other. What makes them end is that every one leaves a shorter
text than it was given; `Reading` carries that fact along with the value, and the recursion goes down
on the length, and from sequence to alternation to term where the length stays. `Term.read`,
`Alternation.read` and `Sequence.read` forget the fact again, and `Term.read_eq`,
`Alternation.read_eq` and `Sequence.read_eq` are their equations: nothing outside this file has to
look at lengths to reason about what is read.
-/
import UtteranceGrammar.Source.Token

set_option autoImplicit false

namespace UtteranceGrammar

/-- A value read off the front of the text `s`, with what follows it. -/
structure Reading (s : Text) (α : Type) where
  value : α
  rest : Text
  shorter : rest.length < s.length

/-- The value and what follows it. -/
def Reading.toProd {s : Text} {α : Type} (r : Reading s α) : α × Text := (r.value, r.rest)

/-- Reads a term that is no group: a tuple or a name, with its mark. -/
def Term.readSimple (s : Text) : Except Failure (Term × Text) :=
  match Token.char? '[' s with
  | some inside =>
    match Token.tuple inside with
    | .error f => .error (f.within [.term])
    | .ok (items, rest) =>
      .ok (.literals items (Token.questionMark rest).1, (Token.questionMark rest).2)
  | none =>
    match Token.name? (Layout.skip s) with
    | none => .error ⟨Layout.skip s, [.term]⟩
    | some (id, rest) =>
      .ok (.reference id (Token.questionMark rest).1, (Token.questionMark rest).2)

theorem Term.length_lt_of_readSimple {s r : Text} {t : Term}
    (h : Term.readSimple s = .ok (t, r)) : r.length < s.length := by
  unfold Term.readSimple at h
  split at h
  · rename_i inside hs
    split at h
    · simp at h
    · rename_i items rest ht
      simp only [Except.ok.injEq, Prod.mk.injEq] at h
      have h₁ := Token.length_lt_of_char? hs
      have h₂ := Token.length_lt_of_tuple ht
      have h₃ := Token.length_questionMark_le rest
      rw [h.2] at h₃
      omega
  · split at h
    · simp at h
    · rename_i id rest hn
      simp only [Except.ok.injEq, Prod.mk.injEq] at h
      have h₁ := Layout.length_skip_le s
      have h₂ := Token.length_lt_of_name? hn
      have h₃ := Token.length_questionMark_le rest
      rw [h.2] at h₃
      omega

mutual

/-- Reads a term off the front of a text. -/
def Term.reading (s : Text) : Except Failure (Reading s Term) :=
  match _hopen : Token.char? '(' s with
  | some inside =>
    -- past the parenthesis the text is shorter, so a sequence may be read again
    have := Token.length_lt_of_char? _hopen
    match Sequence.reading inside with
    | .error f => .error (f.within [.character ')', .term])
    | .ok body =>
      match hclose : Token.char? ')' body.rest with
      | none => .error ⟨Layout.skip body.rest, [.character ')', .term]⟩
      | some rest =>
        .ok ⟨.group body.value (Token.questionMark rest).1, (Token.questionMark rest).2, by
          have := Token.length_lt_of_char? hclose
          have := Token.length_questionMark_le rest
          have := body.shorter
          omega⟩
  | none =>
    match h : Term.readSimple s with
    | .error f => .error f
    | .ok (t, rest) => .ok ⟨t, rest, Term.length_lt_of_readSimple h⟩
termination_by 3 * s.length

/-- Reads an alternation off the front of a text: a term, and more as long as bars follow. -/
def Alternation.reading (s : Text) : Except Failure (Reading s (List Term)) :=
  match Term.reading s with
  | .error f => .error f
  | .ok t =>
    have := t.shorter
    match hbar : Token.char? '|' t.rest with
    | none => .ok ⟨[t.value], t.rest, t.shorter⟩
    | some more =>
      have := Token.length_lt_of_char? hbar
      match Alternation.reading more with
      | .error f => .error f
      | .ok ts => .ok ⟨t.value :: ts.value, ts.rest, by have := ts.shorter; omega⟩
termination_by 3 * s.length + 1

/-- Reads a sequence off the front of a text: an alternation, and more as long as commas follow. -/
def Sequence.reading (s : Text) : Except Failure (Reading s (List (List Term))) :=
  match Alternation.reading s with
  | .error f => .error f
  | .ok g =>
    have := g.shorter
    match hcomma : Token.char? ',' g.rest with
    | none => .ok ⟨[g.value], g.rest, g.shorter⟩
    | some more =>
      have := Token.length_lt_of_char? hcomma
      match Sequence.reading more with
      | .error f => .error f
      | .ok gs => .ok ⟨g.value :: gs.value, gs.rest, by have := gs.shorter; omega⟩
termination_by 3 * s.length + 2

end

/-- Reads a term off the front of a text. -/
def Term.read (s : Text) : Except Failure (Term × Text) := (Term.reading s).map Reading.toProd

/-- Reads an alternation off the front of a text. -/
def Alternation.read (s : Text) : Except Failure (Alternation × Text) :=
  (Alternation.reading s).map Reading.toProd

/-- Reads a sequence off the front of a text. -/
def Sequence.read (s : Text) : Except Failure (Sequence × Text) :=
  (Sequence.reading s).map Reading.toProd

private theorem map_toProd_error {s : Text} {α : Type} (f : Failure) :
    (Except.error f : Except Failure (Reading s α)).map Reading.toProd = .error f := rfl

private theorem map_toProd_ok {s : Text} {α : Type} (r : Reading s α) :
    (Except.ok r : Except Failure (Reading s α)).map Reading.toProd = .ok (r.value, r.rest) := rfl

/-- A term is a group if an opening parenthesis comes next, and simple otherwise. -/
theorem Term.read_eq (s : Text) :
    Term.read s =
      match Token.char? '(' s with
      | some inside =>
        match Sequence.read inside with
        | .error f => .error (f.within [.character ')', .term])
        | .ok (body, rest) =>
          match Token.char? ')' rest with
          | none => .error ⟨Layout.skip rest, [.character ')', .term]⟩
          | some rest =>
            .ok (.group body (Token.questionMark rest).1, (Token.questionMark rest).2)
      | none => Term.readSimple s := by
  rw [Term.read, Term.reading]
  split
  · rename_i inside h
    simp only [h, Sequence.read]
    cases Sequence.reading inside with
    | error f => rfl
    | ok body =>
      simp only [map_toProd_ok]
      split <;> rename_i hc <;> simp only [hc, map_toProd_ok, map_toProd_error]
  · rename_i h
    simp only [h]
    split <;> rename_i hs <;> simp only [hs, map_toProd_ok, map_toProd_error]

/-- An alternation goes on as long as a bar follows a term. -/
theorem Alternation.read_eq (s : Text) :
    Alternation.read s =
      match Term.read s with
      | .error f => .error f
      | .ok (t, rest) =>
        match Token.char? '|' rest with
        | none => .ok ([t], rest)
        | some more =>
          match Alternation.read more with
          | .error f => .error f
          | .ok (ts, rest) => .ok (t :: ts, rest) := by
  rw [Alternation.read, Alternation.reading, Term.read]
  cases Term.reading s with
  | error f => rfl
  | ok t =>
    simp only [map_toProd_ok]
    split <;> rename_i h
    · simp only [h, map_toProd_ok]
    · rename_i more
      simp only [h, Alternation.read]
      cases Alternation.reading more <;> rfl

/-- A sequence goes on as long as a comma follows an alternation. -/
theorem Sequence.read_eq (s : Text) :
    Sequence.read s =
      match Alternation.read s with
      | .error f => .error f
      | .ok (g, rest) =>
        match Token.char? ',' rest with
        | none => .ok ([g], rest)
        | some more =>
          match Sequence.read more with
          | .error f => .error f
          | .ok (gs, rest) => .ok (g :: gs, rest) := by
  rw [Sequence.read, Sequence.reading, Alternation.read]
  cases Alternation.reading s with
  | error f => rfl
  | ok g =>
    simp only [map_toProd_ok]
    split <;> rename_i h
    · simp only [h, map_toProd_ok]
    · rename_i more
      simp only [h, Sequence.read]
      cases Sequence.reading more <;> rfl

theorem Sequence.length_lt_of_read {s r : Text} {gs : Sequence}
    (h : Sequence.read s = .ok (gs, r)) : r.length < s.length := by
  unfold Sequence.read at h
  cases hr : Sequence.reading s with
  | error f => simp [hr, Except.map] at h
  | ok g =>
    simp only [hr, Except.map, Reading.toProd, Except.ok.injEq, Prod.mk.injEq] at h
    rw [← h.2]
    exact g.shorter

/-! ## Rules and grammars -/

/-- Reads a rule, given a text that starts with no layout. If the text does not start like a rule, not
even what could be its kind word counts as read. -/
def Rule.read (s : Text) : Except Failure (Rule × Text) :=
  let (kind, named) := Token.kind s
  match Token.name? named with
  -- back to before the kind word
  | none => .error ⟨s, []⟩
  | some (id, rest) =>
    match Token.char? ':' rest with
    | none => .error ⟨Layout.skip rest, [.character ':']⟩
    | some body =>
      match Sequence.read body with
      | .error f => .error (f.within [.ruleBody])
      | .ok (body, rest) =>
        match Token.char? ';' rest with
        | none => .error ⟨Layout.skip rest, [.character ';']⟩
        | some rest => .ok (⟨id, kind, body⟩, rest)

theorem Rule.length_lt_of_read {s r : Text} {rule : Rule} (h : Rule.read s = .ok (rule, r)) :
    r.length < s.length := by
  simp only [Rule.read] at h
  split at h
  · simp at h
  split at h
  · simp at h
  split at h
  · simp at h
  split at h
  · simp at h
  simp only [Except.ok.injEq, Prod.mk.injEq] at h
  obtain ⟨-, rfl⟩ := h
  rename_i id r₁ hname _ r₂ hcolon _ _ r₃ hbody _ _ hsemi
  have h₀ := Token.length_kind_le s
  have h₁ := Token.length_lt_of_name? hname
  have h₂ := Token.length_lt_of_char? hcolon
  have h₃ := Sequence.length_lt_of_read hbody
  have h₄ := Token.length_lt_of_char? hsemi
  omega

/-- Reads rules up to the end of the source. -/
def Grammar.read (s : Text) : Except Failure Grammar :=
  -- a source may end in layout, but once anything else is left it has to be a rule
  if (Layout.skip s).isEmpty then .ok []
  else
    match _h : Rule.read (Layout.skip s) with
    | .error f => .error f
    | .ok (rule, rest) =>
      match Grammar.read rest with
      | .error f => .error f
      | .ok rules => .ok (rule :: rules)
termination_by s.length
decreasing_by exact Nat.lt_of_lt_of_le (Rule.length_lt_of_read _h) (Layout.length_skip_le s)

end UtteranceGrammar
