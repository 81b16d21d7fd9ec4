/-
Layout: what may stand between the tokens of a written grammar without a meaning.

Layout is white space and comments. A comment is opened by `#` or `//` and runs up to the end of its
line, that is up to a line feed, to a carriage return with a line feed behind it, or to the end of
the source; the line's end itself is white space and no part of it. A carriage return that no line
feed follows is neither the end of a line nor a part of one: with such a return in it, the comment
is none at all, and layout ends in front of it.

`skip` takes the layout off the front of a text. It is greedy, so what it leaves starts with no
layout, and skipping twice is skipping once (`skip_skip`).
-/
import UtteranceGrammar.Text.Basic

set_option autoImplicit false

namespace UtteranceGrammar

namespace Layout

/-- What follows the rest of a comment's line, from the end of the line on; nothing if a stray
carriage return stands in the way. -/
def lineEnd? : Text → Option Text
  | [] => some []
  | c :: s =>
    if c = '\n' then some (c :: s)
    else if c = '\r' then if s.head? = some '\n' then some (c :: s) else none
    else lineEnd? s

/-- What follows the opener of a comment, if the text starts with one. -/
def openComment? : Text → Option Text
  | '#' :: s => some s
  | '/' :: '/' :: s => some s
  | _ => none

/-- What follows one blank character or one comment, if the text starts with one. -/
def strip? : Text → Option Text
  | [] => none
  | c :: s => if Text.isBlank c then some s else (openComment? (c :: s)).bind lineEnd?

theorem length_le_of_lineEnd? {s r : Text} (h : lineEnd? s = some r) : r.length ≤ s.length := by
  induction s with
  | nil => simp_all [lineEnd?]
  | cons c s ih =>
    simp only [lineEnd?] at h
    split at h
    · simp_all
    split at h
    · split at h <;> simp_all
    · exact Nat.le_succ_of_le (ih h)

theorem length_lt_of_openComment? {s r : Text} (h : openComment? s = some r) :
    r.length < s.length := by
  unfold openComment? at h
  split at h
  · simp_all
  · simp only [Option.some.injEq] at h
    subst h
    simp only [List.length_cons]
    omega
  · simp at h

/-- A piece of layout has at least one character. -/
theorem length_lt_of_strip? {s r : Text} (h : strip? s = some r) : r.length < s.length := by
  cases s with
  | nil => simp [strip?] at h
  | cons c s =>
    simp only [strip?] at h
    split at h
    · simp_all
    · obtain ⟨t, ht, hr⟩ := Option.bind_eq_some_iff.1 h
      exact Nat.lt_of_le_of_lt (length_le_of_lineEnd? hr) (length_lt_of_openComment? ht)

/-- A text without the layout at its front. -/
def skip (s : Text) : Text :=
  match _h : strip? s with
  | some r => skip r
  | none => s
termination_by s.length
decreasing_by exact length_lt_of_strip? _h

/-- Skipping goes on as long as there is a piece to strip. -/
theorem skip_of_strip? {s r : Text} (h : strip? s = some r) : skip s = skip r := by
  rw [skip]
  split <;> simp_all

/-- What starts with no layout is left alone. -/
theorem skip_of_strip?_eq_none {s : Text} (h : strip? s = none) : skip s = s := by
  rw [skip]
  split <;> simp_all

/-- All layout is gone once it is skipped. -/
theorem strip?_skip (s : Text) : strip? (skip s) = none := by
  fun_induction skip s <;> simp_all

theorem skip_skip (s : Text) : skip (skip s) = skip s := skip_of_strip?_eq_none (strip?_skip s)

theorem length_skip_le (s : Text) : (skip s).length ≤ s.length := by
  fun_induction skip s with
  | case1 s r h ih => exact Nat.le_of_lt (Nat.lt_of_le_of_lt ih (length_lt_of_strip? h))
  | case2 => exact Nat.le_refl _

end Layout

end UtteranceGrammar
