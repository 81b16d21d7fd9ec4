/-
Failures to read on.

A reader that cannot go on says where it stands and what it could have gone on with. The place is
given by the text that is left, so a failure needs no look at what was read before; an offset comes
out of it by comparing lengths. What was expected is a list that grows on the way out: the innermost
expectation stands first, and each construct that encloses it adds its own behind.
-/
import UtteranceGrammar.Text.Basic

set_option autoImplicit false

namespace UtteranceGrammar

/-- What a reader can be waiting for. -/
inductive Expectation where
  | character (c : Char)
  | term
  | ruleBody
deriving DecidableEq, Repr

/-- The wording of an expectation. -/
def Expectation.describe : Expectation → Text
  | .character c => ['`', c, '`']
  | .term => "term".toList
  | .ruleBody => "rule body".toList

/-- Where reading stopped, and what was expected there, the innermost expectation first. -/
structure Failure where
  rest : Text
  expected : List Expectation
deriving DecidableEq, Repr

/-- The same failure, seen from a construct that waits for `outer`. -/
def Failure.within (f : Failure) (outer : List Expectation) : Failure :=
  { f with expected := f.expected ++ outer }

@[simp] theorem Failure.rest_within (f : Failure) (outer : List Expectation) :
    (f.within outer).rest = f.rest := rfl

@[simp] theorem Failure.expected_within (f : Failure) (outer : List Expectation) :
    (f.within outer).expected = f.expected ++ outer := rfl

end UtteranceGrammar
