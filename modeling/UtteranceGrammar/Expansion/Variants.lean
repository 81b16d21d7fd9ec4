/-
Variants: the texts that a part of a pattern stands for, and whether the part may be left out.

Parts are put together in two ways. Next to each other, the variants of a choice are those of its
terms in their order; a mark that a term may be left out counts only if the term stands alone. One
after the other, each text of the first part is joined by a space to each text of the second; then
come the texts that arise by leaving a part out, namely those of the second part alone, those of the
first part alone, and last the empty text, each if the marks allow it. What arises in this way is not
to be left out again, since its own empty text already stands for that. Nothing removes repetitions:
a text comes up as often as there are ways to it.
-/
import UtteranceGrammar.Text.Basic

set_option autoImplicit false

namespace UtteranceGrammar

/-- The texts that a part of a pattern stands for. -/
structure Variants where
  texts : List Text
  optional : Bool
deriving DecidableEq, Repr

namespace Variants

/-- Two texts one after the other, with a space between them. -/
def spaced (l r : Text) : Text := l ++ ' ' :: r

/-- Every text of `ls` followed by every text of `rs`, the latter changing faster. -/
def pairs (ls rs : List Text) : List Text := ls.flatMap fun l => rs.map (spaced l)

/-- One part followed by another. -/
def followedBy (l r : Variants) : Variants where
  texts :=
    pairs l.texts r.texts ++
      ((if l.optional then r.texts else []) ++
        ((if r.optional then l.texts else []) ++
          if l.optional && r.optional then [[]] else []))
  optional := false

/-- One part followed by all the others, from the left. -/
def followedByAll (v : Variants) (vs : List Variants) : Variants := vs.foldl followedBy v

end Variants

end UtteranceGrammar
