/-
Expressions: patterns under construction.

An expression is a term, an alternation or a sequence, and it is put together with others from the
left. `or` takes a term on its right, `andThen` a term or an alternation; each stays on its own level,
so that a chain of one kind is one list and no nest. What does not fit has no result: there is no
alternation of sequences unless they are put in parentheses, which `toGroup` does.
-/
import UtteranceGrammar.Pattern.Basic
import UtteranceGrammar.Source.Printer

set_option autoImplicit false

namespace UtteranceGrammar

/-- A pattern of any level. -/
inductive Expression where
  | term (t : Term)
  | alternation (ts : Alternation)
  | sequence (gs : Sequence)
deriving DecidableEq

namespace Expression

/-- An expression as an alternation, if it is no sequence. -/
def toAlternation? : Expression → Option Alternation
  | term t => some [t]
  | alternation ts => some ts
  | sequence _ => none

/-- An expression as the pattern of a rule. -/
def toSequence : Expression → Sequence
  | term t => [[t]]
  | alternation ts => [ts]
  | sequence gs => gs

/-- An expression in parentheses. -/
def toGroup (e : Expression) : Expression := term (.group e.toSequence false)

/-- An expression as one that may be left out, if it is a term. -/
def asOptional? : Expression → Option Expression
  | term t => some (term t.asOptional)
  | alternation _ | sequence _ => none

/-- A choice between two expressions. -/
def or? (left right : Expression) : Option Expression :=
  match left.toAlternation?, right with
  | some ts, term t => some (alternation (ts ++ [t]))
  | _, _ => none

/-- One expression after another. -/
def andThen? (left right : Expression) : Option Expression :=
  right.toAlternation?.map fun ts => sequence (left.toSequence ++ [ts])

/-- An expression as it is written. -/
def print : Expression → Text
  | term t => t.print
  | alternation ts => Alternation.print ts
  | sequence gs => Sequence.print gs

end Expression

end UtteranceGrammar
