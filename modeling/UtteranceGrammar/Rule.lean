/-
Rules and grammars.

A rule gives a name to a pattern. Its kind says what its texts are for: those of an entity rule are
marked wherever they turn up, those of an intent rule are what the grammar is written for, and a
plain rule is there to be referred to. A grammar is a list of rules in the order of their writing;
nothing in the type keeps names apart or references defined.
-/
import UtteranceGrammar.Pattern.Basic

set_option autoImplicit false

namespace UtteranceGrammar

/-- What the texts of a rule are for. -/
inductive RuleKind where
  /-- A building block for other rules. -/
  | plain
  /-- A source of entities. -/
  | entity
  /-- A root of generation. -/
  | intent
deriving DecidableEq, Repr

/-- The kind's name, as listings show it. -/
def RuleKind.label : RuleKind → String
  | .plain => "Default"
  | .entity => "Entity"
  | .intent => "Intent"

/-- A named pattern. -/
structure Rule where
  id : Name
  kind : RuleKind
  body : Sequence
deriving DecidableEq

/-- The rules that a rule refers to, in reading order, as often as it does. -/
def Rule.references (r : Rule) : List Name := Sequence.references r.body

/-- Rules in the order of their writing. -/
abbrev Grammar := List Rule

end UtteranceGrammar
