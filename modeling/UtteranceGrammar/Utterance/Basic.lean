/-
Utterances: a text, and the entities found in it.

An entity says which rule a stretch of the text comes from. Its `start` and `stop` count characters
from the front of the utterance's text, the stop being one past the last character. Its own text is
kept beside the offsets, so a reader of one entity needs no look at the utterance.
-/
import UtteranceGrammar.Text.Basic

set_option autoImplicit false

namespace UtteranceGrammar

/-- A stretch of a text that stands for a named entity. -/
structure Entity where
  /-- The rule that the stretch comes from. -/
  name : Name
  /-- The characters of the stretch. -/
  text : Text
  /-- The offset of the first character. -/
  start : Nat
  /-- The offset one past the last character. -/
  stop : Nat
deriving DecidableEq, Repr

/-- A text with the entities that occur in it. -/
structure Utterance where
  /-- The text, free of marks. -/
  text : Text
  /-- The entities, each listed before the ones that enclose it. -/
  entities : List Entity
deriving DecidableEq, Repr

/-- An entity in words: its name, its offsets and its text. -/
def Entity.describe (e : Entity) : String :=
  s!"{e.name}[{e.start}..{e.stop}] '" ++ String.ofList e.text ++ "'"

end UtteranceGrammar
