/-
Test cases: the utterances of intents as labelled data.

Every utterance of an intent rule is a case: its text, the intent, and the places of its entities. Texts
of other rules are no cases. The cases are written as one JSON array.
-/
import UtteranceGrammar.Expansion.Basic
import UtteranceGrammar.Text.Json

set_option autoImplicit false

namespace UtteranceGrammar

/-- An utterance with the intent that it expresses. -/
structure TestCase where
  text : Text
  intent : Name
  entities : List Entity
deriving DecidableEq, Repr

namespace TestCase

/-- An entity's name and place in JSON. -/
def entityLines (e : Entity) : Json.Lines :=
  Json.object
    [("entity", Json.string e.name.toList), ("startPos", Json.number e.start),
      ("endPos", Json.number e.stop)]

/-- A case in JSON. -/
def lines (c : TestCase) : Json.Lines :=
  Json.object
    [("text", Json.string c.text), ("intent", Json.string c.intent.toList),
      ("entities", Json.array (c.entities.map entityLines))]

end TestCase

/-- The cases that a rule gives rise to. -/
def ExpandedRule.testCases (r : ExpandedRule) : List TestCase :=
  if r.rule.kind = .intent then r.utterances.map fun u => ⟨u.text, r.rule.id, u.entities⟩ else []

namespace Expansion

/-- The cases that an expansion gives rise to, in its order. -/
def testCases (e : Expansion) : List TestCase := e.rules.flatMap ExpandedRule.testCases

/-- The cases of an expansion in JSON. -/
def testCaseJson (e : Expansion) : Text :=
  Json.render (Json.array (e.testCases.map TestCase.lines))

end Expansion

end UtteranceGrammar
