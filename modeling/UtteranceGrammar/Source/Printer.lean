/-
The written form of patterns, rules and grammars.

A term is written as `[text, text]`, as a rule's name or as a sequence in parentheses, with `?`
behind it if it may be left out; alternatives are joined by ` | `, the steps of a sequence by `, `.
A rule is its kind word, if it has one, its name, a colon, its pattern and a semicolon; a grammar is
one rule a line. Literal texts are written as they are. So the written form can be read back only
where names are names and literal texts have nothing in them that the form itself uses.
-/
import UtteranceGrammar.Rule

set_option autoImplicit false

namespace UtteranceGrammar

/-- The mark behind a term that may be left out. -/
def optionalMark (optional : Bool) : Text := if optional then ['?'] else []

mutual

/-- A term as it is written. -/
def Term.print : Term → Text
  | .literals items optional =>
    '[' :: ([',', ' '].intercalate items ++ ']' :: optionalMark optional)
  | .reference id optional => id.toList ++ optionalMark optional
  | .group body optional => '(' :: (Sequence.print body ++ ')' :: optionalMark optional)

/-- An alternation as it is written. -/
def Alternation.print : List Term → Text
  | [] => []
  | [t] => t.print
  | t :: u :: ts => t.print ++ ' ' :: '|' :: ' ' :: Alternation.print (u :: ts)

/-- A sequence as it is written. -/
def Sequence.print : List (List Term) → Text
  | [] => []
  | [g] => Alternation.print g
  | g :: h :: gs => Alternation.print g ++ ',' :: ' ' :: Sequence.print (h :: gs)

end

/-- The word that stands before the name of a rule of this kind, with the space that parts them. -/
def RuleKind.word : RuleKind → Text
  | .plain => []
  | .entity => "entity ".toList
  | .intent => "intent ".toList

/-- A rule as it is written. -/
def Rule.print (r : Rule) : Text :=
  r.kind.word ++ (r.id.toList ++ ':' :: ' ' :: (Sequence.print r.body ++ [';']))

/-- A grammar as it is written: each rule on a line of its own. -/
def Grammar.print (g : Grammar) : Text := g.flatMap fun r => r.print ++ ['\n']

end UtteranceGrammar
