/-
Listings: an expansion for people to read.

Each rule has a heading with its name and, unless it is plain, its kind, and below it a line for each
of its texts. A rule that is not selected has a line that says so.
-/
import UtteranceGrammar.Expansion.Basic
import UtteranceGrammar.Presentation.Selection

set_option autoImplicit false

namespace UtteranceGrammar

namespace ExpandedRule

/-- The heading of a rule that is shown. -/
def heading (r : ExpandedRule) : Text :=
  "Rule '".toList ++ r.rule.id.toList ++
    match r.rule.kind with
    | .plain => "':\n".toList
    | kind => "' (".toList ++ kind.label.toList ++ "):\n".toList

/-- The lines of a rule in a listing. -/
def listing (selection : Selection) (r : ExpandedRule) : Text :=
  if selection.selects r.rule.id then
    r.heading ++ r.texts.flatMap fun text => ' ' :: ' ' :: (text ++ ['\n'])
  else "Rule '".toList ++ r.rule.id.toList ++ "' - Print Skipped\n".toList

end ExpandedRule

/-- The rules of an expansion with their texts, in their order. -/
def Expansion.listing (e : Expansion) (selection : Selection) : Text :=
  e.rules.flatMap (ExpandedRule.listing selection)

end UtteranceGrammar
