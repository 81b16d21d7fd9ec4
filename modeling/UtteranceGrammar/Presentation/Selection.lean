/-
Selections of rules by name.

Names are given in arguments, of which each may hold several, parted by spaces, commas or semicolons.
White space around a name does not count, and neither does an empty name. The order of the names and
their repetitions do not count either, so a selection lists its names in the order of their characters
and each once.
-/
import UtteranceGrammar.Text.Basic

set_option autoImplicit false

namespace UtteranceGrammar

/-- The rules to be shown. -/
structure Selection where
  /-- Their names, in order and each once. -/
  names : List Name
deriving DecidableEq, Repr

namespace Selection

/-- The characters that part names. -/
def separates (c : Char) : Bool := c == ' ' || c == ',' || c == ';'

/-- The selection of the names in the arguments. -/
def ofArguments (arguments : List String) : Selection :=
  ⟨((arguments.flatMap fun a => (Text.words separates a.toList).map String.ofList).eraseDups).mergeSort
    fun a b => decide (a ≤ b)⟩

/-- Whether a rule is to be shown: an empty selection leaves none out. -/
def selects (s : Selection) (id : Name) : Bool := s.names.isEmpty || s.names.contains id

end Selection

end UtteranceGrammar
