/-
What is in a pattern, at any depth.

Two questions about a pattern decide whether its expansion can go wrong: which literal texts stand in
it (`items`), and whether a sequence or an alternation somewhere in it has no parts (`isHollow`). Both
are answered by recursion on the tree, and like all functions on patterns they come in threes.

A list of parts that is empty is a fault where the list is a whole sequence or a whole alternation, and
none where it is the rest of one. So the functions on lists of terms and of alternations, whose
recursion meets every rest, say nothing on the list itself; whoever has a whole one asks on top of them
whether it is empty.
-/
import UtteranceGrammar.Rule

set_option autoImplicit false

namespace UtteranceGrammar

/-! ## Literal texts -/

mutual

/-- The literal texts in a term, in reading order. -/
def Term.items : Term → List Text
  | .literals items _ => items
  | .reference _ _ => []
  | .group body _ => Sequence.items body

/-- The literal texts in the terms of an alternation, in reading order. -/
def Alternation.items : List Term → List Text
  | [] => []
  | t :: ts => t.items ++ Alternation.items ts

/-- The literal texts in a sequence, in reading order. -/
def Sequence.items : List (List Term) → List Text
  | [] => []
  | g :: gs => Alternation.items g ++ Sequence.items gs

end

/-- The literal texts in a rule's pattern. -/
def Rule.items (r : Rule) : List Text := Sequence.items r.body

/-! ## Missing parts -/

mutual

/-- Whether a sequence or an alternation in the term has no parts. -/
def Term.isHollow : Term → Bool
  | .literals _ _ | .reference _ _ => false
  | .group body _ => body.isEmpty || Sequence.anyHollow body

/-- Whether a sequence or an alternation in one of the terms has no parts. -/
def Alternation.anyHollow : List Term → Bool
  | [] => false
  | t :: ts => t.isHollow || Alternation.anyHollow ts

/-- Whether one of the alternations, or a sequence or an alternation in one of them, has no parts. -/
def Sequence.anyHollow : List (List Term) → Bool
  | [] => false
  | g :: gs => g.isEmpty || Alternation.anyHollow g || Sequence.anyHollow gs

end

/-- Whether a sequence has no parts, or a sequence or an alternation in it has none. -/
def Sequence.isHollow (gs : Sequence) : Bool := gs.isEmpty || Sequence.anyHollow gs

/-- Whether a sequence or an alternation in the rule's pattern has no parts. -/
def Rule.isHollow (r : Rule) : Bool := Sequence.isHollow r.body

end UtteranceGrammar
