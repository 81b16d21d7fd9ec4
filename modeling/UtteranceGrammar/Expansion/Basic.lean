/-
Expansion: all texts of all rules.

The rules are expanded one by one, each with the marked texts of those before it at hand. A pattern
is evaluated from left to right and the first fault ends it: an empty pattern, or a reference to a
rule that has not been expanded yet. If several rules of one name have been, the last one counts.
The texts of an entity rule are wrapped as spans. Then all texts are cleaned: white space goes from
both ends, what is empty then goes altogether, and the rest is decoded into utterances. Later rules
see the cleaned texts with their marks, so that a span can be found again wherever it is used.
-/
import UtteranceGrammar.Rule
import UtteranceGrammar.Utterance.Markup
import UtteranceGrammar.Expansion.Variants

set_option autoImplicit false

namespace UtteranceGrammar

/-- Why a rule cannot be expanded. -/
inductive ExpansionError where
  /-- The rule referred to has not been expanded before. -/
  | notExpanded (reference : Name)
  /-- The rule's pattern has a sequence or an alternation without parts. -/
  | emptyPattern (rule : Name)
  /-- A text with marks cannot be decoded. -/
  | markup (error : MarkupError)
deriving DecidableEq, Repr

/-- The wording of an expansion error. -/
def ExpansionError.message : ExpansionError → String
  | .notExpanded reference => s!"rule '{reference}' was referenced before it was expanded"
  | .emptyPattern rule => s!"rule '{rule}' contains an empty expression"
  | .markup error => error.message

/-! ## Patterns -/

/-- The marked texts of the rules expanded so far, by name. -/
abbrev Lookup := Name → Option (List Text)

/-- The variants of an alternation, given those of each term. It may be left out if it is a single
term that may. -/
def Alternation.variants (rule : Name) (ts : Alternation) (texts : List (List Text)) :
    Except ExpansionError Variants :=
  match ts with
  | [] => .error (.emptyPattern rule)
  | [t] => .ok ⟨texts.flatten, t.isOptional⟩
  | _ :: _ :: _ => .ok ⟨texts.flatten, false⟩

/-- The texts of a sequence, given the variants of each alternation. -/
def Sequence.texts (rule : Name) : List Variants → Except ExpansionError (List Text)
  | [] => .error (.emptyPattern rule)
  | v :: vs => .ok (v.followedByAll vs).texts

mutual

/-- The texts of a term in the pattern of `rule`. -/
def Term.expand (lookup : Lookup) (rule : Name) : Term → Except ExpansionError (List Text)
  | .literals items _ => .ok items
  | .reference id _ =>
    match lookup id with
    | some texts => .ok texts
    | none => .error (.notExpanded id)
  | .group body _ => do
    let vs ← Sequence.expandEach lookup rule body
    Sequence.texts rule vs

/-- The texts of each term of an alternation. -/
def Alternation.expandEach (lookup : Lookup) (rule : Name) :
    List Term → Except ExpansionError (List (List Text))
  | [] => .ok []
  | t :: ts => do
    let texts ← Term.expand lookup rule t
    let others ← Alternation.expandEach lookup rule ts
    return texts :: others

/-- The variants of each alternation of a sequence. -/
def Sequence.expandEach (lookup : Lookup) (rule : Name) :
    List (List Term) → Except ExpansionError (List Variants)
  | [] => .ok []
  | g :: gs => do
    let texts ← Alternation.expandEach lookup rule g
    let v ← Alternation.variants rule g texts
    let vs ← Sequence.expandEach lookup rule gs
    return v :: vs

end

/-- The variants of an alternation in the pattern of `rule`. -/
def Alternation.expand (lookup : Lookup) (rule : Name) (ts : Alternation) :
    Except ExpansionError Variants := do
  let texts ← Alternation.expandEach lookup rule ts
  Alternation.variants rule ts texts

/-- The texts of a sequence in the pattern of `rule`. -/
def Sequence.expand (lookup : Lookup) (rule : Name) (gs : Sequence) :
    Except ExpansionError (List Text) := do
  let vs ← Sequence.expandEach lookup rule gs
  Sequence.texts rule vs

/-! ## Rules -/

/-- A rule with all its texts. -/
structure ExpandedRule where
  rule : Rule
  /-- Its texts with their marks. -/
  marked : List Text
  /-- The utterances that the marked texts stand for, one for each. -/
  utterances : List Utterance
deriving DecidableEq

namespace ExpandedRule

/-- The plain texts of a rule. -/
def texts (r : ExpandedRule) : List Text := r.utterances.map Utterance.text

end ExpandedRule

namespace Rule

/-- The texts that a rule stands for, as its pattern and its kind produce them. -/
def produce (lookup : Lookup) (r : Rule) : Except ExpansionError (List Text) := do
  let texts ← Sequence.expand lookup r.id r.body
  return if r.kind = .entity then texts.map (Markup.wrap r.id) else texts

/-- Texts without the white space at their ends, those left out of which nothing remains. -/
def clean (texts : List Text) : List Text := (texts.map Text.trim).filter (!·.isEmpty)

/-- The utterance of a marked text. -/
def utterance (marked : Text) : Except ExpansionError Utterance :=
  (Markup.decode marked).mapError .markup

/-- A rule with all its texts, given those of the rules before it. -/
def expand (lookup : Lookup) (r : Rule) : Except ExpansionError ExpandedRule := do
  let texts ← r.produce lookup
  let utterances ← (clean texts).mapM utterance
  return ⟨r, clean texts, utterances⟩

end Rule

/-! ## Grammars -/

/-- Rules with all their texts, in the order in which they were expanded. -/
structure Expansion where
  rules : List ExpandedRule
deriving DecidableEq

namespace Expansion

/-- The last rule of a name. -/
def get? (e : Expansion) (id : Name) : Option ExpandedRule :=
  e.rules.reverse.find? (·.rule.id = id)

/-- The marked texts by name. -/
def lookup (e : Expansion) : Lookup := fun id => (e.get? id).map ExpandedRule.marked

/-- The plain texts of the last rule of a name. -/
def textsOf? (e : Expansion) (id : Name) : Option (List Text) := (e.get? id).map ExpandedRule.texts

/-- The names of the rules in the order of their expansion. -/
def order (e : Expansion) : List Name := e.rules.map (·.rule.id)

/-- The number of utterances of all rules. -/
def utteranceCount (e : Expansion) : Nat := e.rules.foldr (fun r n => r.utterances.length + n) 0

/-- An expansion in one line. -/
def summary (e : Expansion) : String :=
  s!"Expansion({e.rules.length} rules, {e.utteranceCount} utterances)"

/-- Expands one rule more. -/
def add (e : Expansion) (r : Rule) : Except ExpansionError Expansion := do
  let expanded ← r.expand e.lookup
  return ⟨e.rules ++ [expanded]⟩

end Expansion

/-- Expands rules in the given order. -/
def Grammar.expand (rules : List Rule) : Except ExpansionError Expansion :=
  rules.foldlM Expansion.add ⟨[]⟩

end UtteranceGrammar
