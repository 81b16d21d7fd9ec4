/-
Generation: from a grammar to the texts of all its rules.

A grammar is resolved first, and expanded only if it is valid. Whatever was found on the way is kept
beside the outcome, be it good or bad.
-/
import UtteranceGrammar.Validation.Resolution
import UtteranceGrammar.Expansion.Basic

set_option autoImplicit false

namespace UtteranceGrammar

/-- Why nothing was generated. -/
inductive GenerationError where
  | invalid (verdict : Invalid)
  | expansion (error : ExpansionError)
deriving DecidableEq, Repr

/-- The wording of a generation error. -/
def GenerationError.message : GenerationError → String
  | .invalid verdict => verdict.message
  | .expansion error => error.message

/-- The texts of all rules of a valid order, or the error of an invalid grammar. -/
def Resolution.expand (r : Resolution) : Except GenerationError Expansion :=
  match r.order with
  | .error verdict => .error (.invalid verdict)
  | .ok rules => (Grammar.expand rules).mapError .expansion

/-- What was found about a grammar, and what came of it. -/
structure Generation where
  /-- The findings, and the order of the rules. -/
  resolution : Resolution
  /-- The texts of all rules, in that order. -/
  outcome : Except GenerationError Expansion

/-- The findings, in their order. -/
def Generation.diagnostics (g : Generation) : List Diagnostic := g.resolution.diagnostics

/-- Checks a grammar and expands it. -/
def Grammar.generate (g : Grammar) : Generation :=
  let resolution := Grammar.resolve g
  ⟨resolution, resolution.expand⟩

end UtteranceGrammar
