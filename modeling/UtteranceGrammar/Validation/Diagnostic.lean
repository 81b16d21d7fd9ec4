/-
Diagnostics: what there is to say about a grammar before anything is generated.

Three findings are errors and stop the run: a name given twice, a reference to no rule, rules that
refer to each other in a circle. One is a warning: a rule that nothing uses. They come in one stream,
in the order in which they are found; a report sorts them by severity, and a listener may be deaf to
either of the two.
-/
import UtteranceGrammar.Rule

set_option autoImplicit false

namespace UtteranceGrammar

/-- Whether a finding stops the run. -/
inductive Severity where
  | error
  | warning
deriving DecidableEq, Repr

/-- A finding about a grammar. -/
inductive Diagnostic where
  /-- A rule bears the name of an earlier one. -/
  | duplicateRule (id : Name)
  /-- A rule refers to a name that no rule bears. -/
  | undefinedReference (rule reference : Name)
  /-- The rules stand on circles of references. -/
  | circularDependency (rules : List Name)
  /-- No rule refers to the rule, and it is no intent. -/
  | unusedRule (id : Name)
deriving DecidableEq, Repr

namespace Diagnostic

/-- How severe a finding is. -/
def severity : Diagnostic → Severity
  | duplicateRule _ | undefinedReference _ _ | circularDependency _ => .error
  | unusedRule _ => .warning

/-- Whether a finding is an error. -/
def isError (d : Diagnostic) : Bool := d.severity = .error

/-- Whether a finding is a warning. -/
def isWarning (d : Diagnostic) : Bool := d.severity = .warning

/-- The wording of a finding. -/
def message : Diagnostic → String
  | duplicateRule id => s!"duplicate rule identifier '{id}'"
  | undefinedReference rule reference =>
    s!"undefined rule reference '{reference}' in rule '{rule}'"
  | circularDependency rules =>
    "circular dependency detected for rule(s): '" ++ ",".intercalate rules ++ "'"
  | unusedRule id =>
    s!"rule '{id}' is not referenced by any rule; remove it or mark it as intent"

end Diagnostic

/-- Findings sorted by severity, each kind in the order of the stream. -/
structure Report where
  /-- The errors. -/
  errors : List Diagnostic
  /-- The warnings. -/
  warnings : List Diagnostic
deriving DecidableEq, Repr

namespace Report

/-- The report on a stream of findings. -/
def ofList (found : List Diagnostic) : Report :=
  ⟨found.filter Diagnostic.isError, found.filter Diagnostic.isWarning⟩

/-- Whether there is nothing to report. -/
def isEmpty (r : Report) : Bool := r.errors.isEmpty && r.warnings.isEmpty

end Report

/-- Which findings a listener takes notice of. -/
structure Listener where
  /-- Whether it hears errors. -/
  errors : Bool
  /-- Whether it hears warnings. -/
  warnings : Bool
deriving DecidableEq, Repr

namespace Listener

/-- Whether a listener hears a finding. -/
def hears (l : Listener) (d : Diagnostic) : Bool :=
  match d.severity with
  | .error => l.errors
  | .warning => l.warnings

/-- What of a stream of findings reaches a listener, sorted by severity. -/
def report (l : Listener) (found : List Diagnostic) : Report := .ofList (found.filter l.hears)

end Listener

end UtteranceGrammar
