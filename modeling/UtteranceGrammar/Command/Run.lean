/-
A run of the command line.

A run goes through its stages in order and ends with the first that fails: the input file has to be
there, hold UTF-8 and be a grammar; the grammar has to be valid; and the output file, if one is asked
for, must not be there yet unless it may be written over. Nothing is written before all the rest has
come out well, and what has been produced goes either to the output file or to the standard output.
-/
import UtteranceGrammar.Command.Arguments
import UtteranceGrammar.Command.Log
import UtteranceGrammar.Command.Store
import UtteranceGrammar.Presentation.Listing
import UtteranceGrammar.Presentation.TestCase
import UtteranceGrammar.Source.SourceError
import UtteranceGrammar.Generation

set_option autoImplicit false

namespace UtteranceGrammar

/-- Why a run failed. -/
inductive RunError where
  | inputMissing (path : String)
  /-- The input file cannot be read, or the output file cannot be written. -/
  | store (error : StoreError)
  /-- The input file is not UTF-8. -/
  | notUtf8
  /-- The input file is no grammar. -/
  | source (error : SourceError)
  /-- Nothing can be generated from the grammar. -/
  | generation (error : GenerationError)
  | outputExists (path : String)
deriving DecidableEq

/-- The wording of a run's error. -/
def RunError.message : RunError → String
  | .inputMissing path => s!"input file '{path}' does not exist"
  | .store error => error.message
  | .notUtf8 => "stream did not contain valid UTF-8"
  | .source error => error.message
  | .generation error => error.message
  | .outputExists path => s!"the file '{path}' already exists; use --force to overwrite it"

/-- What a run leaves behind, apart from files. -/
structure Outcome where
  code : Nat
  stdout : String
  /-- The log, all levels. -/
  log : List Event
deriving DecidableEq

namespace Outcome

/-- A run that failed after the events in `log`. -/
def failure (log : List Event) (error : RunError) : Outcome :=
  ⟨1, "", log ++ [⟨.error, error.message⟩]⟩

/-- The log as it is shown. -/
def shownLog (o : Outcome) (v : Verbosity) : List String := (o.log.filter v.shows).map Event.line

end Outcome

/-- The event of a finding. -/
def Diagnostic.event (d : Diagnostic) : Event := ⟨if d.isError then .error else .warn, d.message⟩

/-- The event of a resolution that came out well. -/
def resolvedEvent (rules : List Rule) : Event :=
  ⟨.debug, "resolved expansion order order=[" ++
    ", ".intercalate (rules.map fun r => "\"" ++ r.id ++ "\"") ++ "]"⟩

/-- The events of a rule's expansion. -/
def ExpandedRule.events (r : ExpandedRule) : List Event :=
  [⟨.debug, "producing rule rule=" ++ r.rule.id⟩,
    ⟨.trace, s!"rule expanded rule={r.rule.id} utterances={r.utterances.length}"⟩]

/-- The events of a generation: its findings, the order found, and each rule's expansion. -/
def Generation.events (g : Generation) : List Event :=
  let resolved := match g.resolution.order with
    | .ok rules => [resolvedEvent rules]
    | .error _ => []
  let expanded := match g.outcome with
    | .ok expansion => expansion.rules.flatMap ExpandedRule.events
    | .error _ => []
  g.diagnostics.map Diagnostic.event ++ resolved ++ expanded

/-- What a task makes of an expansion. -/
def Invocation.render (i : Invocation) (e : Expansion) : Text :=
  match i.task with
  | .create => e.testCaseJson
  | .print => e.listing (.ofArguments i.rules)

/-- What a run makes of the content of its input file, and the events on the way. -/
def Invocation.produce (i : Invocation) (content : ByteArray) : List Event × Except RunError String :=
  match String.fromUTF8? content with
  | none => ([], .error .notUtf8)
  | some source =>
    match Grammar.parse source.toList with
    | .error e => ([], .error (.source e))
    | .ok g =>
      let generation := Grammar.generate g
      (generation.events,
        match generation.outcome with
        | .error e => .error (.generation e)
        | .ok expansion => .ok (String.ofList (i.render expansion)))

/-- Puts what a run has produced where it belongs. -/
def Invocation.deliver {m : Type → Type} [Monad m] [Store m] (i : Invocation) (log : List Event)
    (product : String) : m Outcome := do
  match i.out with
  | none => return ⟨0, product, log⟩
  | some path =>
    if (← Store.occupied path) && !i.force then return .failure log (.outputExists path)
    match ← Store.write path product.toUTF8 with
    | .error e => return .failure log (.store e)
    | .ok () =>
      return ⟨0, "", log ++ [⟨.info, s!"the file '{path}' has been successfully created"⟩]⟩

/-- Carries out a command. -/
def Invocation.run {m : Type → Type} [Monad m] [Store m] (i : Invocation) : m Outcome := do
  if !(← Store.isFile i.file) then return .failure [] (.inputMissing i.file)
  match ← Store.read i.file with
  | .error e => return .failure [] (.store e)
  | .ok content =>
    match i.produce content with
    | (log, .error e) => return .failure log e
    | (log, .ok product) => i.deliver log product

end UtteranceGrammar
