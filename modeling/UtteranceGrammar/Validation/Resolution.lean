/-
Resolution: whether a grammar can be expanded, and in which order.

The first checks look at names. Every rule that bears an earlier rule's name is reported, then every
reference to a name that no rule bears, once for each place, then every rule that is neither an intent
nor referred to. Only if there was no error does the second check follow references: the walk goes
through the graph of references from every rule that has any. If it meets a cycle, the rules on the
cycles that it met are reported together. Otherwise its order puts every rule behind those that it
refers to, and the rules that take part in no reference are added behind, in the order of writing.
-/
import UtteranceGrammar.Validation.Diagnostic
import UtteranceGrammar.Dependency.Walk

set_option autoImplicit false

namespace UtteranceGrammar

namespace Grammar

/-! ## Names -/

/-- The names of the rules, in their order. -/
def ids (g : Grammar) : List Name := g.map Rule.id

/-- The names that the rules refer to, in reading order, as often as they do. -/
def references (g : Grammar) : List Name := g.flatMap Rule.references

/-- The rules whose names are neither among `earlier` nor borne by a rule before them. -/
def firstsAfter (earlier : List Name) : List Rule → List Rule
  | [] => []
  | r :: rs =>
    if r.id ∈ earlier then firstsAfter earlier rs else r :: firstsAfter (r.id :: earlier) rs

/-- The rules whose names are among `earlier` or borne by a rule before them. -/
def repeatsAfter (earlier : List Name) : List Rule → List Rule
  | [] => []
  | r :: rs =>
    if r.id ∈ earlier then r :: repeatsAfter earlier rs else repeatsAfter (r.id :: earlier) rs

/-- The first rule of each name. -/
def firsts (g : Grammar) : List Rule := firstsAfter [] g

/-- The rules that bear an earlier rule's name. -/
def repeats (g : Grammar) : List Rule := repeatsAfter [] g

/-- The names given more than once, as findings. -/
def duplicateRules (g : Grammar) : List Diagnostic :=
  (repeats g).map fun r => .duplicateRule r.id

/-- The references to names that no rule bears, as findings. -/
def undefinedReferences (g : Grammar) : List Diagnostic :=
  g.flatMap fun r => (r.references.filter (· ∉ ids g)).map (.undefinedReference r.id)

/-- The rules that nothing uses, as findings. -/
def unusedRules (g : Grammar) : List Diagnostic :=
  ((firsts g).filter fun r => r.kind ≠ .intent ∧ r.id ∉ references g).map fun r => .unusedRule r.id

/-- All that a look at names alone finds. -/
def nameDiagnostics (g : Grammar) : List Diagnostic :=
  duplicateRules g ++ undefinedReferences g ++ unusedRules g

/-! ## References -/

/-- The graph of references: an edge from each rule to each name that it refers to. -/
def dependencies (g : Grammar) : Graph Name :=
  ⟨g.flatMap fun r => r.references.eraseDups.map (r.id, ·)⟩

/-- The rules that refer to any, in their order. -/
def dependents (g : Grammar) : List Name := (g.filter fun r => !r.references.isEmpty).map Rule.id

/-- The walk along the references of a grammar. -/
def dependencyWalk (g : Grammar) : Walk Name := (dependencies g).explore (dependents g)

/-- The rules with the given names, and behind them all other rules in the order of writing. -/
def arrange (g : Grammar) (sorted : List Name) : List Rule :=
  sorted.filterMap (fun id => g.find? (·.id = id)) ++ g.filter (·.id ∉ sorted)

end Grammar

/-! ## Resolution -/

/-- A grammar was found invalid. -/
structure Invalid where
  /-- The number of errors found. -/
  errors : Nat
deriving DecidableEq, Repr

/-- The wording of the verdict. -/
def Invalid.message (i : Invalid) : String :=
  s!"rule set is invalid ({i.errors} error(s) reported)"

/-- What is found about a grammar, and the order in which its rules can be expanded. -/
structure Resolution where
  /-- The findings, in their order. -/
  diagnostics : List Diagnostic
  /-- The rules, each behind those that it refers to, unless the grammar is invalid. -/
  order : Except Invalid (List Rule)

/-- Checks a grammar and orders its rules. -/
def Grammar.resolve (g : Grammar) : Resolution :=
  let found := nameDiagnostics g
  let errors := found.countP Diagnostic.isError
  if 0 < errors then ⟨found, .error ⟨errors⟩⟩
  else
    let walk := dependencyWalk g
    if walk.cycles.isEmpty then ⟨found, .ok (arrange g walk.sorted)⟩
    else ⟨found ++ [.circularDependency walk.cycles.flatten.eraseDups], .error ⟨1⟩⟩

end UtteranceGrammar
