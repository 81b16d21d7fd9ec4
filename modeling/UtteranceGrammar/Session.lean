/-
Sessions: building a grammar step by step, and generating from it as it grows.

A session has a stack of expressions under construction, the rules made so far, and the last expansion
that came out well. A step that needs expressions takes them off the stack; if they are not there, or
not of the kind that it needs, it is refused and changes nothing. Nothing else is ever taken back
either: a source with an error adds no rule, and a generation that fails leaves the rules and the
earlier expansion as they are.
-/
import UtteranceGrammar.Generation
import UtteranceGrammar.Pattern.Expression
import UtteranceGrammar.Source.SourceError

set_option autoImplicit false

namespace UtteranceGrammar

/-- What a session remembers. -/
structure Session where
  /-- The expressions under construction, the last one first. -/
  stack : List Expression
  /-- The rules, in the order in which they were made. -/
  grammar : Grammar
  /-- The last expansion that came out well. -/
  expansion : Option Expansion

namespace Session

/-- The session before its first step. -/
def empty : Session := ⟨[], [], none⟩

/-- What can be asked of a session. -/
inductive Step where
  /-- Puts a term of literal texts on the stack. -/
  | literals (items : List Text)
  | reference (id : Name)
  /-- Marks the term on top as one that may be left out. -/
  | asOptional
  /-- Puts the expression on top in parentheses. -/
  | group
  /-- Joins the two expressions on top into a choice. -/
  | or
  /-- Joins the two expressions on top into a sequence. -/
  | andThen
  /-- Puts the expression on top there once more. -/
  | duplicate
  /-- Makes the expression on top the pattern of a new rule. -/
  | rule (id : Name) (kind : RuleKind)
  /-- Adds the rules of a source. -/
  | source (text : Text)
  | clear
  | showGrammar
  | generate
  /-- Shows a rule of the last expansion. -/
  | get (id : Name)
  /-- Shows the texts of a rule of the last expansion. -/
  | textsOf (id : Name)

/-- What a session answers. -/
inductive Answer where
  /-- The expression now on top of the stack. -/
  | expression (e : Expression)
  /-- The expressions that the step needs are not there. -/
  | refused
  | rule (r : Rule)
  | added (count : Nat)
  | sourceError (error : SourceError)
  | cleared
  | grammar (g : Grammar)
  | generated (g : Generation)
  /-- The rule with its texts, if there is one. -/
  | expanded (r : Option ExpandedRule)
  /-- The texts of the rule, if there is one. -/
  | texts (texts : Option (List Text))

/-- The session with `e` on top of `below`, and the answer that shows it; refused if there is no
expression. -/
def put (s : Session) (below : List Expression) : Option Expression → Session × Answer
  | some e => ({ s with stack := e :: below }, .expression e)
  | none => (s, .refused)

/-- Takes one step. -/
def step (s : Session) : Step → Session × Answer
  | .literals items => s.put s.stack (some (.term (.literals items false)))
  | .reference id => s.put s.stack (some (.term (.reference id false)))
  | .asOptional =>
    match s.stack with
    | e :: below => s.put below e.asOptional?
    | [] => (s, .refused)
  | .group =>
    match s.stack with
    | e :: below => s.put below (some e.toGroup)
    | [] => (s, .refused)
  | .or =>
    match s.stack with
    | right :: left :: below => s.put below (left.or? right)
    | _ => (s, .refused)
  | .andThen =>
    match s.stack with
    | right :: left :: below => s.put below (left.andThen? right)
    | _ => (s, .refused)
  | .duplicate => s.put s.stack s.stack.head?
  | .rule id kind =>
    match s.stack with
    | e :: below =>
      let r : Rule := ⟨id, kind, e.toSequence⟩
      ({ s with stack := below, grammar := s.grammar ++ [r] }, .rule r)
    | [] => (s, .refused)
  | .source text =>
    match Grammar.parse text with
    | .ok rules => ({ s with grammar := s.grammar ++ rules }, .added rules.length)
    | .error e => (s, .sourceError e)
  | .clear => (empty, .cleared)
  | .showGrammar => (s, .grammar s.grammar)
  | .generate =>
    let g := Grammar.generate s.grammar
    match g.outcome with
    | .ok expansion => ({ s with expansion := some expansion }, .generated g)
    | .error _ => (s, .generated g)
  | .get id => (s, .expanded (s.expansion.bind (·.get? id)))
  | .textsOf id => (s, .texts (s.expansion.bind (·.textsOf? id)))

/-- Takes steps one after the other and gathers the answers. -/
def run (s : Session) : List Step → Session × List Answer
  | [] => (s, [])
  | step :: steps =>
    let (s, answer) := s.step step
    let (s, answers) := s.run steps
    (s, answer :: answers)

end Session

end UtteranceGrammar
