/-
Patterns: what a rule's body is made of.

A pattern is a sequence of alternations of terms. A term is a list of literal texts, a reference to
another rule, or a whole sequence in parentheses, and each may be marked as one that can be left
out. Three levels, of which the third holds the first again, are one nested inductive type; the two
outer levels are plain lists, so that lists' own operations and lemmas apply to them.

Functions on patterns come in threes, one for each level, by recursion on the tree.
-/
import UtteranceGrammar.Text.Basic

set_option autoImplicit false

namespace UtteranceGrammar

/-- The smallest part of a pattern, with the mark that says whether it may be left out. -/
inductive Term where
  /-- Any one of the given texts. -/
  | literals (items : List Text) (optional : Bool)
  /-- Any text of the named rule. -/
  | reference (id : Name) (optional : Bool)
  /-- Any text of the sequence in parentheses: alternations, each a list of terms. -/
  | group (body : List (List Term)) (optional : Bool)

/-- A choice between terms. -/
abbrev Alternation := List Term

/-- Alternations to be taken one after the other. -/
abbrev Sequence := List Alternation

namespace Term

/-- Whether the term may be left out. -/
def isOptional : Term → Bool
  | literals _ optional | reference _ optional | group _ optional => optional

/-- The term as one that may be left out. -/
def asOptional : Term → Term
  | literals items _ => literals items true
  | reference id _ => reference id true
  | group body _ => group body true

@[simp] theorem isOptional_asOptional (t : Term) : t.asOptional.isOptional = true := by
  cases t <;> rfl

end Term

/-! ## Equality

Patterns can be compared: `Term.same` walks two of them side by side, and it says yes exactly if they
are equal. -/

mutual

/-- Whether two terms are equal. -/
def Term.same : Term → Term → Bool
  | .literals xs b, .literals ys c => xs == ys && b == c
  | .reference x b, .reference y c => x == y && b == c
  | .group xs b, .group ys c => Sequence.same xs ys && b == c
  | _, _ => false

/-- Whether two alternations are equal. -/
def Alternation.same : List Term → List Term → Bool
  | [], [] => true
  | x :: xs, y :: ys => Term.same x y && Alternation.same xs ys
  | _, _ => false

/-- Whether two sequences are equal. -/
def Sequence.same : List (List Term) → List (List Term) → Bool
  | [], [] => true
  | x :: xs, y :: ys => Alternation.same x y && Sequence.same xs ys
  | _, _ => false

end

mutual

theorem Term.same_iff : ∀ s t : Term, Term.same s t = true ↔ s = t
  | .literals .., .literals .. => by simp [Term.same]
  | .reference .., .reference .. => by simp [Term.same]
  | .group xs _, .group ys _ => by simp [Term.same, Sequence.same_iff xs ys]
  | .literals .., .reference .. | .literals .., .group .. | .reference .., .literals ..
  | .reference .., .group .. | .group .., .literals .. | .group .., .reference .. => by
    simp [Term.same]

theorem Alternation.same_iff : ∀ xs ys : List Term, Alternation.same xs ys = true ↔ xs = ys
  | [], [] => by simp [Alternation.same]
  | x :: xs, y :: ys => by
    simp [Alternation.same, Term.same_iff x y, Alternation.same_iff xs ys]
  | [], _ :: _ | _ :: _, [] => by simp [Alternation.same]

theorem Sequence.same_iff : ∀ xs ys : List (List Term), Sequence.same xs ys = true ↔ xs = ys
  | [], [] => by simp [Sequence.same]
  | x :: xs, y :: ys => by
    simp [Sequence.same, Alternation.same_iff x y, Sequence.same_iff xs ys]
  | [], _ :: _ | _ :: _, [] => by simp [Sequence.same]

end

instance : DecidableEq Term := fun s t => decidable_of_iff _ (Term.same_iff s t)

/-! ## References -/

mutual

/-- The rules that a term refers to, in reading order, as often as it does. -/
def Term.references : Term → List Name
  | .literals _ _ => []
  | .reference id _ => [id]
  | .group body _ => Sequence.references body

/-- The rules that the terms of an alternation refer to, in reading order. -/
def Alternation.references : List Term → List Name
  | [] => []
  | t :: ts => t.references ++ Alternation.references ts

/-- The rules that a sequence refers to, in reading order. -/
def Sequence.references : List (List Term) → List Name
  | [] => []
  | g :: gs => Alternation.references g ++ Sequence.references gs

end

theorem Alternation.references_eq (ts : List Term) :
    Alternation.references ts = ts.flatMap Term.references := by
  induction ts with
  | nil => simp [Alternation.references]
  | cons t ts ih => simp [Alternation.references, ih]

theorem Sequence.references_eq (gs : List (List Term)) :
    Sequence.references gs = gs.flatMap Alternation.references := by
  induction gs with
  | nil => simp [Sequence.references]
  | cons g gs ih => simp [Sequence.references, ih]

end UtteranceGrammar
