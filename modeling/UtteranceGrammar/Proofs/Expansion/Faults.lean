/-
Which patterns can be expanded, and what comes of them.

Expansion goes through a pattern from left to right and ends at the first fault. The faults that it
could meet are listed by `Sequence.faults`, in reading order: an empty pattern for each sequence and
each alternation without parts, a missing rule for each reference that cannot be looked up.
`Sequence.expand_eq` says that this is all there is to expansion: it answers with the first fault if
there is one, and with the evaluation of the pattern over marked texts if there is none.

With every reference at hand the only faults left are the empty parts, so a pattern then expands if and
only if it is not hollow (`Sequence.expand_of_found`).
-/
import UtteranceGrammar.Expansion.Basic
import UtteranceGrammar.Proofs.Expansion.Evaluation

set_option autoImplicit false

namespace UtteranceGrammar

/-! ## The faults in a pattern -/

section Faults

variable (lookup : Lookup) (rule : Name)

/-- The fault of a list of parts that is empty. -/
def faultOfNone {α : Type} (parts : List α) : List ExpansionError :=
  if parts.isEmpty then [.emptyPattern rule] else []

mutual

/-- The faults in a term, in reading order. -/
def Term.faults : Term → List ExpansionError
  | .literals _ _ => []
  | .reference id _ => if (lookup id).isSome then [] else [.notExpanded id]
  | .group body _ => Sequence.faultsWithin body ++ faultOfNone rule body

/-- The faults in the terms of an alternation, in reading order. -/
def Alternation.faultsWithin : List Term → List ExpansionError
  | [] => []
  | t :: ts => Term.faults t ++ Alternation.faultsWithin ts

/-- The faults in the alternations of a sequence, in reading order. -/
def Sequence.faultsWithin : List (List Term) → List ExpansionError
  | [] => []
  | g :: gs => Alternation.faultsWithin g ++ faultOfNone rule g ++ Sequence.faultsWithin gs

end

/-- The faults in a sequence, in reading order. -/
def Sequence.faults (gs : Sequence) : List ExpansionError :=
  Sequence.faultsWithin lookup rule gs ++ faultOfNone rule gs

end Faults

/-! ## The first fault counts -/

/-- The first of some faults, or else a value. -/
def firstFault {α : Type} (faults : List ExpansionError) (value : α) : Except ExpansionError α :=
  match faults with
  | [] => .ok value
  | fault :: _ => .error fault

/-- What is done with a value is done only if there was no fault before. -/
theorem firstFault_bind {α β : Type} {fs fs' : List ExpansionError} {x : α} {y : β}
    {next : α → Except ExpansionError β} (h : next x = firstFault fs' y) :
    (firstFault fs x >>= next) = firstFault (fs ++ fs') y := by
  cases fs with
  | nil => exact h
  | cons f fs => rfl

/-- Faults are found before anything is done with the value. -/
theorem firstFault_map {α β : Type} (fs : List ExpansionError) (x : α) (y : α → β) :
    (firstFault fs x >>= fun x => pure (y x)) = firstFault fs (y x) := by
  cases fs <;> rfl

/-- A part of a pattern over marked texts, with what expansion knows of it. -/
def Part.toVariants (p : Part Text) : Variants := ⟨p.results, p.optional⟩

/-- Over marked texts, one part is followed by another as its variants are. -/
theorem Part.toVariants_followedBy (l r : Part Text) :
    (l.followedBy .marked r).toVariants = l.toVariants.followedBy r.toVariants := rfl

/-- The same for one part followed by many, from the left. -/
theorem Part.foldl_toVariants (p : Part Text) (ps : List (Part Text)) :
    (ps.foldl (followedBy .marked) p).toVariants = p.toVariants.followedByAll (ps.map toVariants) := by
  induction ps generalizing p with
  | nil => rfl
  | cons q qs ih =>
    rw [List.foldl_cons, ih, List.map_cons, Variants.followedByAll, Variants.followedByAll,
      List.foldl_cons, Part.toVariants_followedBy]

/-- The texts of a sequence are those of its parts in a row. Only if there are no parts is there a fault. -/
theorem Sequence.texts_eq (rule : Name) (ps : List (Part Text)) :
    Sequence.texts rule (ps.map Part.toVariants)
      = firstFault (faultOfNone rule ps) (Part.inSequence .marked ps) := by
  cases ps with
  | nil => rfl
  | cons p ps =>
    rw [List.map_cons, Sequence.texts, ← Part.foldl_toVariants]
    rfl

/-- The variants of an alternation are the texts of its terms, one term after the other. Only if there are no terms
is there a fault. -/
theorem Alternation.variants_eq (rule : Name) (ts : Alternation) (texts : List (List Text)) :
    Alternation.variants rule ts texts
      = firstFault (faultOfNone rule ts) ⟨texts.flatten, Alternation.isOptional ts⟩ := by
  match ts with
  | [] => rfl
  | [_] => rfl
  | _ :: _ :: _ => rfl

/-! ## Expansion is evaluation up to the first fault -/

/-- The texts that a pattern can refer to. -/
def Lookup.table (lookup : Lookup) (id : Name) : List Text := (lookup id).getD []

/-- An alternation is evaluated by evaluating its terms one by one. -/
theorem Alternation.flatten_evaluate {α : Type} (I : Interpretation α) (table : Name → List α)
    (ts : List Term) :
    (ts.map (Term.evaluate I table)).flatten = Alternation.evaluate I table ts := by
  induction ts with
  | nil => rfl
  | cons t ts ih => rw [List.map_cons, List.flatten_cons, ih, Alternation.evaluate]

/-- A sequence has parts just if it has alternations. -/
theorem faultOfNone_parts {α : Type} (I : Interpretation α) (table : Name → List α) (rule : Name)
    (gs : List (List Term)) : faultOfNone rule (Sequence.parts I table gs) = faultOfNone rule gs := by
  cases gs <;> rfl

mutual

/-- A term is expanded to its evaluation, unless there is a fault in it: then the first one in reading order ends
expansion. A group is looked into before it is asked whether it is empty. -/
theorem Term.expand_eq (lookup : Lookup) (rule : Name) : ∀ t : Term,
    Term.expand lookup rule t
      = firstFault (t.faults lookup rule) (t.evaluate .marked lookup.table)
  | .literals items _ => by
    rw [Term.expand, Term.faults, Term.evaluate]
    exact congrArg Except.ok (List.map_id items).symm
  | .reference id _ => by
    rw [Term.expand, Term.faults, Term.evaluate, Lookup.table]
    cases lookup id <;> rfl
  | .group body _ => by
    rw [Term.expand, Sequence.expandEach_eq lookup rule body, Term.faults, Term.evaluate]
    -- whether the body has parts at all is asked after they have been expanded
    refine firstFault_bind ?_
    rw [← faultOfNone_parts .marked lookup.table rule body, Sequence.texts_eq]

/-- The terms of an alternation are expanded to their evaluations, up to the first fault. -/
theorem Alternation.expandEach_eq (lookup : Lookup) (rule : Name) : ∀ ts : List Term,
    Alternation.expandEach lookup rule ts
      = firstFault (Alternation.faultsWithin lookup rule ts)
        (ts.map (Term.evaluate .marked lookup.table))
  | [] => rfl
  | t :: ts => by
    rw [Alternation.expandEach, Term.expand_eq lookup rule t,
      Alternation.expandEach_eq lookup rule ts, Alternation.faultsWithin, List.map_cons]
    exact firstFault_bind (firstFault_map _ _ _)

/-- The alternations of a sequence are expanded to its parts, up to the first fault. That an alternation is empty is
found after the faults of its terms, of which there are none then, and before those of the alternations behind it. -/
theorem Sequence.expandEach_eq (lookup : Lookup) (rule : Name) : ∀ gs : List (List Term),
    Sequence.expandEach lookup rule gs
      = firstFault (Sequence.faultsWithin lookup rule gs)
        ((Sequence.parts .marked lookup.table gs).map Part.toVariants)
  | [] => rfl
  | g :: gs => by
    rw [Sequence.expandEach, Alternation.expandEach_eq lookup rule g,
      Sequence.expandEach_eq lookup rule gs, Sequence.faultsWithin, List.append_assoc]
    -- first the terms of `g`, then whether there are any, then the alternations behind it
    refine firstFault_bind ?_
    rw [Alternation.variants_eq, Alternation.flatten_evaluate]
    exact firstFault_bind (firstFault_map _ _ _)

end

/-- A sequence is expanded to its evaluation, unless there is a fault in it: then the first one ends
expansion. -/
theorem Sequence.expand_eq (lookup : Lookup) (rule : Name) (gs : Sequence) :
    Sequence.expand lookup rule gs
      = firstFault (Sequence.faults lookup rule gs) (Sequence.evaluate .marked lookup.table gs) := by
  rw [Sequence.expand, Sequence.expandEach_eq, Sequence.faults, Sequence.evaluate]
  refine firstFault_bind ?_
  rw [← faultOfNone_parts .marked lookup.table rule gs, Sequence.texts_eq]

/-! ## Which faults there are -/

/-- There is no fault of missing parts just if there are parts. -/
theorem faultOfNone_eq_nil_iff {α : Type} {rule : Name} {parts : List α} :
    faultOfNone rule parts = [] ↔ parts.isEmpty = false := by
  cases parts <;> simp [faultOfNone]

section Found

variable {lookup : Lookup} {rule : Name}

mutual

/-- There is no fault in a term just if no part of it is empty and all that it refers to can be looked up. -/
theorem Term.faults_eq_nil_iff : ∀ t : Term,
    t.faults lookup rule = [] ↔
      t.isHollow = false ∧ ∀ id ∈ t.references, (lookup id).isSome = true
  | .literals _ _ => by simp [Term.faults, Term.isHollow, Term.references]
  | .reference id _ => by
    cases hid : lookup id <;> simp [Term.faults, Term.isHollow, Term.references, hid]
  | .group body _ => by
    rw [Term.faults, List.append_eq_nil_iff, Sequence.faultsWithin_eq_nil_iff body,
      faultOfNone_eq_nil_iff, Term.isHollow, Term.references, Bool.or_eq_false_iff]
    grind

theorem Alternation.faultsWithin_eq_nil_iff : ∀ ts : List Term,
    Alternation.faultsWithin lookup rule ts = [] ↔
      Alternation.anyHollow ts = false ∧
        ∀ id ∈ Alternation.references ts, (lookup id).isSome = true
  | [] => by simp [Alternation.faultsWithin, Alternation.anyHollow, Alternation.references]
  | t :: ts => by
    rw [Alternation.faultsWithin, List.append_eq_nil_iff, Term.faults_eq_nil_iff t,
      Alternation.faultsWithin_eq_nil_iff ts, Alternation.anyHollow, Alternation.references,
      Bool.or_eq_false_iff, List.forall_mem_append]
    grind

/-- The same for the alternations of a sequence, none of which may be empty either. -/
theorem Sequence.faultsWithin_eq_nil_iff : ∀ gs : List (List Term),
    Sequence.faultsWithin lookup rule gs = [] ↔
      Sequence.anyHollow gs = false ∧ ∀ id ∈ Sequence.references gs, (lookup id).isSome = true
  | [] => by simp [Sequence.faultsWithin, Sequence.anyHollow, Sequence.references]
  | g :: gs => by
    rw [Sequence.faultsWithin, List.append_eq_nil_iff, List.append_eq_nil_iff,
      Alternation.faultsWithin_eq_nil_iff g, faultOfNone_eq_nil_iff,
      Sequence.faultsWithin_eq_nil_iff gs, Sequence.anyHollow, Sequence.references,
      Bool.or_eq_false_iff, Bool.or_eq_false_iff, List.forall_mem_append]
    grind

end

/-- If parts are missing, the fault is an empty pattern of the rule. -/
theorem eq_of_mem_faultOfNone {α : Type} {parts : List α} {e : ExpansionError}
    (h : e ∈ faultOfNone rule parts) : e = .emptyPattern rule := by
  cases parts with
  | nil => exact List.mem_singleton.1 h
  | cons p ps => exact absurd h List.not_mem_nil

/-- A fault is a missing part, or a reference to what is not there. -/
def IsFaultOf (lookup : Lookup) (rule : Name) (references : List Name) (e : ExpansionError) : Prop :=
  e = .emptyPattern rule ∨ ∃ id ∈ references, lookup id = none ∧ e = .notExpanded id

/-- With more references around it, a fault is one still. -/
theorem IsFaultOf.of_subset {ids ids' : List Name} {e : ExpansionError} (h : IsFaultOf lookup rule ids e)
    (hsub : ∀ id ∈ ids, id ∈ ids') : IsFaultOf lookup rule ids' e := by
  refine h.imp_right ?_
  rintro ⟨id, hid, hnone⟩
  exact ⟨id, hsub id hid, hnone⟩

mutual

/-- Every fault listed for a term is a part that is missing in it, or a reference of its own that cannot be looked
up. -/
theorem Term.isFaultOf_of_mem {e : ExpansionError} : ∀ t : Term, e ∈ t.faults lookup rule →
    IsFaultOf lookup rule t.references e
  | .literals _ _, h => absurd h List.not_mem_nil
  | .reference id _, h => by
    rw [Term.faults] at h
    cases hid : lookup id with
    | some texts =>
      rw [hid] at h
      exact absurd h List.not_mem_nil
    | none =>
      rw [hid] at h
      exact .inr ⟨id, List.mem_singleton_self id, hid, List.mem_singleton.1 h⟩
  | .group body _, h => by
    rcases List.mem_append.1 h with hwithin | hnone
    · exact Sequence.isFaultOf_of_mem body hwithin
    · exact .inl (eq_of_mem_faultOfNone hnone)

theorem Alternation.isFaultOf_of_mem {e : ExpansionError} : ∀ ts : List Term,
    e ∈ Alternation.faultsWithin lookup rule ts → IsFaultOf lookup rule (Alternation.references ts) e
  | [], h => absurd h List.not_mem_nil
  | t :: ts, h => by
    rw [Alternation.references]
    rcases List.mem_append.1 h with ht | hts
    · exact (Term.isFaultOf_of_mem t ht).of_subset fun id => List.mem_append_left _
    · exact (Alternation.isFaultOf_of_mem ts hts).of_subset fun id => List.mem_append_right _

theorem Sequence.isFaultOf_of_mem {e : ExpansionError} : ∀ gs : List (List Term),
    e ∈ Sequence.faultsWithin lookup rule gs → IsFaultOf lookup rule (Sequence.references gs) e
  | [], h => absurd h List.not_mem_nil
  | g :: gs, h => by
    rw [Sequence.references]
    rw [Sequence.faultsWithin, List.append_assoc] at h
    rcases List.mem_append.1 h with hg | h
    · exact (Alternation.isFaultOf_of_mem g hg).of_subset fun id => List.mem_append_left _
    rcases List.mem_append.1 h with hnone | hgs
    · exact .inl (eq_of_mem_faultOfNone hnone)
    · exact (Sequence.isFaultOf_of_mem gs hgs).of_subset fun id => List.mem_append_right _

end

/-- The same for a sequence, which may be empty itself. -/
theorem Sequence.isFaultOf_of_mem_faults {gs : Sequence} {e : ExpansionError}
    (h : e ∈ Sequence.faults lookup rule gs) : IsFaultOf lookup rule (Sequence.references gs) e := by
  rcases List.mem_append.1 h with hwithin | hnone
  · exact Sequence.isFaultOf_of_mem gs hwithin
  · exact .inl (eq_of_mem_faultOfNone hnone)

/-- A sequence is free of faults just if it is not hollow and all that it refers to can be looked up. -/
theorem Sequence.faults_eq_nil_iff {gs : Sequence} :
    Sequence.faults lookup rule gs = [] ↔
      Sequence.isHollow gs = false ∧ ∀ id ∈ Sequence.references gs, (lookup id).isSome = true := by
  rw [Sequence.faults, List.append_eq_nil_iff, Sequence.faultsWithin_eq_nil_iff,
    faultOfNone_eq_nil_iff, Sequence.isHollow, Bool.or_eq_false_iff]
  exact ⟨fun h => ⟨⟨h.2, h.1.1⟩, h.1.2⟩, fun h => ⟨⟨h.1.2, h.2⟩, h.1.1⟩⟩

/-- With every reference at hand, a sequence is expanded unless it is hollow. -/
theorem Sequence.expand_of_found {gs : Sequence}
    (href : ∀ id ∈ Sequence.references gs, (lookup id).isSome = true) :
    Sequence.expand lookup rule gs =
      if Sequence.isHollow gs then .error (.emptyPattern rule)
      else .ok (Sequence.evaluate .marked lookup.table gs) := by
  have hmem : ∀ e ∈ Sequence.faults lookup rule gs, e = .emptyPattern rule := by
    intro e he
    refine (Sequence.isFaultOf_of_mem_faults he).resolve_right ?_
    rintro ⟨id, hid, hnone, -⟩
    have hfound := href id hid
    rw [hnone] at hfound
    exact absurd hfound Bool.false_ne_true
  have hnil : Sequence.faults lookup rule gs = [] ↔ Sequence.isHollow gs = false := by
    rw [Sequence.faults_eq_nil_iff]
    exact and_iff_left href
  -- all faults are alike, so it is enough to know whether there is one
  rw [Sequence.expand_eq]
  cases hfaults : Sequence.faults lookup rule gs with
  | nil =>
    rw [hnil.1 hfaults]
    rfl
  | cons e es =>
    have hhollow : Sequence.isHollow gs = true := by
      rw [← Bool.not_eq_false, ← hnil, hfaults]
      exact List.cons_ne_nil e es
    rw [hmem e (by rw [hfaults]; exact List.mem_cons_self), hhollow]
    rfl

end Found

end UtteranceGrammar
