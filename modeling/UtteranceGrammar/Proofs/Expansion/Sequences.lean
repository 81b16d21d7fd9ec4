/-
What a sequence is expanded to, told by what its alternations are expanded to.

An alternation offers the texts of its terms, one term after the other, and a single term that may be left out
offers to take nothing. If a sequence of two or more alternations can be expanded, its texts are the choices from
these offers, each made into one text (`Sequence.expand_offers`). That is the combinatorics of parts in a row;
what this file adds is that expansion, where it succeeds, has no other part in the result than handing over the
offers, and that marks on the terms of a longer alternation do not come into them. The latter holds at any depth:
a pattern in which such marks are dropped everywhere is expanded to the same texts, or refused for the same fault.
-/
import UtteranceGrammar.Proofs.Expansion.Choices

set_option autoImplicit false

namespace UtteranceGrammar

/-! ## Marks that have no effect -/

/-- The term as one that may not be left out. -/
def Term.asRequired : Term → Term
  | .literals items _ => .literals items false
  | .reference id _ => .reference id false
  | .group body _ => .group body false

/-- An alternation without the marks of its terms, unless it is a single term. -/
def Alternation.dropMarks : Alternation → Alternation
  | [t] => [t]
  | ts => ts.map Term.asRequired

mutual

/-- A term in whose body no term of an alternation has a mark, unless it is the only one. -/
def Term.dropIdleMarks : Term → Term
  | .literals items optional => .literals items optional
  | .reference id optional => .reference id optional
  | .group body optional => .group (Sequence.dropIdleMarks body) optional

/-- Terms with their bodies so treated. -/
def Alternation.dropIdleMarks : List Term → List Term
  | [] => []
  | t :: ts => t.dropIdleMarks :: Alternation.dropIdleMarks ts

/-- A sequence in which, at any depth, no term of an alternation has a mark, unless it is the only one. -/
def Sequence.dropIdleMarks : List (List Term) → List (List Term)
  | [] => []
  | g :: gs => Alternation.dropMarks (Alternation.dropIdleMarks g) :: Sequence.dropIdleMarks gs

end

section Marks

variable (lookup : Lookup) (rule : Name)

/-- The texts of a term do not depend on its mark. -/
theorem Term.expand_asRequired (t : Term) :
    Term.expand lookup rule t.asRequired = Term.expand lookup rule t := by
  cases t <;> simp only [asRequired, Term.expand]

/-- The terms of an alternation yield the same without their marks. -/
theorem Alternation.expandEach_dropMarks (ts : Alternation) :
    Alternation.expandEach lookup rule (Alternation.dropMarks ts)
      = Alternation.expandEach lookup rule ts := by
  have hmap : Alternation.expandEach lookup rule (ts.map Term.asRequired)
      = Alternation.expandEach lookup rule ts := by
    induction ts with
    | nil => rfl
    | cons t ts ih =>
      rw [List.map_cons, Alternation.expandEach, Alternation.expandEach, Term.expand_asRequired, ih]
  match ts with
  | [] => rfl
  | [_] => rfl
  | _ :: _ :: _ => exact hmap

/-- An alternation of two or more terms is not asked for marks, and one of a single term keeps its own. -/
theorem Alternation.variants_dropMarks (ts : Alternation) :
    Alternation.variants rule (Alternation.dropMarks (Alternation.dropIdleMarks ts))
      = Alternation.variants rule ts := by
  funext texts
  match ts with
  | [] => rfl
  | [t] => cases t <;> rfl
  | _ :: _ :: _ => rfl

mutual

/-- A term yields the same without the idle marks in its body. -/
theorem Term.expand_dropIdleMarks : ∀ t : Term,
    Term.expand lookup rule t.dropIdleMarks = Term.expand lookup rule t
  | .literals _ _ => rfl
  | .reference _ _ => rfl
  | .group body _ => by
    rw [Term.dropIdleMarks, Term.expand, Term.expand, Sequence.expandEach_dropIdleMarks body]

theorem Alternation.expandEach_dropIdleMarks : ∀ ts : List Term,
    Alternation.expandEach lookup rule (Alternation.dropIdleMarks ts)
      = Alternation.expandEach lookup rule ts
  | [] => rfl
  | t :: ts => by
    rw [Alternation.dropIdleMarks, Alternation.expandEach, Alternation.expandEach,
      Term.expand_dropIdleMarks t, Alternation.expandEach_dropIdleMarks ts]

theorem Sequence.expandEach_dropIdleMarks : ∀ gs : List (List Term),
    Sequence.expandEach lookup rule (Sequence.dropIdleMarks gs) = Sequence.expandEach lookup rule gs
  | [] => rfl
  | g :: gs => by
    rw [Sequence.dropIdleMarks, Sequence.expandEach, Sequence.expandEach,
      Alternation.expandEach_dropMarks, Alternation.expandEach_dropIdleMarks g,
      Alternation.variants_dropMarks, Sequence.expandEach_dropIdleMarks gs]

end

/-- A pattern is expanded alike with and without its idle marks. -/
theorem Sequence.expand_dropIdleMarks (gs : Sequence) :
    Sequence.expand lookup rule (Sequence.dropIdleMarks gs) = Sequence.expand lookup rule gs := by
  rw [Sequence.expand, Sequence.expand, Sequence.expandEach_dropIdleMarks]

end Marks

/-! ## What alternations offer -/

section Offers

variable (lookup : Lookup) (rule : Name)

/-- The texts of a term. Where it cannot be expanded there are none. -/
def Term.yield (t : Term) : List Text := (Term.expand lookup rule t).toOption.getD []

/-- The texts of an alternation, one term after the other, and whether it is a single term that may be left
out. -/
def Alternation.offer (g : Alternation) : Variants :=
  ⟨g.flatMap (Term.yield lookup rule), Alternation.isOptional g⟩

variable {lookup rule}

/-- Where two steps succeed, so does the first, and the second on what it gave. -/
theorem exists_of_bind_eq_ok {α β : Type} {x : Except ExpansionError α}
    {f : α → Except ExpansionError β} {y : β} (h : x >>= f = .ok y) :
    ∃ a, x = .ok a ∧ f a = .ok y := by
  cases x with
  | error e => cases h
  | ok a => exact ⟨a, rfl, h⟩

/-- The texts of an alternation are those of its terms, one after the other. -/
theorem Alternation.flatten_of_expandEach {ts : List Term} {texts : List (List Text)}
    (h : Alternation.expandEach lookup rule ts = .ok texts) :
    texts.flatten = ts.flatMap (Term.yield lookup rule) := by
  induction ts generalizing texts with
  | nil =>
    obtain rfl := Except.ok.inj h
    rfl
  | cons t ts ih =>
    rw [Alternation.expandEach] at h
    obtain ⟨first, hfirst, h⟩ := exists_of_bind_eq_ok h
    obtain ⟨others, hothers, h⟩ := exists_of_bind_eq_ok h
    obtain rfl := Except.ok.inj h
    rw [List.flatten_cons, ih hothers, List.flatMap_cons, Term.yield, hfirst]
    rfl

/-- An alternation that can be expanded gives what it offers. -/
theorem Alternation.eq_offer {g : Alternation} {v : Variants}
    (h : Alternation.expand lookup rule g = .ok v) : v = Alternation.offer lookup rule g := by
  rw [Alternation.expand] at h
  obtain ⟨texts, htexts, hv⟩ := exists_of_bind_eq_ok h
  rw [Alternation.variants_eq, Alternation.flatten_of_expandEach htexts] at hv
  cases hnone : faultOfNone rule g with
  | nil =>
    rw [hnone] at hv
    exact (Except.ok.inj hv).symm
  | cons e es =>
    rw [hnone] at hv
    cases hv

/-- If a sequence can be expanded, each of its alternations can, and hands over what it offers. -/
theorem Sequence.eq_offers {gs : List (List Term)} {vs : List Variants}
    (h : Sequence.expandEach lookup rule gs = .ok vs) :
    vs = gs.map (Alternation.offer lookup rule) ∧
    ∀ g ∈ gs, Alternation.expand lookup rule g = .ok (Alternation.offer lookup rule g) := by
  induction gs generalizing vs with
  | nil => exact ⟨(Except.ok.inj h).symm, by simp⟩
  | cons g gs ih =>
    rw [Sequence.expandEach] at h
    obtain ⟨texts, htexts, h⟩ := exists_of_bind_eq_ok h
    obtain ⟨v, hv, h⟩ := exists_of_bind_eq_ok h
    obtain ⟨others, hothers, h⟩ := exists_of_bind_eq_ok h
    obtain rfl := Except.ok.inj h
    obtain ⟨rfl, hmem⟩ := ih hothers
    have hg : Alternation.expand lookup rule g = .ok v := by
      rw [Alternation.expand, htexts]
      exact hv
    obtain rfl := Alternation.eq_offer hg
    exact ⟨rfl, List.forall_mem_cons.2 ⟨hg, hmem⟩⟩

/-- **The texts of a sequence of two or more alternations.** There is one for each choice from what the
alternations offer, so their number is the product of the numbers of offers. Marks that have no effect on the
offers have none on the texts, wherever they stand in the sequence. If no alternation may be left out, the texts
are in the order of the choices. -/
theorem Sequence.expand_offers {gs : Sequence} {texts : List Text} (hlength : 2 ≤ gs.length)
    (h : Sequence.expand lookup rule gs = .ok texts) :
    (∀ g ∈ gs, Alternation.expand lookup rule g = .ok (Alternation.offer lookup rule g)) ∧
    texts.Perm ((selections (gs.map fun g => (Alternation.offer lookup rule g).choices)).map joined) ∧
    texts.length = (gs.map fun g =>
      (Alternation.offer lookup rule g).texts.length + if Alternation.isOptional g then 1 else 0).prod ∧
    (∀ hs : Sequence, Sequence.dropIdleMarks hs = Sequence.dropIdleMarks gs →
      Sequence.expand lookup rule hs = .ok texts) ∧
    ((∀ g ∈ gs, Alternation.isOptional g = false) →
      texts = (selections (gs.map fun g => (Alternation.offer lookup rule g).texts)).map
        [' '].intercalate) := by
  have hsame : ∀ hs : Sequence, Sequence.dropIdleMarks hs = Sequence.dropIdleMarks gs →
      Sequence.expand lookup rule hs = .ok texts := by
    intro hs hdrop
    rw [← Sequence.expand_dropIdleMarks, hdrop, Sequence.expand_dropIdleMarks, h]
  rw [Sequence.expand] at h
  obtain ⟨vs, hvs, htexts⟩ := exists_of_bind_eq_ok h
  obtain ⟨rfl, hoffers⟩ := Sequence.eq_offers hvs
  rcases gs with _ | ⟨g₁, _ | ⟨g₂, gs⟩⟩
  · simp at hlength
  · simp at hlength
  · have hall : texts = ((Alternation.offer lookup rule g₁).followedByAll
        ((g₂ :: gs).map (Alternation.offer lookup rule))).texts := (Except.ok.inj htexts).symm
    have hperm : texts.Perm ((selections ((g₁ :: g₂ :: gs).map fun g =>
        (Alternation.offer lookup rule g).choices)).map joined) := by
      rw [hall, List.map_cons]
      have hchoices := Variants.perm_followedByAll (Alternation.offer lookup rule g₁)
        (Alternation.offer lookup rule g₂) (gs.map (Alternation.offer lookup rule))
      rwa [← List.map_cons, ← List.map_cons, List.map_map] at hchoices
    refine ⟨hoffers, hperm, ?_, hsame, ?_⟩
    · rw [hperm.length_eq, List.length_map, length_selections, List.map_map]
      congr 1
      exact List.map_congr_left fun g _ => Variants.length_choices _
    · intro hrequired
      rw [List.forall_mem_cons] at hrequired
      have hothers : ∀ w ∈ (g₂ :: gs).map (Alternation.offer lookup rule), w.optional = false := by
        rw [List.forall_mem_map]
        exact hrequired.2
      rw [hall, Variants.texts_followedByAll hrequired.1 hothers, ← List.map_cons, List.map_map]
      rfl

end Offers

/-- `please? %city? (now | now?)`, to be expanded where only the texts of `city` are known. -/
def hurried : Sequence :=
  [[.literals ["please".toList] true], [.reference "city" true],
    [.literals ["now".toList] false, .literals ["now".toList] true]]

/-- The texts of `city`, and of no other rule. -/
def citiesOnly : Lookup := fun id => if id = "city" then some ["Paris".toList] else none

/-- The texts of `hurried`. The word that can be chosen in two ways comes twice each time. Where it comes alone, a
space is in front of it. -/
def hurriedTexts : List Text :=
  ["please Paris now", "please Paris now", "Paris now", "Paris now", "please now", "please now", " now",
    " now"].map String.toList

/-- One text for each choice, and without the mark on the second `now` the texts are the same. -/
theorem Sequence.expand_offers_hurried :
    Sequence.expand citiesOnly "go" hurried = .ok hurriedTexts ∧
    hurriedTexts.Perm
      ((selections (hurried.map fun g => (Alternation.offer citiesOnly "go" g).choices)).map joined) ∧
    hurried ≠ Sequence.dropIdleMarks hurried ∧
    Sequence.expand citiesOnly "go" (Sequence.dropIdleMarks hurried) = .ok hurriedTexts := by
  have hexpand : Sequence.expand citiesOnly "go" hurried = .ok hurriedTexts := by decide +kernel
  obtain ⟨-, hperm, -, hmarks, -⟩ := Sequence.expand_offers (by decide) hexpand
  exact ⟨hexpand, hperm, by decide +kernel, hmarks _ (by decide +kernel)⟩

end UtteranceGrammar
