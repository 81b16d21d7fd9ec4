/-
The outlines of texts, computed from patterns alone.

An outline is what spacing sees of a text: whether there is more than white space in it, whether white space stands
at its ends, and whether there are two spaces side by side between. The outline of two texts joined by a space
follows from theirs. So patterns can be evaluated over outlines, with a solid for every literal and for every
reference, and what comes out (`Rule.outlines`) depends on nothing but which parts may be left out.

These are the outlines of the texts that the pattern folds to, no more and no fewer, as long as all that it is made
of looks like a solid. There are two readings of that. For the ends of texts it is enough that literals and the
texts of other rules are tidy (`Outline.Bounds`). For what is between the ends they must be sparse too
(`Outline.Fits`).
-/
import UtteranceGrammar.Proofs.Expansion.Coverage
import UtteranceGrammar.Proofs.Text.Spacing

set_option autoImplicit false

namespace UtteranceGrammar

/-- What spacing sees of a text. -/
structure Outline where
  /-- There is more than white space. -/
  inked : Bool
  /-- White space stands at the front, or there is no text. -/
  lead : Bool
  /-- White space stands at the end, or there is no text. -/
  trail : Bool
  /-- Two spaces stand side by side, with more than white space on either side of them. -/
  gap : Bool
deriving DecidableEq, Repr

namespace Outline

/-- A text with no white space at its ends and no gap between. -/
def solid : Outline := ⟨true, false, false, false⟩

/-- White space alone, or no text at all. -/
def nothing : Outline := ⟨false, true, true, false⟩

/-- The outline of two texts joined by a space. White space where they meet widens that space to a gap, if there is
something in front of it and behind. -/
def spaced (l r : Outline) : Outline where
  inked := l.inked || r.inked
  lead := l.lead
  trail := r.trail
  gap := l.gap || r.gap || (l.inked && r.inked && (l.trail || r.lead))

end Outline

/-- Outlines, a literal being solid whatever is in it. -/
def Interpretation.outlined : Interpretation Outline := ⟨fun _ => .solid, .spaced, .nothing⟩

namespace Rule

/-- The outlines of what the rule's pattern folds to, with a solid for each rule that it refers to. -/
def outlines (r : Rule) : List Outline := Sequence.evaluate .outlined (fun _ => [.solid]) r.body

/-- Whatever is left out, no white space is left at either end. -/
def EndsSolid (r : Rule) : Prop := ∀ o ∈ r.outlines, o.lead = false ∧ o.trail = false

/-- Whatever is left out, no space is left beside another one. -/
def GapFree (r : Rule) : Prop := ∀ o ∈ r.outlines, o.gap = false

instance (r : Rule) : Decidable r.EndsSolid := inferInstanceAs (Decidable (∀ o ∈ r.outlines, _))

instance (r : Rule) : Decidable r.GapFree := inferInstanceAs (Decidable (∀ o ∈ r.outlines, _))

/-- The outlines are those of the rule's results: each is met by a result, and each result by one of them. -/
theorem outlines_met {R : Outline → Utterance → Prop} (hkeeps : Interpretation.Keeps R .outlined .annotated)
    {table : Name → List Utterance} {r : Rule} (hlit : ∀ s ∈ r.items, R .solid (.ofText s))
    (href : ∀ id ∈ r.references, table id ≠ [] ∧ ∀ u ∈ table id, R .solid u) :
    (∀ o ∈ r.outlines, ∃ u ∈ Sequence.evaluate .annotated table r.body, R o u) ∧
      ∀ u ∈ Sequence.evaluate .annotated table r.body, ∃ o ∈ r.outlines, R o u := by
  constructor
  · refine Sequence.exists_mem_evaluate hkeeps r.body hlit fun id hid o ho => ?_
    rw [List.mem_singleton] at ho
    rw [ho]
    obtain ⟨u, hu⟩ := List.exists_mem_of_ne_nil _ (href id hid).1
    exact ⟨u, hu, (href id hid).2 u hu⟩
  · refine Sequence.exists_mem_evaluate hkeeps.flip r.body hlit fun id hid u hu => ?_
    exact ⟨.solid, List.mem_singleton_self _, (href id hid).2 u hu⟩

/-- In a pattern `a, (b?, c?), d`, nothing is left of the group if both of its parts are left out. -/
example : outlines ⟨"r", .intent, [[.reference "a" false],
    [.group [[.reference "b" true], [.reference "c" true]] false], [.reference "d" false]]⟩ =
      [.solid, .solid, .solid, ⟨true, false, false, true⟩] := by decide

end Rule

namespace Outline

/-! ## Ends -/

/-- The outline tells of the ends of the text. -/
structure Bounds (o : Outline) (s : Text) : Prop where
  solidStart_iff : s.SolidStart ↔ o.lead = false
  solidEnd_iff : s.SolidEnd ↔ o.trail = false

/-- The solid outline tells of the ends of a tidy text. -/
theorem bounds_solid {s : Text} (h : s.Tidy) : solid.Bounds s := by
  rw [Text.tidy_iff] at h
  exact ⟨iff_of_true h.1 rfl, iff_of_true h.2 rfl⟩

/-- The outline of nothing tells of the ends of the empty text. -/
theorem bounds_nothing : nothing.Bounds [] :=
  ⟨iff_of_false Text.not_solidStart_nil Bool.noConfusion,
    iff_of_false Text.not_solidEnd_nil Bool.noConfusion⟩

/-- Tidiness is read off the ends of the outline. -/
theorem Bounds.tidy_iff {o : Outline} {s : Text} (h : o.Bounds s) :
    s.Tidy ↔ o.lead = false ∧ o.trail = false := by
  rw [Text.tidy_iff, h.solidStart_iff, h.solidEnd_iff]

/-- Of two joined texts, the first one has the front and the second one the end. -/
theorem Bounds.spaced {o p : Outline} {l r : Text} (hl : o.Bounds l) (hr : p.Bounds r) :
    (o.spaced p).Bounds (Variants.spaced l r) := by
  refine ⟨?_, ?_⟩
  · rw [Outline.spaced, ← hl.solidStart_iff, Variants.spaced]
    refine ⟨fun h => ?_, fun h => h.append _⟩
    by_cases hnil : l = []
    · rw [hnil] at h
      exact absurd h (Text.not_solidStart_space r)
    · exact h.of_append hnil
  · rw [Outline.spaced, ← hr.solidEnd_iff, Variants.spaced, ← List.singleton_append, ← List.append_assoc]
    refine ⟨fun h => ?_, fun h => h.append_left _⟩
    by_cases hnil : r = []
    · rw [hnil, List.append_nil] at h
      exact absurd (h.of_append (List.cons_ne_nil _ _)) Text.not_solidEnd_space
    · exact h.of_append hnil

/-- Outlines tell of the ends all the way through an evaluation. -/
theorem keeps_bounds :
    Interpretation.Keeps (fun (o : Outline) (u : Utterance) => o.Bounds u.text) .outlined .annotated :=
  ⟨fun hl hr => hl.spaced hr, bounds_nothing⟩

/-! ## Gaps -/

/-- The outline tells of a text that is tidy but for spaces around it, or is made of spaces. -/
inductive Fits : Outline → Text → Prop where
  | blank (n : Nat) : Fits nothing (List.replicate n ' ')
  | inked (m n : Nat) {s : Text} (hs : s.Tidy) :
    Fits ⟨true, decide (0 < m), decide (0 < n), !decide s.Sparse⟩
      (List.replicate m ' ' ++ (s ++ List.replicate n ' '))

/-- A tidy text without two spaces fits the solid outline. -/
theorem fits_solid {s : Text} (h : s.Tidy) (hsparse : s.Sparse) : solid.Fits s := by
  have hfits := Fits.inked 0 0 h
  rw [decide_eq_true hsparse, List.replicate_zero, List.nil_append, List.append_nil] at hfits
  exact hfits

theorem isBlank_of_mem_replicate {n : Nat} {c : Char} (h : c ∈ List.replicate n ' ') :
    Text.isBlank c = true := by
  rw [List.eq_of_mem_replicate h]
  decide

/-- Whether there is a gap is seen when the spaces around are gone. -/
theorem Fits.sparse_iff {o : Outline} {s : Text} (h : o.Fits s) : (Text.trim s).Sparse ↔ o.gap = false := by
  cases h with
  | blank n =>
    rw [Text.trim_eq_nil_iff.2 fun c hc => isBlank_of_mem_replicate hc]
    decide
  | inked m n hs =>
    rw [Text.trim_append (fun c hc => isBlank_of_mem_replicate hc) fun c hc => isBlank_of_mem_replicate hc,
      hs.2, Bool.not_eq_false', decide_eq_true_iff]

/-- The spaces of both texts and the one between them. -/
theorem replicate_spaced (m n : Nat) :
    List.replicate m ' ' ++ ' ' :: List.replicate n ' ' = List.replicate (m + n + 1) ' ' := by
  rw [Nat.add_right_comm, List.replicate_add, List.replicate_succ', List.append_assoc, List.singleton_append]

/-- Joined texts fit the joined outlines. Where ink stands on both sides, the spaces that meet are a gap as soon as
either side has one of its own. -/
theorem Fits.spaced {o p : Outline} {l r : Text} (hl : o.Fits l) (hr : p.Fits r) :
    (o.spaced p).Fits (Variants.spaced l r) := by
  rw [Variants.spaced]
  cases hl with
  | blank m =>
    cases hr with
    | blank n =>
      convert Fits.blank (m + n + 1) using 1
      · rfl
      · exact replicate_spaced m n
    | inked n k hs =>
      convert Fits.inked (m + n + 1) k hs using 1
      · simp [Outline.spaced, nothing]
      · rw [← replicate_spaced, List.append_assoc, List.cons_append]
  | inked m n hs =>
    cases hr with
    | blank k =>
      convert Fits.inked m (n + k + 1) hs using 1
      · simp [Outline.spaced, nothing]
      · rw [← replicate_spaced, List.append_assoc, List.append_assoc]
    | @inked k j t ht =>
      rename_i s
      have hs' := Text.tidy_iff.1 hs
      have ht' := Text.tidy_iff.1 ht
      -- both texts and the spaces between them are one tidy text
      have htidy : (s ++ (List.replicate (n + k + 1) ' ' ++ t)).Tidy :=
        Text.tidy_iff.2 ⟨hs'.1.append _, (ht'.2.append_left _).append_left s⟩
      convert Fits.inked m j htidy using 1
      · have hgap := Text.sparse_append_replicate hs'.2 ht'.1 (n + k)
        rw [Outline.spaced, mk.injEq]
        refine ⟨rfl, rfl, rfl, ?_⟩
        rw [Bool.eq_iff_iff]
        simp [hgap, or_assoc, Nat.pos_iff_ne_zero]
      · rw [← replicate_spaced]
        simp only [List.append_assoc, List.cons_append]

/-- Texts fit their outlines all the way through an evaluation. -/
theorem keeps_fits :
    Interpretation.Keeps (fun (o : Outline) (u : Utterance) => o.Fits u.text) .outlined .annotated :=
  ⟨fun hl hr => hl.spaced hr, .blank 0⟩

end Outline

end UtteranceGrammar
