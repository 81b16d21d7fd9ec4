/-
White space at the ends of texts and inside them.

A text is tidy if a character that is no white space stands at either end of it (`Text.tidy_iff`), and sparse if no
two spaces stand side by side in it. What trimming leaves of a text does not depend on white space around it
(`Text.trim_append`), and that holds for utterances too, although their spans stop the trimming early
(`Utterance.trim_text_trim`). How many spaces there are between two tidy texts decides whether both together are sparse
(`Text.sparse_append_replicate`).
-/
import Mathlib.Data.List.Chain
import UtteranceGrammar.Proofs.Utterance.Annotated

set_option autoImplicit false

namespace UtteranceGrammar

namespace Text

/-! ## The ends of a text -/

/-- The text begins with a character that is no white space. -/
def SolidStart (s : Text) : Prop := ∃ c t, s = c :: t ∧ isBlank c = false

/-- The text ends with a character that is no white space. -/
def SolidEnd (s : Text) : Prop := ∃ t c, s = t ++ [c] ∧ isBlank c = false

/-- What is appended does not change the front. -/
theorem SolidStart.append {s : Text} (h : SolidStart s) (t : Text) : SolidStart (s ++ t) := by
  obtain ⟨c, s, rfl, hc⟩ := h
  exact ⟨c, s ++ t, rfl, hc⟩

theorem SolidEnd.append_left {t : Text} (h : SolidEnd t) (s : Text) : SolidEnd (s ++ t) := by
  obtain ⟨t, c, rfl, hc⟩ := h
  exact ⟨s ++ t, c, (List.append_assoc s t [c]).symm, hc⟩

/-- The front is that of the first part, if that is not empty. -/
theorem SolidStart.of_append {s t : Text} (h : SolidStart (s ++ t)) (hne : s ≠ []) : SolidStart s := by
  obtain ⟨c, r, heq, hc⟩ := h
  obtain ⟨d, s, rfl⟩ := List.exists_cons_of_ne_nil hne
  rw [List.cons_append, List.cons.injEq] at heq
  exact ⟨c, s, by rw [heq.1], hc⟩

theorem SolidEnd.of_append {s t : Text} (h : SolidEnd (s ++ t)) (hne : t ≠ []) : SolidEnd t := by
  obtain ⟨r, c, heq, hc⟩ := h
  obtain ⟨t, d, rfl⟩ := (List.eq_nil_or_concat' t).resolve_left hne
  rw [← List.append_assoc, List.append_singleton_inj] at heq
  exact ⟨t, c, by rw [heq.2], hc⟩

/-- The empty text has no front. -/
theorem not_solidStart_nil : ¬SolidStart [] := by
  rintro ⟨c, t, hnil, -⟩
  exact List.cons_ne_nil c t hnil.symm

theorem not_solidEnd_nil : ¬SolidEnd [] := by
  rintro ⟨t, c, hnil, -⟩
  exact List.append_ne_nil_of_right_ne_nil t (List.cons_ne_nil c []) hnil.symm

theorem not_solidStart_space (s : Text) : ¬SolidStart (' ' :: s) := by
  rintro ⟨c, t, heq, hc⟩
  rw [List.cons.injEq] at heq
  rw [← heq.1] at hc
  exact absurd hc (by decide)

theorem not_solidEnd_space : ¬SolidEnd [' '] := by
  rintro ⟨t, c, heq, hc⟩
  rw [← List.nil_append [' '], List.append_singleton_inj] at heq
  rw [← heq.2] at hc
  exact absurd hc (by decide)

/-- A text from whose front nothing is trimmed is empty or solid there. -/
theorem solidStart_of_trimStart_eq {s : Text} (hne : s ≠ []) (h : trimStart s = s) : SolidStart s := by
  obtain ⟨c, t, rfl⟩ := List.exists_cons_of_ne_nil hne
  have hhead := List.head?_dropWhile_not isBlank (c :: t)
  rw [← trimStart, h] at hhead
  exact ⟨c, t, rfl, hhead⟩

theorem solidEnd_of_trimEnd_eq {s : Text} (hne : s ≠ []) (h : trimEnd s = s) : SolidEnd s := by
  have hreverse : trimStart s.reverse = s.reverse := by
    rw [← List.reverse_inj, List.reverse_reverse]
    exact h
  obtain ⟨c, t, hs, hc⟩ :=
    solidStart_of_trimStart_eq (fun hnil => hne (List.reverse_eq_nil_iff.1 hnil)) hreverse
  refine ⟨t.reverse, c, ?_, hc⟩
  rw [← List.reverse_cons, ← hs, List.reverse_reverse]

/-- Nothing is trimmed from a solid front. -/
theorem SolidStart.trimStart_eq {s : Text} (h : SolidStart s) : trimStart s = s := by
  obtain ⟨c, t, rfl, hc⟩ := h
  rw [trimStart, List.dropWhile_cons_of_neg (by rw [hc]; exact Bool.false_ne_true)]

theorem SolidEnd.trimEnd_eq {s : Text} (h : SolidEnd s) : trimEnd s = s := by
  obtain ⟨t, c, rfl, hc⟩ := h
  rw [trimEnd, List.reverse_append, List.reverse_singleton, List.singleton_append,
    List.dropWhile_cons_of_neg (by rw [hc]; exact Bool.false_ne_true), List.reverse_cons,
    List.reverse_reverse]

/-- A text is tidy if there is no white space at either end of it, and something between. -/
theorem tidy_iff {s : Text} : Tidy s ↔ SolidStart s ∧ SolidEnd s := by
  constructor
  · rintro ⟨hne, htrim⟩
    exact ⟨solidStart_of_trimStart_eq hne (trimStart_of_trim_eq htrim),
      solidEnd_of_trimEnd_eq hne (trimEnd_of_trim_eq htrim)⟩
  · rintro ⟨hstart, hend⟩
    refine ⟨fun hnil => ?_, ?_⟩
    · rw [hnil] at hstart
      exact not_solidStart_nil hstart
    · rw [trim, hstart.trimStart_eq, hend.trimEnd_eq]

/-! ## White space around a text -/

/-- Trimming takes away all of a text if there is nothing but white space in it. -/
theorem trim_eq_nil_iff {s : Text} : trim s = [] ↔ ∀ c ∈ s, isBlank c = true := by
  rw [← List.dropWhile_eq_nil_iff, ← trimStart]
  constructor
  · intro h
    by_contra hne
    -- what trimming the front leaves begins with a character that trimming the end keeps
    have hstart : SolidStart (trimStart s) :=
      solidStart_of_trimStart_eq hne (List.dropWhile_idempotent isBlank s)
    obtain ⟨c, t, heq, hc⟩ := hstart
    have hblank := isBlank_of_trimEnd_eq_nil h c (by rw [heq]; exact List.mem_cons_self)
    rw [hc] at hblank
    exact Bool.false_ne_true hblank
  · intro h
    rw [trim, h]
    rfl

/-- A text has no words if there is nothing in it but separators and white space. -/
theorem words_eq_nil_iff {separates : Char → Bool} {s : Text} :
    words separates s = [] ↔ ∀ c ∈ s, separates c = true ∨ isBlank c = true := by
  have hpieces : words separates s = [] ↔ ∀ p ∈ split separates s, ∀ c ∈ p, isBlank c = true := by
    simp only [words, List.filter_eq_nil_iff, List.forall_mem_map, Bool.not_eq_true', Bool.not_eq_false,
      List.isEmpty_iff, trim_eq_nil_iff]
  rw [hpieces]
  constructor
  · intro h c hc
    rw [or_iff_not_imp_left, Bool.not_eq_true]
    intro hseparates
    obtain ⟨p, hp, hcp⟩ := exists_mem_split hc hseparates
    exact h p hp c hcp
  · intro h p hp c hcp
    obtain ⟨hc, hseparates⟩ := mem_split hp c hcp
    refine (h c hc).resolve_left ?_
    rw [hseparates]
    exact Bool.false_ne_true

/-- White space around a text makes no difference to what trimming leaves. -/
theorem trim_append {s r : Text} (hs : ∀ c ∈ s, isBlank c = true) (hr : ∀ c ∈ r, isBlank c = true)
    (t : Text) : trim (s ++ (t ++ r)) = trim t := by
  have hfront : trimStart (s ++ (t ++ r)) = trimStart (t ++ r) := by
    rw [trimStart, List.dropWhile_append_of_pos hs]
    rfl
  by_cases hnil : trimStart t = []
  · have ht : ∀ c ∈ t, isBlank c = true := List.dropWhile_eq_nil_iff.1 hnil
    rw [trim_eq_nil_iff.2 ht, trim_eq_nil_iff]
    intro c hc
    rw [List.mem_append, List.mem_append] at hc
    exact hc.elim (hs c) fun hc => hc.elim (ht c) (hr c)
  · have hback : trimStart (t ++ r) = trimStart t ++ r := by
      rw [trimStart, List.dropWhile_append, if_neg (by rwa [List.isEmpty_iff])]
      rfl
    rw [trim, hfront, hback, trimEnd_append_of_blank hr, trim]

/-- Trimming the end takes white space off, and nothing else. -/
theorem exists_eq_trimEnd_append (s : Text) : ∃ r, s = trimEnd s ++ r ∧ ∀ c ∈ r, isBlank c = true := by
  refine ⟨(s.reverse.takeWhile isBlank).reverse, ?_, fun c hc => ?_⟩
  · rw [trimEnd, ← List.reverse_append, List.takeWhile_append_dropWhile, List.reverse_reverse]
  · exact List.mem_takeWhile_imp (List.mem_reverse.1 hc)

/-! ## Inside a text -/

/-- No two spaces stand side by side. -/
def Sparse (s : Text) : Prop := ¬[' ', ' '] <:+: s

/-- No two spaces side by side: of two neighbours, not both are spaces. -/
theorem sparse_iff_isChain {s : Text} : Sparse s ↔ s.IsChain fun c d => c = ' ' → d ≠ ' ' := by
  rw [List.isChain_iff_forall_rel_of_append_cons_cons]
  constructor
  · rintro h c d before behind rfl rfl rfl
    exact h ⟨before, behind, List.append_assoc before _ behind⟩
  · rintro h ⟨before, behind, rfl⟩
    have hsplit : before ++ [' ', ' '] ++ behind = before ++ ' ' :: ' ' :: behind :=
      List.append_assoc before _ behind
    exact h hsplit rfl rfl

instance (s : Text) : Decidable (Sparse s) := decidable_of_iff _ sparse_iff_isChain.symm

/-- There is nothing but white space in a single space. -/
theorem isBlank_of_mem_space : ∀ c ∈ [' '], isBlank c = true := by
  rw [List.forall_mem_singleton]
  decide

/-- A space is white space, so what is none is no space. -/
theorem ne_space {c : Char} (h : isBlank c = false) : c ≠ ' ' := by
  rintro rfl
  exact absurd h (by decide)

/-- Behind a text that ends with more than white space, another one can stand without a space in between: no two
spaces meet where there is none on the one side. -/
theorem sparse_append {s : Text} (hs : SolidEnd s) (t : Text) : Sparse (s ++ t) ↔ Sparse s ∧ Sparse t := by
  obtain ⟨s, d, rfl, hd⟩ := hs
  rw [sparse_iff_isChain, List.isChain_append, sparse_iff_isChain, sparse_iff_isChain]
  simp [ne_space hd]

/-- A space in front meets another one if the text begins with it. -/
theorem sparse_space_cons (t : Text) : Sparse (' ' :: t) ↔ t.head? ≠ some ' ' ∧ Sparse t := by
  rw [sparse_iff_isChain, List.isChain_cons, sparse_iff_isChain]
  refine and_congr_left' ?_
  constructor
  · exact fun h hhead => h ' ' hhead rfl rfl
  · rintro h d hd - rfl
    exact h hd

/-- Texts with spaces between them are sparse if both are, and there is one space. -/
theorem sparse_append_replicate {s t : Text} (hs : SolidEnd s) (ht : SolidStart t) (k : Nat) :
    Sparse (s ++ (List.replicate (k + 1) ' ' ++ t)) ↔ Sparse s ∧ Sparse t ∧ k = 0 := by
  obtain ⟨c, t, rfl, hc⟩ := ht
  rw [sparse_append hs, List.replicate_succ, List.cons_append, sparse_space_cons]
  cases k with
  | zero => simp [ne_space hc]
  | succ k => simp [List.replicate_succ]

end Text

namespace Utterance

/-- Trimming takes nothing but white space from an utterance's text. -/
theorem exists_text_eq_trim (u : Utterance) :
    ∃ before behind, u.text = before ++ (u.trim.text ++ behind) ∧
      (∀ c ∈ before, Text.isBlank c = true) ∧ ∀ c ∈ behind, Text.isBlank c = true := by
  obtain ⟨behind, hbehind, hblank⟩ :=
    Text.exists_eq_trimEnd_append (u.trimStart.text.drop u.trimStart.lastStop)
  have hend : u.trim.text ++ behind = u.trimStart.text := by
    rw [trim, trimEnd, List.append_assoc, ← hbehind, List.take_append_drop]
  have hprefix : (u.text.take u.firstStart).takeWhile Text.isBlank <+: u.text :=
    (List.takeWhile_prefix _).trans (List.take_prefix _ _)
  refine ⟨(u.text.take u.firstStart).takeWhile Text.isBlank, behind, ?_, ?_, hblank⟩
  · rw [hend, trimStart]
    exact (List.prefix_iff_eq_append.1 hprefix).symm
  · exact fun c hc => List.mem_takeWhile_imp hc

/-- Trimmed once more without regard to its spans, a trimmed utterance has its trimmed text. -/
theorem trim_text_trim (u : Utterance) : Text.trim u.trim.text = Text.trim u.text := by
  obtain ⟨before, behind, heq, hbefore, hbehind⟩ := u.exists_text_eq_trim
  rw [heq, Text.trim_append hbefore hbehind]

end Utterance

end UtteranceGrammar
