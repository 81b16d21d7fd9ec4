/-
Trimming and splitting texts.

A character that is not white space stops the trimming on its side, whatever else there is behind it.
Most of what follows comes down to that: trimming goes past a text of white space and stops within any
other, and a text that is trimmed once is trimmed.
-/
import Mathlib.Data.List.DropRight
import UtteranceGrammar.Text.Basic

set_option autoImplicit false

namespace UtteranceGrammar

namespace Text

/-! ## Trimming at the end -/

/-- White space at the end goes. -/
theorem trimEnd_append_of_blank {s : Text} (h : ∀ c ∈ s, isBlank c = true) (t : Text) :
    trimEnd (t ++ s) = trimEnd t := by
  have hrev : ∀ c ∈ s.reverse, isBlank c = true := fun c hc => h c (List.mem_reverse.1 hc)
  rw [trimEnd, List.reverse_append, List.dropWhile_append_of_pos hrev]
  rfl

/-- Trimming the end goes no further than the last part with more than white space in it. -/
theorem trimEnd_append_of_not_blank {s : Text} (h : trimEnd s ≠ []) (t : Text) :
    trimEnd (t ++ s) = t ++ trimEnd s := by
  have hs : s.reverse.dropWhile isBlank ≠ [] := fun hnil => h (by rw [trimEnd, hnil]; rfl)
  rw [trimEnd, List.reverse_append, List.dropWhile_append, if_neg (by simpa using hs),
    List.reverse_append, List.reverse_reverse]
  rfl

/-- Where nothing is left, there was nothing but white space. -/
theorem isBlank_of_trimEnd_eq_nil {s : Text} (h : trimEnd s = []) : ∀ c ∈ s, isBlank c = true := by
  intro c hc
  rw [trimEnd, List.reverse_eq_nil_iff, List.dropWhile_eq_nil_iff] at h
  exact h c (List.mem_reverse.2 hc)

theorem trimEnd_cons {c : Char} (hc : isBlank c = false) (s : Text) :
    trimEnd (c :: s) = c :: trimEnd s := by
  by_cases h : trimEnd s = []
  · -- all of `s` is cut, and `c` stops the cut
    rw [h, ← List.singleton_append, trimEnd_append_of_blank (isBlank_of_trimEnd_eq_nil h), trimEnd,
      List.reverse_singleton, List.dropWhile_cons_of_neg (by rw [hc]; exact Bool.false_ne_true)]
    rfl
  · rw [← List.singleton_append, trimEnd_append_of_not_blank h]
    rfl

/-! ## Trimming twice -/

theorem trimEnd_trimEnd (s : Text) : trimEnd (trimEnd s) = trimEnd s := by
  rw [trimEnd, trimEnd, List.reverse_reverse, List.dropWhile_idempotent]

theorem trimStart_trim (s : Text) : trimStart (trim s) = trim s := by
  rw [trim]
  cases h : trimStart s with
  | nil => rfl
  | cons c t =>
    -- what is left begins with a character that stopped the cut, and trimming the end keeps it
    have hc : isBlank c = false := by
      have hhead := List.head?_dropWhile_not isBlank s
      rw [← trimStart, h] at hhead
      exact hhead
    rw [trimEnd_cons hc, trimStart, List.dropWhile_cons_of_neg (by rw [hc]; exact Bool.false_ne_true)]

/-- A trimmed text is trimmed. -/
theorem trim_trim (s : Text) : trim (trim s) = trim s := by
  have hstart := trimStart_trim s
  rw [trim, hstart, trim, trimEnd_trimEnd]

theorem mem_of_mem_trim {s : Text} {c : Char} (h : c ∈ trim s) : c ∈ s := by
  have hend : c ∈ (trimStart s).reverse.dropWhile isBlank := List.mem_reverse.1 h
  have hstart : c ∈ trimStart s :=
    List.mem_reverse.1 ((List.dropWhile_sublist _).subset hend)
  exact (List.dropWhile_sublist _).subset hstart

/-! ## Trimmed texts -/

/-- The text is not blank and has no white space at its ends. -/
def Tidy (s : Text) : Prop := s ≠ [] ∧ trim s = s

instance (s : Text) : Decidable (Tidy s) := inferInstanceAs (Decidable (_ ∧ _))

theorem trimStart_of_trim_eq {s : Text} (h : trim s = s) : trimStart s = s := by
  rw [← h, trimStart_trim]

theorem trimEnd_of_trim_eq {s : Text} (h : trim s = s) : trimEnd s = s := by
  have htrim := h
  rw [trim, trimStart_of_trim_eq h] at htrim
  exact htrim

/-- No front part of a trimmed text begins with white space. -/
theorem takeWhile_take_of_trim_eq {s : Text} (h : trim s = s) (k : Nat) :
    (s.take k).takeWhile isBlank = [] := by
  have hhead := List.head?_dropWhile_not isBlank s
  rw [← trimStart, trimStart_of_trim_eq h] at hhead
  cases s with
  | nil => rw [List.take_nil, List.takeWhile_nil]
  | cons c s =>
    have hc : isBlank c = false := hhead
    cases k with
    | zero => rw [List.take_zero, List.takeWhile_nil]
    | succ k =>
      rw [List.take_succ_cons, List.takeWhile_cons_of_neg (by rw [hc]; exact Bool.false_ne_true)]

/-- No part of a trimmed text that reaches to its end has white space there. -/
theorem take_append_trimEnd_drop {s : Text} (h : trim s = s) (k : Nat) :
    s.take k ++ trimEnd (s.drop k) = s := by
  have hend := trimEnd_of_trim_eq h
  by_cases hdrop : trimEnd (s.drop k) = []
  · -- trimming `s` would cut all that is behind `k`, so nothing is there
    have htake : trimEnd (s.take k) = s := by
      rw [← trimEnd_append_of_blank (isBlank_of_trimEnd_eq_nil hdrop) (s.take k),
        List.take_append_drop]
      exact hend
    have hlength : s.length ≤ (s.take k).length := by
      have hle : ((s.take k).reverse.dropWhile isBlank).length ≤ (s.take k).reverse.length :=
        (List.dropWhile_sublist _).length_le
      rw [← List.length_reverse, ← trimEnd, htake, List.length_reverse] at hle
      exact hle
    have hk : s.length ≤ k := by
      rw [List.length_take] at hlength
      omega
    rw [hdrop, List.append_nil, List.take_of_length_le hk]
  · rw [← trimEnd_append_of_not_blank hdrop, List.take_append_drop]
    exact hend

/-! ## The pieces of a text -/

/-- Characters that go on with something end where one comes that does not. -/
theorem takeWhile_append_of_head {p : Char → Bool} {s r : Text} (hs : ∀ c ∈ s, p c = true)
    (hr : ∀ c, r.head? = some c → p c = false) :
    (s ++ r).takeWhile p = s ∧ (s ++ r).dropWhile p = r := by
  rw [List.takeWhile_append_of_pos hs, List.dropWhile_append_of_pos hs]
  cases r with
  | nil => exact ⟨List.append_nil s, rfl⟩
  | cons d r =>
    have hd : ¬p d = true := by
      rw [hr d rfl]
      exact Bool.false_ne_true
    rw [List.takeWhile_cons_of_neg hd, List.dropWhile_cons_of_neg hd, List.append_nil]
    exact ⟨rfl, rfl⟩

/-- A piece consists of characters of the text, and none of them is a separator. -/
theorem mem_split {separates : Char → Bool} {s p : Text} (hp : p ∈ split separates s) :
    ∀ c ∈ p, c ∈ s ∧ separates c = false := by
  induction s generalizing p with
  | nil =>
    rw [split, List.mem_singleton] at hp
    rw [hp]
    exact fun c hc => absurd hc List.not_mem_nil
  | cons d s ih =>
    rw [split] at hp
    by_cases hd : separates d = true
    · rw [if_pos hd] at hp
      rcases List.mem_cons.1 hp with rfl | hp
      · exact fun c hc => absurd hc List.not_mem_nil
      · exact fun c hc => ⟨List.mem_cons_of_mem _ (ih hp c hc).1, (ih hp c hc).2⟩
    · -- `d` joins the first piece of what follows
      rw [if_neg hd] at hp
      cases hs : split separates s with
      | nil =>
        rw [hs] at hp
        exact absurd hp List.not_mem_nil
      | cons q qs =>
        rw [hs, List.modifyHead_cons] at hp
        rw [hs] at ih
        intro c hc
        rcases List.mem_cons.1 hp with rfl | hp
        · rcases List.mem_cons.1 hc with rfl | hc
          · exact ⟨List.mem_cons_self, Bool.not_eq_true _ ▸ hd⟩
          · have hq := ih List.mem_cons_self c hc
            exact ⟨List.mem_cons_of_mem _ hq.1, hq.2⟩
        · have hq := ih (List.mem_cons_of_mem _ hp) c hc
          exact ⟨List.mem_cons_of_mem _ hq.1, hq.2⟩

/-- A split text has at least one part. -/
theorem split_ne_nil (separates : Char → Bool) (s : Text) : split separates s ≠ [] := by
  intro h
  have hlength := length_split separates s
  rw [h, List.length_nil] at hlength
  omega

/-- Every character that is no separator is in a piece. -/
theorem exists_mem_split {separates : Char → Bool} {s : Text} {c : Char} (hc : c ∈ s)
    (hseparates : separates c = false) : ∃ p ∈ split separates s, c ∈ p := by
  induction s with
  | nil => exact absurd hc List.not_mem_nil
  | cons d s ih =>
    rw [split]
    by_cases hd : separates d = true
    · rw [if_pos hd]
      rcases List.mem_cons.1 hc with rfl | hc
      · rw [hd] at hseparates
        cases hseparates
      · obtain ⟨p, hp, hcp⟩ := ih hc
        exact ⟨p, List.mem_cons_of_mem _ hp, hcp⟩
    · obtain ⟨q, qs, hs⟩ := List.exists_cons_of_ne_nil (split_ne_nil separates s)
      rw [if_neg hd, hs, List.modifyHead_cons]
      rw [hs] at ih
      rcases List.mem_cons.1 hc with rfl | hc
      · exact ⟨c :: q, List.mem_cons_self, List.mem_cons_self⟩
      · obtain ⟨p, hp, hcp⟩ := ih hc
        rcases List.mem_cons.1 hp with rfl | hp
        · exact ⟨d :: p, List.mem_cons_self, List.mem_cons_of_mem _ hcp⟩
        · exact ⟨p, List.mem_cons_of_mem _ hp, hcp⟩

/-- The pieces of a text, put together again. -/
theorem intercalate_split (c : Char) (s : Text) : [c].intercalate (split (· == c) s) = s := by
  induction s with
  | nil => rfl
  | cons d s ih =>
    obtain ⟨p, ps, hps⟩ := List.exists_cons_of_ne_nil (split_ne_nil (· == c) s)
    rw [hps] at ih
    rw [split, hps]
    by_cases hd : (d == c) = true
    · rw [if_pos hd, List.intercalate_cons_cons, ih, eq_of_beq hd]
      rfl
    · -- `d` joins the first piece, whether or not there is another one
      rw [if_neg hd, List.modifyHead_cons, ← ih]
      cases ps with
      | nil => rfl
      | cons q qs => rfl

/-- Splitting cuts at the first separator. -/
theorem split_append {c : Char} {p : Text} (hp : c ∉ p) (s : Text) :
    split (· == c) (p ++ c :: s) = p :: split (· == c) s := by
  induction p with
  | nil => rw [List.nil_append, split, if_pos (beq_self_eq_true c)]
  | cons d p ih =>
    rw [List.mem_cons, not_or] at hp
    rw [List.cons_append, split, if_neg (by simpa using Ne.symm hp.1), ih hp.2,
      List.modifyHead_cons]

theorem split_of_not_mem {c : Char} {p : Text} (hp : c ∉ p) : split (· == c) p = [p] := by
  induction p with
  | nil => rfl
  | cons d p ih =>
    rw [List.mem_cons, not_or] at hp
    rw [split, if_neg (by simpa using Ne.symm hp.1), ih hp.2, List.modifyHead_cons]

/-- Pieces that have no separator in them are found again where they are put together. -/
theorem split_intercalate {c : Char} {ps : List Text} (hne : ps ≠ []) (hps : ∀ p ∈ ps, c ∉ p) :
    split (· == c) ([c].intercalate ps) = ps := by
  induction ps with
  | nil => exact absurd rfl hne
  | cons p ps ih =>
    obtain ⟨hp, hps⟩ := List.forall_mem_cons.1 hps
    cases ps with
    | nil =>
      rw [List.intercalate_singleton]
      exact split_of_not_mem hp
    | cons q qs =>
      rw [List.intercalate_cons_cons, List.append_assoc, List.singleton_append, split_append hp,
        ih (List.cons_ne_nil q qs) hps]

/-- A word is trimmed and not empty, and has no separator in it. -/
theorem mem_words {separates : Char → Bool} {s w : Text} (hw : w ∈ words separates s) :
    w ≠ [] ∧ trim w = w ∧ ∀ c ∈ w, c ∈ s ∧ separates c = false := by
  obtain ⟨hmem, hne⟩ := List.mem_filter.1 hw
  obtain ⟨p, hp, rfl⟩ := List.mem_map.1 hmem
  refine ⟨?_, trim_trim p, fun c hc => mem_split hp c (mem_of_mem_trim hc)⟩
  rintro hnil
  rw [hnil] at hne
  exact Bool.false_ne_true hne

end Text

end UtteranceGrammar
