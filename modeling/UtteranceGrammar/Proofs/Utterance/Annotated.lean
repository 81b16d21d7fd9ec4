/-
Utterances put together and cut down, with no marks in between.

The marks in a text are one way to carry spans along while texts are joined, wrapped and trimmed. This
file is the other way: the same operations on utterances, where a span is a name, a text and two
offsets, and every change of the text in front of a span moves its offsets. Nothing here knows of
START and END; that both ways agree is the business of the files on markup.

Trimming is where the two could come apart. White space is cut only as far as no span starts or ends
in it, since a mark is no white space: in front up to the smallest start, behind down to the largest
stop. The lemmas on `indent` and `extend` say how trimming goes past a text that stands in front of an
utterance or behind it, and they are all that is needed to trim by recursion.
-/
import UtteranceGrammar.Utterance.Basic
import UtteranceGrammar.Proofs.Text.Trimming

set_option autoImplicit false

namespace UtteranceGrammar

namespace Entity

/-- The entity, moved to the right. -/
def shift (k : Nat) (e : Entity) : Entity := { e with start := e.start + k, stop := e.stop + k }

/-- The entity, moved to the left. -/
def unshift (k : Nat) (e : Entity) : Entity := { e with start := e.start - k, stop := e.stop - k }

theorem shift_shift (j k : Nat) (e : Entity) : (e.shift j).shift k = e.shift (j + k) := by
  simp only [shift, Nat.add_assoc]

theorem unshift_shift_of_le {j k : Nat} (h : j ≤ k) (e : Entity) :
    (e.shift k).unshift j = e.shift (k - j) := by
  simp only [shift, unshift, Entity.mk.injEq, true_and]
  constructor <;> omega

end Entity

namespace Utterance

/-! ## The operations -/

/-- A text in which nothing is marked. -/
def ofText (s : Text) : Utterance := ⟨s, []⟩

/-- Two utterances one after the other, with a space between them. The spans of the second one come
first, as they open later. -/
def spaced (l r : Utterance) : Utterance :=
  ⟨l.text ++ ' ' :: r.text, r.entities.map (Entity.shift (l.text.length + 1)) ++ l.entities⟩

/-- An utterance all of which is one more span. -/
def labelled (name : Name) (u : Utterance) : Utterance :=
  ⟨u.text, u.entities ++ [⟨name, u.text, 0, u.text.length⟩]⟩

/-- The smallest offset at which a span starts, or the end of the text if there is no span. -/
def firstStart (u : Utterance) : Nat := (u.entities.map Entity.start).foldr min u.text.length

/-- The largest offset at which a span stops, or the front of the text if there is no span. -/
def lastStop (u : Utterance) : Nat := (u.entities.map Entity.stop).foldr max 0

/-- An utterance without the leading white space that lies before all spans. -/
def trimStart (u : Utterance) : Utterance :=
  let n := ((u.text.take u.firstStart).takeWhile Text.isBlank).length
  ⟨u.text.drop n, u.entities.map (Entity.unshift n)⟩

/-- An utterance without the trailing white space that lies behind all spans. -/
def trimEnd (u : Utterance) : Utterance :=
  ⟨u.text.take u.lastStop ++ Text.trimEnd (u.text.drop u.lastStop), u.entities⟩

/-- An utterance without the white space at its two ends, as far as no span is cut. -/
def trim (u : Utterance) : Utterance := u.trimStart.trimEnd

/-- Whether neither text nor span is there. -/
def isEmpty (u : Utterance) : Bool := u.text.isEmpty && u.entities.isEmpty

/-- Trimmed utterances, those left out of which nothing remains. -/
def clean (us : List Utterance) : List Utterance := (us.map trim).filter (!·.isEmpty)

/-! ## A text in front -/

/-- An utterance with a text in front of it. -/
def indent (s : Text) (u : Utterance) : Utterance :=
  ⟨s ++ u.text, u.entities.map (Entity.shift s.length)⟩

theorem foldr_min_le_of_mem {ns : List Nat} {n : Nat} (b : Nat) (h : n ∈ ns) :
    ns.foldr min b ≤ n := by
  induction ns with
  | nil => exact absurd h List.not_mem_nil
  | cons m ns ih =>
    rw [List.foldr_cons]
    rcases List.mem_cons.1 h with rfl | hn
    · exact Nat.min_le_left _ _
    · exact Nat.le_trans (Nat.min_le_right _ _) (ih hn)

/-- No span starts before the smallest start. -/
theorem firstStart_le_of_mem {u : Utterance} {e : Entity} (h : e ∈ u.entities) :
    u.firstStart ≤ e.start :=
  foldr_min_le_of_mem _ (List.mem_map_of_mem h)

/-- A text in front moves the smallest start. -/
theorem firstStart_indent (s : Text) (u : Utterance) :
    (u.indent s).firstStart = s.length + u.firstStart := by
  simp only [firstStart, indent, List.map_map, List.length_append]
  induction u.entities with
  | nil => rfl
  | cons e es ih =>
    rw [List.map_cons, List.foldr_cons, ih, List.map_cons, List.foldr_cons, Function.comp_apply,
      Entity.shift]
    simp only
    omega

/-- A text in front of an utterance comes in front of all spans. -/
theorem take_firstStart_indent (s : Text) (u : Utterance) :
    (u.indent s).text.take (u.indent s).firstStart = s ++ u.text.take u.firstStart := by
  rw [firstStart_indent, indent, List.take_length_add_append]

/-- White space in front of an utterance is cut together with the utterance's own. -/
theorem trimStart_indent_of_blank {s : Text} (h : ∀ c ∈ s, Text.isBlank c = true) (u : Utterance) :
    (u.indent s).trimStart = u.trimStart := by
  have hs : (s ++ u.text.take u.firstStart).takeWhile Text.isBlank
      = s ++ (u.text.take u.firstStart).takeWhile Text.isBlank :=
    List.takeWhile_append_of_pos h
  simp only [trimStart, take_firstStart_indent, hs, List.length_append]
  simp only [indent, List.drop_length_add_append, List.map_map, Utterance.mk.injEq, true_and]
  refine List.map_congr_left fun e _ => ?_
  simp only [Function.comp_apply, Entity.shift, Entity.unshift, Entity.mk.injEq, true_and]
  constructor <;> omega

/-- A text with more than white space in it stops the cut. -/
theorem trimStart_indent_of_not_blank {s : Text} (h : Text.trimStart s ≠ []) (u : Utterance) :
    (u.indent s).trimStart = u.indent (Text.trimStart s) := by
  have hsplit : s.takeWhile Text.isBlank ++ Text.trimStart s = s := List.takeWhile_append_dropWhile
  have hlen : (s.takeWhile Text.isBlank).length + (Text.trimStart s).length = s.length := by
    rw [← List.length_append, hsplit]
  have hpos : 0 < (Text.trimStart s).length := List.length_pos_iff.2 h
  -- the cut ends within `s`, so it is the same as if there were no utterance behind
  have htake : (s ++ u.text.take u.firstStart).takeWhile Text.isBlank = s.takeWhile Text.isBlank := by
    rw [List.takeWhile_append, if_neg (by omega)]
  simp only [trimStart, take_firstStart_indent, htake]
  simp only [indent, List.map_map, Utterance.mk.injEq]
  constructor
  · have hs : s ++ u.text = s.takeWhile Text.isBlank ++ (Text.trimStart s ++ u.text) := by
      rw [← List.append_assoc, hsplit]
    rw [hs, List.drop_left]
  · refine List.map_congr_left fun e _ => ?_
    rw [Function.comp_apply, Entity.unshift_shift_of_le (by omega)]
    congr 1
    omega

/-- A span at the very front leaves nothing to cut there. -/
theorem trimStart_of_firstStart_eq_zero {u : Utterance} (h : u.firstStart = 0) :
    u.trimStart = u := by
  simp only [trimStart, h, List.take_zero, List.takeWhile_nil, List.length_nil, List.drop_zero]
  congr 1
  exact List.map_id _

/-! ## A text behind -/

/-- An utterance with a text behind it. -/
def extend (u : Utterance) (s : Text) : Utterance := ⟨u.text ++ s, u.entities⟩

@[simp] theorem lastStop_extend (u : Utterance) (s : Text) :
    (u.extend s).lastStop = u.lastStop := rfl

/-- No span reaches past the end of the text. -/
def Bounded (u : Utterance) : Prop := ∀ e ∈ u.entities, e.stop ≤ u.text.length

theorem foldr_max_le {ns : List Nat} {b : Nat} (h : ∀ n ∈ ns, n ≤ b) : ns.foldr max 0 ≤ b := by
  induction ns with
  | nil => exact Nat.zero_le _
  | cons n ns ih =>
    rw [List.foldr_cons]
    exact Nat.max_le.2
      ⟨h n List.mem_cons_self, ih fun m hm => h m (List.mem_cons_of_mem _ hm)⟩

theorem le_foldr_max_of_mem {ns : List Nat} {n : Nat} (h : n ∈ ns) : n ≤ ns.foldr max 0 := by
  induction ns with
  | nil => exact absurd h List.not_mem_nil
  | cons m ns ih =>
    rw [List.foldr_cons]
    rcases List.mem_cons.1 h with rfl | hn
    · exact Nat.le_max_left _ _
    · exact Nat.le_trans (ih hn) (Nat.le_max_right _ _)

/-- The largest stop is within the text. -/
theorem lastStop_le_length {u : Utterance} (h : u.Bounded) : u.lastStop ≤ u.text.length := by
  refine foldr_max_le fun n hn => ?_
  obtain ⟨e, he, rfl⟩ := List.mem_map.1 hn
  exact h e he

/-- No span stops behind the largest stop. -/
theorem le_lastStop_of_mem {u : Utterance} {e : Entity} (h : e ∈ u.entities) :
    e.stop ≤ u.lastStop :=
  le_foldr_max_of_mem (List.mem_map_of_mem h)

/-- A text behind an utterance comes behind all spans. -/
theorem drop_lastStop_extend {u : Utterance} (h : u.Bounded) (s : Text) :
    (u.extend s).text.drop (u.extend s).lastStop = u.text.drop u.lastStop ++ s := by
  rw [lastStop_extend, extend, List.drop_append_of_le_length (lastStop_le_length h)]

theorem take_lastStop_extend {u : Utterance} (h : u.Bounded) (s : Text) :
    (u.extend s).text.take (u.extend s).lastStop = u.text.take u.lastStop := by
  rw [lastStop_extend, extend, List.take_append_of_le_length (lastStop_le_length h)]

/-- White space behind an utterance is cut together with the utterance's own. -/
theorem trimEnd_extend_of_blank {s : Text} (h : ∀ c ∈ s, Text.isBlank c = true) {u : Utterance}
    (hu : u.Bounded) : (u.extend s).trimEnd = u.trimEnd := by
  simp only [trimEnd, drop_lastStop_extend hu, take_lastStop_extend hu,
    Text.trimEnd_append_of_blank h]
  rfl

/-- A text with more than white space in it stops the cut. -/
theorem trimEnd_extend_of_not_blank {s : Text} (h : Text.trimEnd s ≠ []) {u : Utterance}
    (hu : u.Bounded) : (u.extend s).trimEnd = u.extend (Text.trimEnd s) := by
  simp only [trimEnd, drop_lastStop_extend hu, take_lastStop_extend hu,
    Text.trimEnd_append_of_not_blank h]
  rw [← List.append_assoc, List.take_append_drop]
  rfl

/-- A span at the very end leaves nothing to cut there. -/
theorem trimEnd_of_length_le_lastStop {u : Utterance} (h : u.text.length ≤ u.lastStop) :
    u.trimEnd = u := by
  rw [trimEnd, List.drop_of_length_le h, List.take_of_length_le h]
  rw [show Text.trimEnd [] = [] from rfl, List.append_nil]

/-! ## A span around everything -/

/-- Nothing can be cut of an utterance all of which is a span. -/
theorem trim_labelled (name : Name) (u : Utterance) : (u.labelled name).trim = u.labelled name := by
  have hmem : (⟨name, u.text, 0, u.text.length⟩ : Entity) ∈ (u.labelled name).entities :=
    List.mem_append_right _ (List.mem_singleton_self _)
  have hfirst : (u.labelled name).firstStart = 0 := Nat.le_zero.1 (firstStart_le_of_mem hmem)
  rw [trim, trimStart_of_firstStart_eq_zero hfirst,
    trimEnd_of_length_le_lastStop (le_lastStop_of_mem hmem)]

/-- Nothing is cut from labelled utterances, and none is dropped, not even a blank one. -/
theorem clean_map_labelled (name : Name) (us : List Utterance) :
    clean (us.map (labelled name)) = us.map (labelled name) := by
  have htrim : (us.map (labelled name)).map trim = us.map (labelled name) := by
    rw [List.map_map]
    exact List.map_congr_left fun u _ => trim_labelled name u
  rw [clean, htrim, List.filter_eq_self]
  intro v hv
  obtain ⟨u, -, rfl⟩ := List.mem_map.1 hv
  rw [Bool.not_eq_true', isEmpty, Bool.and_eq_false_iff, List.isEmpty_eq_false_iff,
    List.isEmpty_eq_false_iff]
  exact .inr (List.append_ne_nil_of_right_ne_nil _ (List.cons_ne_nil _ _))

/-! ## Trimmed texts -/

/-- Nothing can be cut of an utterance whose text is trimmed. -/
theorem trim_of_trim_eq {u : Utterance} (h : Text.trim u.text = u.text) : u.trim = u := by
  have hstart : u.trimStart = u := by
    rw [trimStart, Text.takeWhile_take_of_trim_eq h]
    exact congrArg (mk u.text) (List.map_id u.entities)
  rw [trim, hstart, trimEnd, Text.take_append_trimEnd_drop h]

/-- Tidy utterances are kept as they are. -/
theorem clean_of_tidy {us : List Utterance} (h : ∀ u ∈ us, u.text.Tidy) : clean us = us := by
  have htrim : us.map trim = us := by
    rw [List.map_congr_left fun u hu => trim_of_trim_eq (h u hu).2]
    exact List.map_id us
  rw [clean, htrim, List.filter_eq_self]
  intro u hu
  rw [Bool.not_eq_true', isEmpty, Bool.and_eq_false_iff, List.isEmpty_eq_false_iff]
  exact .inl (h u hu).1

/-! ## Labels -/

/-- What the spans say, wherever they stand: names and texts. -/
def labels (u : Utterance) : List (Name × Text) := u.entities.map fun e => (e.name, e.text)

/-- Joining lists the labels of the right part first. -/
@[simp] theorem labels_spaced (l r : Utterance) : (l.spaced r).labels = r.labels ++ l.labels := by
  rw [labels, spaced, List.map_append, List.map_map]
  rfl

@[simp] theorem labels_labelled (name : Name) (u : Utterance) :
    (u.labelled name).labels = u.labels ++ [(name, u.text)] := by
  rw [labels, labelled, List.map_append]
  rfl

/-- Trimming moves spans and changes none. -/
@[simp] theorem labels_trim (u : Utterance) : u.trim.labels = u.labels := by
  rw [labels, trim, trimEnd, trimStart, List.map_map]
  rfl

/-! ## Where an entity stands -/

/-- The entity tells where its text stands in the utterance. -/
structure Locates (u : Utterance) (e : Entity) : Prop where
  start_le : e.start ≤ e.stop
  stop_le : e.stop ≤ u.text.length
  slice_eq : (u.text.drop e.start).take (e.stop - e.start) = e.text

end Utterance

end UtteranceGrammar
