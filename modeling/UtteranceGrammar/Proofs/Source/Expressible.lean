/-
What can be written, and that reading gives nothing else.

A grammar is expressible if it has no empty part anywhere, if its names are names, and if its literal
texts could stand in a tuple: not empty, trimmed, and free of commas, closing brackets and marks. Every
grammar that is read from a source is (`Grammar.expressible_of_parse`). Much of what is asked of a grammar
before it can be expanded follows from that alone: an expressible rule is not hollow, and the marks that
are put around its texts cannot be mistaken.

That what is read is expressible is a matter of the syntax, since a source is read only as what it reads as
(`Grammar.read_eq_ok_iff`). The rules of the syntax ask for each part what makes it expressible.
-/
import UtteranceGrammar.Proofs.Expansion.Annotation
import UtteranceGrammar.Proofs.Source.Recognition

set_option autoImplicit false

namespace UtteranceGrammar

/-! ## Expressible grammars -/

namespace Token

/-- The text can be listed in a tuple. -/
def IsItem (s : Text) : Prop :=
  s ≠ [] ∧ Text.trim s = s ∧ ∀ c ∈ s, c ≠ ',' ∧ inTuple c = true

end Token

mutual

/-- The term can be written. -/
def Term.Expressible : Term → Prop
  | .literals items _ => items ≠ [] ∧ ∀ s ∈ items, Token.IsItem s
  | .reference id _ => Token.IsName id
  | .group body _ => body ≠ [] ∧ Sequence.AllExpressible body

/-- Each of the terms can be written. -/
def Alternation.AllExpressible : List Term → Prop
  | [] => True
  | t :: ts => t.Expressible ∧ Alternation.AllExpressible ts

/-- Each of the alternations can be written. -/
def Sequence.AllExpressible : List (List Term) → Prop
  | [] => True
  | g :: gs => (g ≠ [] ∧ Alternation.AllExpressible g) ∧ Sequence.AllExpressible gs

end

/-- The rule can be written. -/
structure Rule.Expressible (r : Rule) : Prop where
  name : Token.IsName r.id
  body_ne_nil : r.body ≠ []
  body : Sequence.AllExpressible r.body

/-- Every rule of the grammar can be written. -/
def Grammar.Expressible (g : Grammar) : Prop := ∀ r ∈ g, r.Expressible

/-! ## What follows for expansion -/

namespace Token

/-- A name has no closing bracket in it. -/
theorem IsName.not_mem {id : Name} (h : IsName id) : ']' ∉ id.toList := by
  obtain ⟨c, s, hid, hc, hs⟩ := h
  rw [hid, List.mem_cons]
  rintro (rfl | hmem)
  · exact absurd hc (by decide)
  · exact absurd (hs ']' hmem) (by decide)

/-- What can be listed in a tuple has no marks. -/
theorem IsItem.free {s : Text} (h : IsItem s) : Markup.Free s := by
  intro c hc
  have htuple := (h.2.2 c hc).2
  rw [inTuple, Bool.and_eq_true, Bool.not_eq_true'] at htuple
  exact htuple.2

end Token

mutual

/-- A term that can be written is not hollow. -/
theorem Term.Expressible.not_hollow : ∀ t : Term, t.Expressible → t.isHollow = false
  | .literals _ _, _ => rfl
  | .reference _ _, _ => rfl
  | .group body _, h => by
    rw [Term.isHollow, Sequence.AllExpressible.not_hollow body h.2, Bool.or_false]
    exact List.isEmpty_eq_false_iff.2 h.1

theorem Alternation.AllExpressible.not_hollow : ∀ ts : List Term,
    Alternation.AllExpressible ts → Alternation.anyHollow ts = false
  | [], _ => rfl
  | t :: ts, h => by
    rw [Alternation.anyHollow, Term.Expressible.not_hollow t h.1,
      Alternation.AllExpressible.not_hollow ts h.2]
    rfl

/-- The same for the alternations of a sequence, which have terms themselves. -/
theorem Sequence.AllExpressible.not_hollow : ∀ gs : List (List Term),
    Sequence.AllExpressible gs → Sequence.anyHollow gs = false
  | [], _ => rfl
  | g :: gs, h => by
    rw [Sequence.anyHollow, Alternation.AllExpressible.not_hollow g h.1.2,
      Sequence.AllExpressible.not_hollow gs h.2, List.isEmpty_eq_false_iff.2 h.1.1]
    rfl

end

mutual

/-- The literals in a term that can be written can be listed in a tuple. -/
theorem Term.Expressible.isItem : ∀ t : Term, t.Expressible → ∀ s ∈ t.items, Token.IsItem s
  | .literals _ _, h => h.2
  | .reference _ _, _ => fun _ hs => absurd hs List.not_mem_nil
  | .group body _, h => Sequence.AllExpressible.isItem body h.2

theorem Alternation.AllExpressible.isItem : ∀ ts : List Term, Alternation.AllExpressible ts →
    ∀ s ∈ Alternation.items ts, Token.IsItem s
  | [], _ => fun _ hs => absurd hs List.not_mem_nil
  | t :: ts, h => by
    rw [Alternation.items, List.forall_mem_append]
    exact ⟨Term.Expressible.isItem t h.1, Alternation.AllExpressible.isItem ts h.2⟩

theorem Sequence.AllExpressible.isItem : ∀ gs : List (List Term), Sequence.AllExpressible gs →
    ∀ s ∈ Sequence.items gs, Token.IsItem s
  | [], _ => fun _ hs => absurd hs List.not_mem_nil
  | g :: gs, h => by
    rw [Sequence.items, List.forall_mem_append]
    exact ⟨Alternation.AllExpressible.isItem g h.1.2, Sequence.AllExpressible.isItem gs h.2⟩

end

/-- A rule that can be written is not hollow. -/
theorem Rule.Expressible.not_hollow {r : Rule} (h : r.Expressible) : r.isHollow = false := by
  rw [isHollow, Sequence.isHollow, Sequence.AllExpressible.not_hollow r.body h.body,
    List.isEmpty_eq_false_iff.2 h.body_ne_nil]
  rfl

/-- A rule that can be written can be marked: the syntax keeps marks out of tuples and brackets out of names. -/
theorem Rule.Expressible.markable {r : Rule} (h : r.Expressible) : r.Markable :=
  ⟨fun s hs => (Sequence.AllExpressible.isItem r.body h.body s hs).free, fun _ => h.name.not_mem⟩

/-! ## What is read -/

/-- The items that a tuple lists can be listed in a tuple. -/
theorem Token.Lists.isItem {content : Text} {items : List Text} (h : Token.Lists content items)
    (hcontent : ∀ c ∈ content, Token.inTuple c = true) : ∀ t ∈ items, Token.IsItem t := by
  intro t ht
  rw [← h.tupleItems_eq] at ht
  obtain ⟨hne, htrim, hchars⟩ := Text.mem_words ht
  refine ⟨hne, htrim, fun c hc => ⟨?_, hcontent c (hchars c hc).1⟩⟩
  simpa using (hchars c hc).2

mutual

/-- What reads as a term shows that the term can be written. -/
theorem Term.ReadsAs.expressible : ∀ (t : Term) {s r : Text}, Term.ReadsAs s t r → t.Expressible
  | .literals _ _, _, _, h => by
    cases h with
    | tuple _ hcontent hitems hne _ => exact ⟨hne, hitems.isItem hcontent⟩
  | .reference _ _, _, _, h => by
    cases h with
    | name _ hid _ => exact hid
  | .group body _, _, _, h => by
    cases h with
    | group _ hbody _ _ => exact Sequence.ReadsAs.expressible body hbody

/-- The same for an alternation, which has at least one term then. -/
theorem Alternation.ReadsAs.expressible : ∀ (ts : List Term) {s r : Text},
    Alternation.ReadsAs s ts r → ts ≠ [] ∧ Alternation.AllExpressible ts
  | [], _, _, h => by cases h
  | t :: ts, _, _, h => by
    refine ⟨List.cons_ne_nil t ts, ?_⟩
    cases h with
    | single ht => exact ⟨Term.ReadsAs.expressible t ht, trivial⟩
    | cons ht _ hts =>
      exact ⟨Term.ReadsAs.expressible t ht, (Alternation.ReadsAs.expressible ts hts).2⟩

/-- The same for a sequence, which has at least one alternation then. -/
theorem Sequence.ReadsAs.expressible : ∀ (gs : List (List Term)) {s r : Text},
    Sequence.ReadsAs s gs r → gs ≠ [] ∧ Sequence.AllExpressible gs
  | [], _, _, h => by cases h
  | g :: gs, _, _, h => by
    refine ⟨List.cons_ne_nil g gs, ?_⟩
    cases h with
    | single hg => exact ⟨Alternation.ReadsAs.expressible g hg, trivial⟩
    | cons hg _ hgs =>
      exact ⟨Alternation.ReadsAs.expressible g hg, (Sequence.ReadsAs.expressible gs hgs).2⟩

end

/-- A rule that a text reads as can be written. -/
theorem Rule.ReadsAs.expressible {s r : Text} {rule : Rule} (h : Rule.ReadsAs s rule r) :
    rule.Expressible := by
  cases h with
  | rule _ hhead _ hbody _ =>
    obtain ⟨hne, hall⟩ := Sequence.ReadsAs.expressible _ hbody
    exact ⟨hhead.isName, hne, hall⟩

namespace Grammar

/-- A grammar that a text reads as can be written. -/
theorem ReadsAs.expressible {s : Text} {g : Grammar} (h : ReadsAs s g) : Expressible g := by
  induction h with
  | nil _ => exact fun r hr => absurd hr List.not_mem_nil
  | cons hrule _ ih => exact List.forall_mem_cons.2 ⟨hrule.expressible, ih⟩

/-- Whatever is read from a source can be written. -/
theorem expressible_of_parse {source : Text} {g : Grammar} (h : parse source = .ok g) :
    Expressible g :=
  (read_eq_ok_iff.1 (parse_eq_ok_iff.1 h)).expressible

end Grammar

end UtteranceGrammar
