/-
Writing and reading back.

What is written reads as what was written, if it can be written at all (`Grammar.readsAs_print`). For a part
of a pattern this holds in front of any text, and that is what makes the induction go through: each part is
written in front of the bar, comma, parenthesis or semicolon that ends it, and these are no concern of the
part. Whatever the rules are called, a kind word in front of a name is parted from it by a space, and a name
without one has its colon right behind it; so no name can be mistaken for a kind word.

A grammar that cannot be written does not come back, because nothing comes back that cannot be written.
-/
import UtteranceGrammar.Source.Printer
import UtteranceGrammar.Proofs.Source.Expressible

set_option autoImplicit false

namespace UtteranceGrammar

/-! ## Layout in front -/

/-- Layout may be put in front of what reads as a term. -/
theorem Term.ReadsAs.of_before {s' s r : Text} {t : Term} (hs : Layout.Before s' s)
    (h : Term.ReadsAs s t r) : Term.ReadsAs s' t r := by
  cases h with
  | tuple hopen hcontent hitems hne hmark => exact .tuple (hs.trans hopen) hcontent hitems hne hmark
  | name hname hid hmark => exact .name (hs.trans hname) hid hmark
  | group hopen hbody hclose hmark => exact .group (hs.trans hopen) hbody hclose hmark

theorem Alternation.ReadsAs.of_before {s' s r : Text} {ts : List Term} (hs : Layout.Before s' s)
    (h : Alternation.ReadsAs s ts r) : Alternation.ReadsAs s' ts r := by
  cases h with
  | single ht => exact .single (ht.of_before hs)
  | cons ht hbar hts => exact .cons (ht.of_before hs) hbar hts

theorem Sequence.ReadsAs.of_before {s' s r : Text} {gs : List (List Term)} (hs : Layout.Before s' s)
    (h : Sequence.ReadsAs s gs r) : Sequence.ReadsAs s' gs r := by
  cases h with
  | single hg => exact .single (hg.of_before hs)
  | cons hg hcomma hgs => exact .cons (hg.of_before hs) hcomma hgs

/-- Layout may be put in front of what reads as a grammar. -/
theorem Grammar.ReadsAs.of_before {s' s : Text} {g : Grammar} (hs : Layout.Before s' s)
    (h : Grammar.ReadsAs s g) : Grammar.ReadsAs s' g := by
  cases h with
  | nil hlayout => exact .nil (hs.trans hlayout)
  | cons hrule hrules =>
    cases hrule with
    | rule hlayout hhead hcolon hbody hsemicolon =>
      exact .cons (.rule (hs.trans hlayout) hhead hcolon hbody hsemicolon) hrules

theorem Layout.before_space (s : Text) : Layout.Before (' ' :: s) s :=
  .blank (by decide) (.nothing s)

/-! ## Tokens -/

namespace Token

/-- A mark that is written is read, and none where none is. -/
theorem mark_optionalMark (optional : Bool) (r : Text) :
    Mark (optionalMark optional ++ r) optional r := by
  cases optional with
  | false => exact .absent r
  | true => exact .present (.nothing _)

/-- A comma and a space between items is a comma between items that start with a space. -/
theorem intercalate_comma_space (x : Text) (xs : List Text) :
    [',', ' '].intercalate (x :: xs) = [','].intercalate (x :: xs.map (' ' :: ·)) := by
  induction xs generalizing x with
  | nil => rfl
  | cons y ys ih =>
    have hspace : [','].intercalate ((' ' :: y) :: ys.map (' ' :: ·)) =
        ' ' :: [','].intercalate (y :: ys.map (' ' :: ·)) := by
      cases ys with
      | nil => rfl
      | cons z zs => rfl
    rw [List.intercalate_cons_cons, ih, List.map_cons, List.intercalate_cons_cons, hspace]
    simp only [List.append_assoc, List.cons_append, List.nil_append]

/-- Items with a comma and a space between them are listed. -/
theorem lists_intercalate {items : List Text} (hne : items ≠ []) (hitems : ∀ t ∈ items, IsItem t) :
    Lists ([',', ' '].intercalate items) items := by
  obtain ⟨x, xs, rfl⟩ := List.exists_cons_of_ne_nil hne
  obtain ⟨hx, hxs⟩ := List.forall_mem_cons.1 hitems
  refine ⟨x :: xs.map (' ' :: ·), List.cons_ne_nil _ _, ?_, intercalate_comma_space x xs, ?_⟩
  · intro p hp hcomma
    rcases List.mem_cons.1 hp with rfl | hp
    · exact (hx.2.2 ',' hcomma).1 rfl
    · obtain ⟨y, hy, rfl⟩ := List.mem_map.1 hp
      rcases List.mem_cons.1 hcomma with h | hcomma
      · exact absurd h (by decide)
      · exact ((hxs y hy).2.2 ',' hcomma).1 rfl
  · -- trimming takes the space off again, and no item is blank
    have htrim : (x :: xs.map (' ' :: ·)).map Text.trim = x :: xs := by
      rw [List.map_cons, List.map_map, hx.2.1]
      refine congrArg (x :: ·) ((List.map_congr_left fun y hy => ?_).trans (List.map_id xs))
      show Text.trim (' ' :: y) = y
      rw [Text.trim, Text.trimStart, List.dropWhile_cons_of_pos (by decide)]
      exact (hxs y hy).2.1
    rw [htrim, List.filter_eq_self.2]
    intro t ht
    have hne : t ≠ [] := (hitems t ht).1
    cases t with
    | nil => exact absurd rfl hne
    | cons c t => rfl

/-- Items with a comma and a space between them may stand in a tuple. -/
theorem inTuple_intercalate {items : List Text} (hitems : ∀ t ∈ items, IsItem t) :
    ∀ c ∈ [',', ' '].intercalate items, inTuple c = true := by
  induction items with
  | nil => exact fun c hc => absurd hc List.not_mem_nil
  | cons x xs ih =>
    obtain ⟨hx, hxs⟩ := List.forall_mem_cons.1 hitems
    have hcs : ∀ c ∈ x, inTuple c = true := fun c hc => (hx.2.2 c hc).2
    cases xs with
    | nil =>
      rw [List.intercalate_singleton]
      exact hcs
    | cons y ys =>
      rw [List.intercalate_cons_cons, List.forall_mem_append, List.forall_mem_append]
      exact ⟨⟨hcs, List.all_eq_true.1 (by decide)⟩, ih hxs⟩

end Token

/-! ## Patterns -/

mutual

/-- A term that is written reads as that term, whatever comes behind it. -/
theorem Term.readsAs_print : ∀ t : Term, t.Expressible → ∀ r : Text, Term.ReadsAs (t.print ++ r) t r
  | .literals items optional, h, r => by
    rw [Term.print, List.cons_append, List.append_assoc, List.cons_append]
    exact .tuple (.nothing _) (Token.inTuple_intercalate h.2) (Token.lists_intercalate h.1 h.2) h.1
      (Token.mark_optionalMark optional r)
  | .reference id optional, h, r => by
    rw [Term.print, List.append_assoc]
    exact .name (.nothing _) h (Token.mark_optionalMark optional r)
  | .group body optional, h, r => by
    rw [Term.print, List.cons_append, List.append_assoc, List.cons_append]
    exact .group (.nothing _) (Sequence.readsAs_print body h.1 h.2 _) (.nothing _)
      (Token.mark_optionalMark optional r)

theorem Alternation.readsAs_print : ∀ ts : List Term, ts ≠ [] → Alternation.AllExpressible ts →
    ∀ r : Text, Alternation.ReadsAs (Alternation.print ts ++ r) ts r
  | [], hne, _, _ => absurd rfl hne
  | [t], _, h, r => .single (Term.readsAs_print t h.1 r)
  | t :: u :: ts, _, h, r => by
    have hmore := Alternation.readsAs_print (u :: ts) (List.cons_ne_nil u ts) h.2 r
    rw [Alternation.print, List.append_assoc, List.cons_append, List.cons_append, List.cons_append]
    exact .cons (Term.readsAs_print t h.1 _) (Layout.before_space _)
      (hmore.of_before (Layout.before_space _))

theorem Sequence.readsAs_print : ∀ gs : List (List Term), gs ≠ [] → Sequence.AllExpressible gs →
    ∀ r : Text, Sequence.ReadsAs (Sequence.print gs ++ r) gs r
  | [], hne, _, _ => absurd rfl hne
  | [g], _, h, r => .single (Alternation.readsAs_print g h.1.1 h.1.2 r)
  | g :: k :: gs, _, h, r => by
    have hmore := Sequence.readsAs_print (k :: gs) (List.cons_ne_nil k gs) h.2 r
    rw [Sequence.print, List.append_assoc, List.cons_append, List.cons_append]
    exact .cons (Alternation.readsAs_print g h.1.1 h.1.2 _) (.nothing _)
      (hmore.of_before (Layout.before_space _))

end

/-! ## Rules and grammars -/

/-- A name is read with the kind that is written in front of it, if no white space follows. -/
theorem Rule.headReadsAs_print (kind : RuleKind) {id : Name} (hid : Token.IsName id) {r : Text}
    (hr : ∀ c, r.head? = some c → Token.partsKindWord c = false) :
    Rule.HeadReadsAs (kind.word ++ (id.toList ++ r)) kind id r := by
  cases kind with
  | plain => exact .plain hid fun _ c _ hc => hr c hc
  | entity =>
    have hword : RuleKind.entity.word = "entity".toList ++ [' '] := rfl
    rw [hword, List.append_assoc]
    exact .kinded Token.kindWord_entity (List.cons_ne_nil ' ' []) (List.forall_mem_singleton.2 rfl) hid
  | intent =>
    have hword : RuleKind.intent.word = "intent".toList ++ [' '] := rfl
    rw [hword, List.append_assoc]
    exact .kinded Token.kindWord_intent (List.cons_ne_nil ' ' []) (List.forall_mem_singleton.2 rfl) hid

/-- A rule that is written reads as that rule. -/
theorem Rule.readsAs_print {rule : Rule} (h : rule.Expressible) (r : Text) :
    Rule.ReadsAs (rule.print ++ r) rule r := by
  have hhead := Rule.headReadsAs_print rule.kind h.name
    (r := ':' :: ' ' :: (Sequence.print rule.body ++ ';' :: r)) (by
      intro c hc
      obtain rfl := Option.some.inj hc
      decide)
  have hbody := Sequence.readsAs_print rule.body h.body_ne_nil h.body (';' :: r)
  have hprint : rule.print ++ r = rule.kind.word ++
      (rule.id.toList ++ ':' :: ' ' :: (Sequence.print rule.body ++ ';' :: r)) := by
    simp only [Rule.print, List.append_assoc, List.cons_append, List.nil_append]
  rw [hprint]
  exact .rule (.nothing _) hhead (.nothing _) (hbody.of_before (Layout.before_space _)) (.nothing _)

namespace Grammar

/-- What is written of a grammar that can be written reads as that grammar. -/
theorem readsAs_print {g : Grammar} (h : Expressible g) : ReadsAs (print g) g := by
  induction g with
  | nil => exact .nil (.nothing _)
  | cons rule rules ih =>
    obtain ⟨hrule, hrules⟩ := List.forall_mem_cons.1 h
    have hprint : print (rule :: rules) = rule.print ++ '\n' :: print rules := by
      rw [print, List.flatMap_cons, List.append_assoc]
      rfl
    rw [hprint]
    refine .cons (Rule.readsAs_print hrule _) ((ih hrules).of_before ?_)
    exact .blank (by decide) (.nothing _)

theorem parse_print_of_expressible {g : Grammar} (h : Expressible g) : parse (print g) = .ok g :=
  parse_eq_ok_iff.2 (read_eq_ok_iff.2 (readsAs_print h))

/-- A grammar comes back from what is written of it exactly if it can be written; so all that is read from
a source does. -/
theorem parse_print :
    (∀ g : Grammar, parse (print g) = .ok g ↔ Expressible g) ∧
      ∀ (source : Text) (g : Grammar), parse source = .ok g → parse (print g) = .ok g :=
  ⟨fun _ => ⟨expressible_of_parse, parse_print_of_expressible⟩,
    fun _ _ h => parse_print_of_expressible (expressible_of_parse h)⟩

/-- Two rules that are called like kinds. -/
def kindNames : Grammar :=
  [⟨"entity", .entity, [[.literals ["a; b?".toList] false], [.reference "intent" true]]⟩,
    ⟨"intent", .plain, [[.group [[.reference "entity" false, .literals ["#".toList] false]] true]]⟩]

/-- Rules named like kinds, and an item that starts as a comment does. -/
theorem parse_print_kindNames :
    parse "ENTITY entity: [ a; b? ,], intent ?;  // #\nintent: (entity | [#])?;".toList = .ok kindNames ∧
      Expressible kindNames ∧ parse (print kindNames) = .ok kindNames := by
  obtain ⟨hiff, hback⟩ := parse_print
  have hsource : parse "ENTITY entity: [ a; b? ,], intent ?;  // #\nintent: (entity | [#])?;".toList =
      .ok kindNames := by decide +kernel
  exact ⟨hsource, (hiff kindNames).1 (hback _ _ hsource), hback _ _ hsource⟩

end Grammar

end UtteranceGrammar
