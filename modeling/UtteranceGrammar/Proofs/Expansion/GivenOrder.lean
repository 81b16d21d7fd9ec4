/-
Rules expanded in the order in which they are given.

Expansion does not ask whether its rules are in order, nor whether their names are distinct. It takes them as they
come, each with those in front of it at hand, and of several rules of one name the last one counts. Whether that
ends well can be told from the rules alone: each has to fit behind those in front of it (`Grammar.Fitting`), that
is, have no part missing and refer to names in front of it only. `Grammar.expand_given` says that nothing else is
needed, and what comes of it either way.

Which faults a rule has depends on the names that are known and not on what is known of them
(`Sequence.faults_congr`). So the faults can be read off the list, and the first fault of the first rule that does
not fit is what expansion ends with. In the other case every reference is to texts that are there, and they could as
well have been written in its place: the rule with these texts for its references needs nothing at hand
(`Rule.expand_inline`).
-/
import UtteranceGrammar.Proofs.Expansion.Locality

set_option autoImplicit false

namespace UtteranceGrammar

/-! ## Known names -/

/-- The names that are known, with no texts. -/
def Lookup.ofNames (known : List Name) : Lookup := fun id => if id ∈ known then some [] else none

theorem Lookup.isSome_ofNames {known : List Name} {id : Name} :
    (ofNames known id).isSome = true ↔ id ∈ known := by
  by_cases hid : id ∈ known <;> simp [ofNames, hid]

section Congruence

variable {lookup lookup' : Lookup} (rule : Name)

mutual

/-- The faults of a term depend on the rules at hand only by which of its references they know. -/
theorem Term.faults_congr : ∀ t : Term,
    (∀ id ∈ t.references, (lookup id).isSome = (lookup' id).isSome) →
    t.faults lookup rule = t.faults lookup' rule
  | .literals _ _, _ => rfl
  | .reference id _, h => by
    rw [Term.faults, Term.faults, h id List.mem_cons_self]
  | .group body _, h => by
    rw [Term.faults, Term.faults, Sequence.faultsWithin_congr body h]

theorem Alternation.faultsWithin_congr : ∀ ts : List Term,
    (∀ id ∈ Alternation.references ts, (lookup id).isSome = (lookup' id).isSome) →
    Alternation.faultsWithin lookup rule ts = Alternation.faultsWithin lookup' rule ts
  | [], _ => rfl
  | t :: ts, h => by
    rw [Alternation.references, List.forall_mem_append] at h
    rw [Alternation.faultsWithin, Alternation.faultsWithin, Term.faults_congr t h.1,
      Alternation.faultsWithin_congr ts h.2]

theorem Sequence.faultsWithin_congr : ∀ gs : List (List Term),
    (∀ id ∈ Sequence.references gs, (lookup id).isSome = (lookup' id).isSome) →
    Sequence.faultsWithin lookup rule gs = Sequence.faultsWithin lookup' rule gs
  | [], _ => rfl
  | g :: gs, h => by
    rw [Sequence.references, List.forall_mem_append] at h
    rw [Sequence.faultsWithin, Sequence.faultsWithin, Alternation.faultsWithin_congr g h.1,
      Sequence.faultsWithin_congr gs h.2]

end

/-- The faults of a pattern depend only on which of its references can be looked up. -/
theorem Sequence.faults_congr {gs : Sequence}
    (h : ∀ id ∈ Sequence.references gs, (lookup id).isSome = (lookup' id).isSome) :
    Sequence.faults lookup rule gs = Sequence.faults lookup' rule gs := by
  rw [faults, faults, faultsWithin_congr rule gs h]

end Congruence

namespace Rule

/-- The faults in a rule's pattern, in reading order, if these names are known. -/
def faults (known : List Name) (r : Rule) : List ExpansionError :=
  Sequence.faults (.ofNames known) r.id r.body

/-- The rule can be expanded if these names are known: no part is missing in it, and it refers to known names
only. -/
structure Fits (known : List Name) (r : Rule) : Prop where
  not_hollow : r.isHollow = false
  mem_known : ∀ id ∈ r.references, id ∈ known

/-- A rule without faults behind the known names is one that fits there. -/
theorem faults_eq_nil_iff {known : List Name} {r : Rule} : r.faults known = [] ↔ r.Fits known := by
  rw [faults, Sequence.faults_eq_nil_iff]
  simp only [Lookup.isSome_ofNames]
  exact ⟨fun h => ⟨h.1, h.2⟩, fun h => ⟨h.not_hollow, h.mem_known⟩⟩

/-- The first fault of a rule is a hollow pattern or a reference to a name that is not known. -/
theorem eq_of_head?_faults {known : List Name} {r : Rule} {error : ExpansionError}
    (h : (r.faults known).head? = some error) :
    error = .emptyPattern r.id ∨ ∃ id ∈ r.references, id ∉ known ∧ error = .notExpanded id := by
  refine (Sequence.isFaultOf_of_mem_faults (List.mem_of_mem_head? h)).imp_right ?_
  rintro ⟨id, hid, hnone, rfl⟩
  refine ⟨id, hid, fun hmem => ?_, rfl⟩
  rw [← Lookup.isSome_ofNames, hnone] at hmem
  exact Bool.false_ne_true hmem

variable {x : Expansion} {r : Rule}

/-- Against an expansion a rule has the faults that it has behind the names of the rules in it. -/
theorem faults_order :
    Sequence.faults x.lookup r.id r.body = r.faults x.order := by
  refine Sequence.faults_congr r.id fun id _ => ?_
  rw [Bool.eq_iff_iff, Expansion.isSome_lookup, Lookup.isSome_ofNames]

/-- A rule that does not fit ends expansion with its first fault. -/
theorem expand_of_faults {error : ExpansionError} (h : (r.faults x.order).head? = some error) :
    r.expand x.lookup = .error error := by
  obtain ⟨more, hfaults⟩ := List.head?_eq_some_iff.1 h
  rw [expand, produce, Sequence.expand_eq, faults_order, hfaults]
  rfl

/-- A rule that has been expanded fits. -/
theorem fits_of_expand {e : ExpandedRule} (h : r.expand x.lookup = .ok e) : r.Fits x.order := by
  rw [← faults_eq_nil_iff]
  cases hfaults : r.faults x.order with
  | nil => rfl
  | cons error more =>
    rw [expand_of_faults (by rw [hfaults]; rfl)] at h
    cases h

end Rule

/-! ## Rules in the given order -/

namespace Grammar

/-- Every rule fits behind the rules in front of it. -/
def Fitting (rules : List Rule) : Prop :=
  ∀ earlier r later, rules = earlier ++ r :: later → r.Fits (ids earlier)

/-- One more rule fits if the rules in front of it do and it fits behind them. -/
theorem fitting_append_singleton {rules : List Rule} {r : Rule} :
    Fitting (rules ++ [r]) ↔ Fitting rules ∧ r.Fits (ids rules) :=
  forall_split_append_singleton

/-- Either all rules fit, or there is a first one that does not. -/
theorem fitting_or_exists (rules : List Rule) :
    Fitting rules ∨ ∃ earlier r later, rules = earlier ++ r :: later ∧ Fitting earlier ∧
      ¬r.Fits (ids earlier) := by
  induction rules using List.reverseRecOn with
  | nil => exact .inl fun earlier r later h => by simp at h
  | append_singleton rules r ih =>
    rcases ih with hrules | ⟨earlier, s, later, rfl, hearlier, hs⟩
    · by_cases hr : r.Fits (ids rules)
      · exact .inl (fitting_append_singleton.2 ⟨hrules, hr⟩)
      · exact .inr ⟨rules, r, [], rfl, hrules, hr⟩
    · exact .inr ⟨earlier, s, later ++ [r], by simp, hearlier, hs⟩

/-- Rules that fit are expanded, each to marked texts that denote its utterances. -/
theorem exists_expand_of_fitting {rules : List Rule} (h : Fitting rules)
    (hmark : ∀ r ∈ rules, r.Markable) :
    ∃ x, expand rules = .ok x ∧ x.order = ids rules ∧ x.Denoting := by
  induction rules using List.reverseRecOn with
  | nil => exact ⟨⟨[]⟩, rfl, rfl, fun e he => absurd he List.not_mem_nil⟩
  | append_singleton rules r ih =>
    rw [fitting_append_singleton] at h
    rw [List.forall_mem_append, List.forall_mem_singleton] at hmark
    obtain ⟨x, hx, horder, hdenoting⟩ := ih h.1 hmark.1
    have hexpand := Rule.expand_of_found hmark.2 hdenoting (by rw [horder]; exact h.2.mem_known)
    rw [h.2.not_hollow, if_neg Bool.false_ne_true] at hexpand
    obtain ⟨marked, hr, hmarked⟩ := hexpand
    refine ⟨⟨x.rules ++ [⟨r, marked, r.annotate x.utterancesOf⟩]⟩, ?_, ?_, ?_⟩
    · rw [expand_append, hx]
      show x.add r = _
      rw [Expansion.add, hr]
      rfl
    · rw [Expansion.order, List.map_append, ids, List.map_append, ← ids, ← horder]
      rfl
    · rw [Expansion.Denoting, List.forall_mem_append, List.forall_mem_singleton]
      exact ⟨hdenoting, hmarked⟩

/-- The first rule that does not fit ends expansion, whatever stands behind it. -/
theorem expand_of_not_fits {earlier later : List Rule} {r : Rule} {error : ExpansionError}
    (h : Fitting earlier) (hmark : ∀ s ∈ earlier, s.Markable)
    (herror : (r.faults (ids earlier)).head? = some error) :
    expand (earlier ++ r :: later) = .error error := by
  obtain ⟨x, hx, horder, -⟩ := exists_expand_of_fitting h hmark
  rw [← horder] at herror
  rw [expand] at hx
  rw [expand, List.foldlM_append, hx]
  show (List.foldlM Expansion.add x (r :: later)) = _
  rw [List.foldlM_cons, Expansion.add, Rule.expand_of_faults herror]
  rfl

/-- What is expanded has an entry for each rule in its place, and each entry is what its rule yields with those in
front of it at hand. -/
theorem entries_of_expand {rules : List Rule} {x : Expansion} (hx : expand rules = .ok x) :
    x.rules.map ExpandedRule.rule = rules ∧
      ∀ earlier e later, x.rules = earlier ++ e :: later →
        e.rule.expand (Expansion.lookup ⟨earlier⟩) = .ok e := by
  induction rules using List.reverseRecOn generalizing x with
  | nil =>
    obtain rfl := Except.ok.inj hx
    exact ⟨rfl, fun earlier e later h => by simp at h⟩
  | append_singleton rules r ih =>
    rw [expand_append] at hx
    cases hy : expand rules with
    | error error =>
      rw [hy] at hx
      cases hx
    | ok y =>
      rw [hy] at hx
      obtain ⟨hrules, hentries⟩ := ih hy
      obtain ⟨e, he, rfl⟩ := Expansion.exists_of_add hx
      obtain rfl := Rule.rule_of_expand he
      refine ⟨?_, forall_split_append_singleton.2 ⟨hentries, he⟩⟩
      rw [List.map_append, hrules]
      rfl

end Grammar

/-! ## References replaced by texts -/

mutual

/-- The term with texts in place of its references. -/
def Term.inline (texts : Name → List Text) : Term → Term
  | .literals items optional => .literals items optional
  | .reference id optional => .literals (texts id) optional
  | .group body optional => .group (Sequence.inline texts body) optional

/-- Terms with texts in place of their references. -/
def Alternation.inline (texts : Name → List Text) : List Term → List Term
  | [] => []
  | t :: ts => t.inline texts :: Alternation.inline texts ts

/-- A sequence with texts in place of its references. -/
def Sequence.inline (texts : Name → List Text) : List (List Term) → List (List Term)
  | [] => []
  | g :: gs => Alternation.inline texts g :: Sequence.inline texts gs

end

/-- The rule with texts in place of its references. -/
def Rule.inline (texts : Name → List Text) (r : Rule) : Rule :=
  { r with body := Sequence.inline texts r.body }

section Inline

variable {lookup : Lookup} (rule : Name)

/-- Texts in place of references leave the mark of an alternation as it is. -/
theorem Alternation.variants_inline (texts : Name → List Text) (ts : Alternation) :
    Alternation.variants rule (Alternation.inline texts ts) = Alternation.variants rule ts := by
  funext results
  match ts with
  | [] => rfl
  | [t] => cases t <;> rfl
  | _ :: _ :: _ => rfl

mutual

/-- A term whose references are all known yields the same with their texts put in, where nothing is at hand. -/
theorem Term.expand_inline : ∀ t : Term, (∀ id ∈ t.references, (lookup id).isSome = true) →
    (t.inline lookup.table).expand (fun _ => none) rule = t.expand lookup rule
  | .literals _ _, _ => rfl
  | .reference id _, h => by
    obtain ⟨texts, htexts⟩ := Option.isSome_iff_exists.1 (h id List.mem_cons_self)
    rw [Term.inline, Term.expand, Term.expand, Lookup.table, htexts]
    rfl
  | .group body _, h => by
    rw [Term.inline, Term.expand, Term.expand, Sequence.expandEach_inline body h]

theorem Alternation.expandEach_inline : ∀ ts : List Term,
    (∀ id ∈ Alternation.references ts, (lookup id).isSome = true) →
    Alternation.expandEach (fun _ => none) rule (Alternation.inline lookup.table ts) =
      Alternation.expandEach lookup rule ts
  | [], _ => rfl
  | t :: ts, h => by
    rw [Alternation.references, List.forall_mem_append] at h
    rw [Alternation.inline, Alternation.expandEach, Alternation.expandEach, Term.expand_inline t h.1,
      Alternation.expandEach_inline ts h.2]

theorem Sequence.expandEach_inline : ∀ gs : List (List Term),
    (∀ id ∈ Sequence.references gs, (lookup id).isSome = true) →
    Sequence.expandEach (fun _ => none) rule (Sequence.inline lookup.table gs) =
      Sequence.expandEach lookup rule gs
  | [], _ => rfl
  | g :: gs, h => by
    rw [Sequence.references, List.forall_mem_append] at h
    rw [Sequence.inline, Sequence.expandEach, Sequence.expandEach, Alternation.expandEach_inline g h.1,
      Alternation.variants_inline, Sequence.expandEach_inline gs h.2]

end

end Inline

/-- A rule whose references are replaced by the texts that they stand for yields the same, with nothing at
hand. -/
theorem Rule.expand_inline {lookup : Lookup} {r : Rule} {e : ExpandedRule}
    (href : ∀ id ∈ r.references, (lookup id).isSome = true) (he : r.expand lookup = .ok e) :
    (r.inline lookup.table).expand (fun _ => none) = .ok { e with rule := r.inline lookup.table } := by
  have hproduce : (r.inline lookup.table).produce (fun _ => none) = r.produce lookup := by
    rw [produce, produce, inline, Sequence.expand, Sequence.expand, Sequence.expandEach_inline _ _ href]
  obtain ⟨texts, utterances, htexts, hutterances, rfl⟩ := expand_eq_ok_iff.1 he
  rw [← hproduce] at htexts
  exact expand_eq_ok_iff.2 ⟨texts, utterances, htexts, hutterances, rfl⟩

/-! ## The last rule of a name -/

/-- The entry is the last one of the name. -/
def IsLastOf (entries : List ExpandedRule) (id : Name) (e : ExpandedRule) : Prop :=
  ∃ front rear, entries = front ++ e :: rear ∧ e.rule.id = id ∧ ∀ d ∈ rear, d.rule.id ≠ id

/-- The entry that is found under a name is the last one of that name. -/
theorem Expansion.get?_eq_some_iff {x : Expansion} {id : Name} {e : ExpandedRule} :
    x.get? id = some e ↔ IsLastOf x.rules id e := by
  rw [get?, List.find?_eq_some_iff_append, IsLastOf]
  simp only [decide_eq_true_eq, Bool.not_eq_true', decide_eq_false_iff_not]
  constructor
  · rintro ⟨hid, as, bs, hsplit, hnot⟩
    refine ⟨bs.reverse, as.reverse, ?_, hid, fun d hd => hnot d (List.mem_reverse.1 hd)⟩
    have hrules := congrArg List.reverse hsplit
    simpa using hrules
  · rintro ⟨front, rear, hsplit, hid, hnot⟩
    refine ⟨hid, rear.reverse, front.reverse, ?_, fun d hd => hnot d (List.mem_reverse.1 hd)⟩
    rw [hsplit]
    simp

/-! ## All lists of rules -/

namespace Grammar

/-- **Rules in any order, with names repeated or not.** They are expanded if and only if every rule fits behind
those in front of it. If not, the first fault of the first rule that does not fit is named: its name if a part is
missing in it, else the name that it refers to in vain. If so, the entries are in the order of the rules, each is
what its rule yields once every reference is replaced by the marked texts of the last rule of that name in front of
it, and a name stands for the last rule that bears it. -/
theorem expand_given {rules : List Rule} (hmark : ∀ r ∈ rules, r.Markable) :
    ((∃ x, expand rules = .ok x) ↔ Fitting rules) ∧
    (∀ error, expand rules = .error error ↔
      ∃ earlier r later, rules = earlier ++ r :: later ∧ Fitting earlier ∧
        (r.faults (ids earlier)).head? = some error ∧
        (error = .emptyPattern r.id ∨
          ∃ id ∈ r.references, id ∉ ids earlier ∧ error = .notExpanded id)) ∧
    ∀ x, expand rules = .ok x →
      x.rules.map ExpandedRule.rule = rules ∧
      (∀ earlier e later, x.rules = earlier ++ e :: later →
        ∃ texts : Name → List Text,
          (∀ id ∈ e.rule.references, ∃ d, IsLastOf earlier id d ∧ texts id = d.marked) ∧
          (e.rule.inline texts).expand (fun _ => none) =
            .ok { e with rule := e.rule.inline texts }) ∧
      ∀ id e, x.get? id = some e ↔ IsLastOf x.rules id e := by
  have hfails : ∀ {earlier r later error}, rules = earlier ++ r :: later → Fitting earlier →
      (r.faults (ids earlier)).head? = some error → expand rules = .error error := by
    rintro earlier r later error rfl hearlier herror
    exact expand_of_not_fits hearlier (List.forall_mem_append.1 hmark).1 herror
  -- there is a first fault in the first rule that does not fit
  have hfirst : ∀ {earlier r}, ¬Rule.Fits (ids earlier) r →
      ∃ error, (r.faults (ids earlier)).head? = some error := by
    intro earlier r hr
    rw [← Rule.faults_eq_nil_iff] at hr
    obtain ⟨error, more, hfaults⟩ := List.exists_cons_of_ne_nil hr
    exact ⟨error, by rw [hfaults]; rfl⟩
  refine ⟨⟨?_, ?_⟩, fun error => ⟨?_, ?_⟩, fun x hx => ?_⟩
  · rintro ⟨x, hx⟩
    refine (fitting_or_exists rules).resolve_right ?_
    rintro ⟨earlier, r, later, hsplit, hearlier, hr⟩
    obtain ⟨error, herror⟩ := hfirst hr
    rw [hfails hsplit hearlier herror] at hx
    cases hx
  · intro h
    obtain ⟨x, hx, -⟩ := exists_expand_of_fitting h hmark
    exact ⟨x, hx⟩
  · intro hx
    rcases fitting_or_exists rules with h | ⟨earlier, r, later, hsplit, hearlier, hr⟩
    · obtain ⟨x, hok, -⟩ := exists_expand_of_fitting h hmark
      rw [hx] at hok
      cases hok
    · obtain ⟨error', herror⟩ := hfirst hr
      rw [hfails hsplit hearlier herror] at hx
      obtain rfl := Except.error.inj hx
      exact ⟨earlier, r, later, hsplit, hearlier, herror, Rule.eq_of_head?_faults herror⟩
  · rintro ⟨earlier, r, later, hsplit, hearlier, herror, -⟩
    exact hfails hsplit hearlier herror
  · obtain ⟨hrules, hentries⟩ := entries_of_expand hx
    refine ⟨hrules, fun earlier e later hsplit => ?_, fun id e => Expansion.get?_eq_some_iff⟩
    have he := hentries earlier e later hsplit
    have hfound : ∀ id ∈ e.rule.references, (Expansion.lookup ⟨earlier⟩ id).isSome = true := by
      intro id hid
      exact Expansion.isSome_lookup.2 ((Rule.fits_of_expand he).mem_known id hid)
    refine ⟨(Expansion.lookup ⟨earlier⟩).table, fun id hid => ?_, Rule.expand_inline hfound he⟩
    obtain ⟨texts, htexts⟩ := Option.isSome_iff_exists.1 (hfound id hid)
    obtain ⟨d, hd, hmarked⟩ := Option.map_eq_some_iff.1 htexts
    refine ⟨d, Expansion.get?_eq_some_iff.1 hd, ?_⟩
    rw [Lookup.table, htexts, hmarked]
    rfl

/-- One city. -/
def brnoRule : Rule := ⟨"CITY", .entity, [[.literals ["Brno".toList] false]]⟩

/-- A way to the city. -/
def goRule : Rule := ⟨"Go", .intent, [[.literals ["to".toList] false], [.reference "CITY" false]]⟩

/-- Another city, under the same name. -/
def pragueRule : Rule := ⟨"CITY", .entity, [[.literals ["Prague".toList] false]]⟩

/-- Two rules of one name, and one that refers to that name in front of the second. -/
def twoCities : List Rule := [brnoRule, goRule, pragueRule]

/-- The way leads to the first city, and the name stands for the second one. -/
def twoCitiesExpansion : Expansion where
  rules :=
    let brno : Entity := ⟨"CITY", "Brno".toList, 0, 4⟩
    [⟨brnoRule, [Markup.wrap "CITY" "Brno".toList], [⟨"Brno".toList, [brno]⟩]⟩,
      ⟨goRule, ["to ".toList ++ Markup.wrap "CITY" "Brno".toList], [⟨"to Brno".toList, [brno.shift 3]⟩]⟩,
      ⟨pragueRule, [Markup.wrap "CITY" "Prague".toList],
        [⟨"Prague".toList, [⟨"CITY", "Prague".toList, 0, 6⟩]⟩]⟩]

/-- A rule that refers to an unknown name and, behind that, lacks a part. -/
def lostRule : Rule :=
  ⟨"Lost", .plain, [[.reference "CITY" false], [.group [[.reference "TOWN" false], []] true]]⟩

/-- Of two rules of one name, a rule between them gets the first and a search finds the second. With a rule that does
not fit put in behind them, its first fault is reported, and neither its second one nor any rule behind it matters.
-/
theorem expand_given_twoCities :
    expand twoCities = .ok twoCitiesExpansion ∧ Fitting twoCities ∧
      (∃ e, IsLastOf twoCitiesExpansion.rules "CITY" e ∧ e.texts = ["Prague".toList]) ∧
      expand (twoCities ++ lostRule :: twoCities) = .error (.notExpanded "TOWN") := by
  have hexpand : expand twoCities = .ok twoCitiesExpansion := by decide +kernel
  have hmarkable : ∀ r ∈ twoCities, r.Markable := by
    intro r hr
    have hfree : ∀ r ∈ twoCities, ∀ s ∈ r.items, Markup.Free s := by decide +kernel
    have hname : ∀ r ∈ twoCities, ']' ∉ r.id.toList := by decide +kernel
    exact ⟨hfree r hr, fun _ => hname r hr⟩
  have hlost : ∀ r ∈ twoCities ++ lostRule :: twoCities, r.Markable := by
    rw [List.forall_mem_append, List.forall_mem_cons]
    exact ⟨hmarkable, ⟨nofun, nofun⟩, hmarkable⟩
  obtain ⟨hiff, -, hentries⟩ := expand_given hmarkable
  have hfitting : Fitting twoCities := hiff.1 ⟨_, hexpand⟩
  refine ⟨hexpand, hfitting, ⟨_, ((hentries _ hexpand).2.2 "CITY" _).1 rfl, rfl⟩, ?_⟩
  refine ((expand_given hlost).2.1 _).2 ⟨twoCities, lostRule, twoCities, rfl, hfitting, by decide +kernel, ?_⟩
  exact .inr ⟨"TOWN", by decide +kernel, by decide +kernel, rfl⟩

end Grammar

end UtteranceGrammar
