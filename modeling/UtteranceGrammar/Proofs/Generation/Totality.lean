/-
Generation does not break down.

Most of what expansion can complain of cannot happen behind resolution. Resolution puts every rule
behind the rules that it refers to, however deep in parentheses, so no reference misses its rule. Marks
that expansion has made itself are balanced, and stay so when texts are joined and trimmed, so no text
fails to decode. What remains is a hollow rule, and expansion ends at the first one in the order
(`Grammar.outcome_of_resolve`).

Neither a source nor the operations on expressions give a hollow rule. For such grammars generation ends
with an invalid grammar or with an expansion (`Grammar.outcome_generate`).
-/
import UtteranceGrammar.Generation
import UtteranceGrammar.Proofs.Pattern.Construction
import UtteranceGrammar.Proofs.Source.Expressible

set_option autoImplicit false

namespace UtteranceGrammar

namespace Grammar

/-! ## Behind resolution -/

/-- Once the rules are in order, generation is expansion in that order. -/
theorem outcome_eq_of_resolve {g : Grammar} {order : List Rule} (h : (resolve g).order = .ok order) :
    (generate g).outcome = (expand order).mapError .expansion := by
  show (resolve g).expand = _
  rw [Resolution.expand, h]

/-- In the order that resolution finds, the first hollow rule ends generation, and nothing else does. -/
theorem outcome_of_resolve {g : Grammar} {order : List Rule} (h : (resolve g).order = .ok order)
    (hmark : ∀ r ∈ g, r.Markable) :
    match order.find? Rule.isHollow with
    | some r => (generate g).outcome = .error (.expansion (.emptyPattern r.id))
    | none => ∃ x, (generate g).outcome = .ok x ∧ x.Annotates order := by
  have hperm := perm_of_resolve h
  have hexpand := expand_of_ordered (ordered_of_resolve h) (nodup_ids_of_resolve h)
    fun r hr => hmark r (hperm.mem_iff.1 hr)
  rw [outcome_eq_of_resolve h]
  cases hfind : order.find? Rule.isHollow with
  | some r =>
    rw [hfind] at hexpand
    show (expand order).mapError _ = _
    rw [hexpand]
    rfl
  | none =>
    rw [hfind] at hexpand
    obtain ⟨x, hx, hann⟩ := hexpand
    refine ⟨x, ?_, hann⟩
    rw [hx]
    rfl

/-- Some rule is hollow just if one is found so on the way through the order. -/
theorem exists_isHollow_iff {g : Grammar} {order : List Rule} (h : (resolve g).order = .ok order) :
    (∃ r ∈ g, r.isHollow = true) ↔ ∃ r, order.find? Rule.isHollow = some r := by
  rw [← Option.isSome_iff_exists, List.find?_isSome]
  constructor
  · rintro ⟨r, hr, hhollow⟩
    exact ⟨r, (perm_of_resolve h).mem_iff.2 hr, hhollow⟩
  · rintro ⟨r, hr, hhollow⟩
    exact ⟨r, (perm_of_resolve h).mem_iff.1 hr, hhollow⟩

/-- A grammar that can be written is expanded in the order that resolution finds. -/
theorem exists_annotates_of_resolve {g : Grammar} {order : List Rule} (hg : g.Expressible)
    (h : (resolve g).order = .ok order) :
    ∃ x, (generate g).outcome = .ok x ∧ x.Annotates order := by
  have hout := outcome_of_resolve h fun r hr => (hg r hr).markable
  have hnone : order.find? Rule.isHollow = none := by
    rw [List.find?_eq_none]
    intro r hr
    rw [(hg r ((perm_of_resolve h).mem_iff.1 hr)).not_hollow]
    exact Bool.false_ne_true
  rw [hnone] at hout
  exact hout

/-- Without hollow rules, a grammar is invalid or all of it is expanded. -/
theorem outcome_of_not_hollow {g : Grammar} (hmark : ∀ r ∈ g, r.Markable)
    (hhollow : ∀ r ∈ g, r.isHollow = false) :
    (∃ v, (generate g).outcome = .error (.invalid v)) ∨
      ∃ x order, (generate g).outcome = .ok x ∧ (resolve g).order = .ok order ∧
        x.Annotates order := by
  cases h : (resolve g).order with
  | error v =>
    refine .inl ⟨v, ?_⟩
    show (resolve g).expand = _
    rw [Resolution.expand, h]
  | ok order =>
    have hout := outcome_of_resolve h hmark
    cases hfind : order.find? Rule.isHollow with
    | some r =>
      obtain ⟨s, hs, hsome⟩ := (exists_isHollow_iff h).2 ⟨r, hfind⟩
      rw [hhollow s hs] at hsome
      exact absurd hsome Bool.false_ne_true
    | none =>
      rw [hfind] at hout
      obtain ⟨x, hx, hann⟩ := hout
      exact .inr ⟨x, order, hx, rfl, hann⟩

/-! ## Grammars that are built -/

/-- Every rule is built by the operations on expressions, under a name that can end a span's head. -/
def Built (g : Grammar) : Prop :=
  ∀ r ∈ g, (r.kind = .entity → ']' ∉ r.id.toList) ∧ ∃ e : Expression, e.Built ∧ r.body = e.toSequence

/-- What is built can be marked. -/
theorem Built.markable {g : Grammar} (h : g.Built) : ∀ r ∈ g, r.Markable := by
  intro r hr
  obtain ⟨hname, e, he, hbody⟩ := h r hr
  refine ⟨?_, hname⟩
  rw [Rule.items, hbody]
  exact he.free

/-- Nothing hollow can be built. -/
theorem Built.not_hollow {g : Grammar} (h : g.Built) : ∀ r ∈ g, r.isHollow = false := by
  intro r hr
  obtain ⟨-, e, he, hbody⟩ := h r hr
  rw [Rule.isHollow, hbody]
  exact he.isHollow_eq

/-! ## A grammar of flights -/

/-- Two cities. -/
def cityRule : Rule := ⟨"CITY", .entity, [[.literals ["Prague".toList, "Brno".toList] false]]⟩

/-- A way to a city. -/
def routeRule : Rule :=
  ⟨"ROUTE", .entity, [[.literals ["to".toList] false], [.reference "CITY" false]]⟩

/-- A flight, perhaps with a way. -/
def flyRule : Rule :=
  ⟨"Fly", .intent, [[.literals ["fly".toList] false], [.reference "ROUTE" true]]⟩

/-- Flights, the rules in front of those that they refer to. -/
def flights : Grammar := [flyRule, routeRule, cityRule]

/-- The texts of the flights. -/
def flightsExpansion : Expansion where
  rules :=
    let prague : Entity := ⟨"CITY", "Prague".toList, 0, 6⟩
    let brno : Entity := ⟨"CITY", "Brno".toList, 0, 4⟩
    let toPrague : Entity := ⟨"ROUTE", "to Prague".toList, 0, 9⟩
    let toBrno : Entity := ⟨"ROUTE", "to Brno".toList, 0, 7⟩
    [⟨cityRule, [Markup.wrap "CITY" "Prague".toList, Markup.wrap "CITY" "Brno".toList],
        [⟨"Prague".toList, [prague]⟩, ⟨"Brno".toList, [brno]⟩]⟩,
      ⟨routeRule,
        [Markup.wrap "ROUTE" ("to ".toList ++ Markup.wrap "CITY" "Prague".toList),
          Markup.wrap "ROUTE" ("to ".toList ++ Markup.wrap "CITY" "Brno".toList)],
        [⟨"to Prague".toList, [prague.shift 3, toPrague]⟩,
          ⟨"to Brno".toList, [brno.shift 3, toBrno]⟩]⟩,
      ⟨flyRule,
        ["fly ".toList ++ Markup.wrap "ROUTE" ("to ".toList ++ Markup.wrap "CITY" "Prague".toList),
          "fly ".toList ++ Markup.wrap "ROUTE" ("to ".toList ++ Markup.wrap "CITY" "Brno".toList),
          "fly".toList],
        [⟨"fly to Prague".toList, [prague.shift 7, toPrague.shift 4]⟩,
          ⟨"fly to Brno".toList, [brno.shift 7, toBrno.shift 4]⟩, ⟨"fly".toList, []⟩]⟩]

/-- The flights as they are written. -/
theorem parse_flights :
    parse "intent Fly: [fly], ROUTE?; entity ROUTE: [to], CITY; entity CITY: [Prague, Brno];".toList =
      .ok flights := by
  decide +kernel

theorem resolve_flights : (resolve flights).order = .ok [cityRule, routeRule, flyRule] := by
  decide +kernel

/-- The flights with their texts. -/
theorem generate_flights : (generate flights).outcome = .ok flightsExpansion := by decide +kernel

theorem built_flights : flights.Built := by
  have hcities : ∀ s ∈ ["Prague".toList, "Brno".toList], Markup.Free s := by decide
  have hto : ∀ s ∈ ["to".toList], Markup.Free s := by decide
  have hfly : ∀ s ∈ ["fly".toList], Markup.Free s := by decide
  rw [Built, flights, List.forall_mem_cons, List.forall_mem_cons, List.forall_mem_singleton]
  refine ⟨⟨nofun, .sequence flyRule.body, ?_, rfl⟩,
    ⟨fun _ => by decide, .sequence routeRule.body, ?_, rfl⟩,
    fun _ => by decide, _, .literals _ hcities, rfl⟩
  · exact .andThen (.literals _ hfly) (.optional (.reference "ROUTE") rfl) rfl
  · exact .andThen (.literals _ hto) (.reference "CITY") rfl

/-! ## All grammars -/

/-- What comes of generation. Once resolution has found an order and no mark can be mistaken, the only
error is a hollow rule, the first one in that order. There is none in a grammar that was read or built,
so that generation can only fail because the grammar is invalid. -/
theorem outcome_generate (g : Grammar) :
    (∀ order, (resolve g).order = .ok order → (∀ r ∈ g, r.Markable) →
      (∀ error, (generate g).outcome = .error error →
        ∃ r, order.find? Rule.isHollow = some r ∧ error = .expansion (.emptyPattern r.id)) ∧
      ((∃ id, (generate g).outcome = .error (.expansion (.emptyPattern id))) ↔
        ∃ r ∈ g, r.isHollow = true) ∧
      ((∀ r ∈ g, r.isHollow = false) → ∃ x, (generate g).outcome = .ok x)) ∧
    (∀ source, parse source = .ok g →
      (∃ v, (generate g).outcome = .error (.invalid v)) ∨ ∃ x, (generate g).outcome = .ok x) ∧
    (g.Built →
      (∃ v, (generate g).outcome = .error (.invalid v)) ∨ ∃ x, (generate g).outcome = .ok x) := by
  refine ⟨?_, ?_, ?_⟩
  · intro order h hmark
    have hout := outcome_of_resolve h hmark
    rw [exists_isHollow_iff h]
    cases hfind : order.find? Rule.isHollow with
    | some r =>
      rw [hfind] at hout
      refine ⟨?_, ?_, ?_⟩
      · intro error herror
        refine ⟨r, rfl, ?_⟩
        rw [hout] at herror
        exact (Except.error.inj herror).symm
      · exact ⟨fun _ => ⟨r, rfl⟩, fun _ => ⟨r.id, hout⟩⟩
      · intro hnone
        obtain ⟨s, hs, hsome⟩ := (exists_isHollow_iff h).2 ⟨r, hfind⟩
        rw [hnone s hs] at hsome
        exact absurd hsome Bool.false_ne_true
    | none =>
      rw [hfind] at hout
      obtain ⟨x, hx, -⟩ := hout
      refine ⟨?_, ?_, ?_⟩
      · intro error herror
        rw [hx] at herror
        exact absurd herror.symm (by simp)
      · constructor
        · rintro ⟨id, herror⟩
          rw [hx] at herror
          exact absurd herror.symm (by simp)
        · rintro ⟨r, hr⟩
          exact absurd hr.symm (Option.some_ne_none r)
      · exact fun _ => ⟨x, hx⟩
  · intro source hsource
    have hg := expressible_of_parse hsource
    refine (outcome_of_not_hollow (fun r hr => (hg r hr).markable)
      fun r hr => (hg r hr).not_hollow).imp_right ?_
    rintro ⟨x, -, hx, -, -⟩
    exact ⟨x, hx⟩
  · intro hg
    refine (outcome_of_not_hollow hg.markable hg.not_hollow).imp_right ?_
    rintro ⟨x, -, hx, -, -⟩
    exact ⟨x, hx⟩

/-- The flights are expanded, and a hollow rule beside them ends expansion. Without the rules that it refers to, the
rule for a flight is built all the same, but makes an invalid grammar. -/
theorem outcome_generate_flights :
    (∃ x, (generate flights).outcome = .ok x) ∧
      (generate (flights ++ [⟨"Stay", .intent, [[.group [[]] false]]⟩])).outcome =
        .error (.expansion (.emptyPattern "Stay")) ∧
      ((∃ v, (generate flights).outcome = .error (.invalid v)) ∨
        ∃ x, (generate flights).outcome = .ok x) ∧
      ∃ v, (generate [flyRule]).outcome = .error (.invalid v) := by
  obtain ⟨hresolved, hread, -⟩ := outcome_generate flights
  obtain ⟨-, -, hsome⟩ := hresolved _ resolve_flights built_flights.markable
  refine ⟨hsome built_flights.not_hollow, ?_, hread _ parse_flights, ?_⟩
  · have hmark : ∀ r ∈ flights ++ [⟨"Stay", .intent, [[.group [[]] false]]⟩], r.Markable := by
      rw [List.forall_mem_append, List.forall_mem_singleton]
      exact ⟨built_flights.markable, nofun, nofun⟩
    obtain ⟨hfirst, hiff, -⟩ := (outcome_generate _).1
      [cityRule, routeRule, flyRule, ⟨"Stay", .intent, [[.group [[]] false]]⟩] (by decide +kernel) hmark
    obtain ⟨id, hid⟩ := hiff.2 ⟨_, List.mem_append_right _ (List.mem_singleton_self _), rfl⟩
    obtain ⟨r, hr, herror⟩ := hfirst _ hid
    rw [hid, herror, ← Option.some.inj (hr : some _ = some r)]
  · have hbuilt : Built [flyRule] := by
      rw [Built, List.forall_mem_singleton]
      exact built_flights flyRule List.mem_cons_self
    have hfails : (generate [flyRule]).outcome.toOption = none := by decide +kernel
    refine ((outcome_generate [flyRule]).2.2 hbuilt).resolve_right ?_
    rintro ⟨x, hx⟩
    rw [hx] at hfails
    exact Option.some_ne_none x hfails

end Grammar

end UtteranceGrammar
