import SingBox.DNS.Walk

/-!
# The loop of the legacy mode

`exchangeLegacy` asks the server of the first rule that matches, and if the address limit of the rule rejects the
response, goes on with the rules behind it. Every round begins with the options of the query: what earlier rules
have set is forgotten with the rejected rule.
-/
namespace SingBox.DNS

variable {τ ε ρ ι : Type}

/-- What a rule says about the query. -/
structure Setting where
  strategy : DomainStrategy
  options : RouteOptions

def Setting.apply (s : Setting) (isFakeIP : Bool) (options : QueryOptions) : QueryOptions :=
  let options := if s.strategy ≠ .asIS then { options with strategy := s.strategy } else options
  let options := if isFakeIP || s.options.disableCache then { options with disableCache := true } else options
  let options := if s.options.rewriteTTL.isSome then { options with rewriteTTL := s.options.rewriteTTL } else options
  let options := if s.options.timeout > 0 then { options with timeout := s.options.timeout } else options
  let options :=
    if s.options.clientSubnet.isSome then
      { options with clientSubnet := s.options.clientSubnet, removeClientSubnet := false }
    else options
  if s.options.removeClientSubnet then { options with clientSubnet := none, removeClientSubnet := true } else options

/-- The actions of the legacy mode; a DNS rule rejects by an answer or by none. -/
inductive LegacyAction (ρ : Type) where
  | route (server : String) (setting : Setting)
  | routeOptions (setting : Setting)
  | reject (drop : Bool)
  | predefined (response : ρ)

/-- A rule, whether it matches the query, and whether its address limit rejects the response of its server. -/
structure LegacyRule (ρ : Type) where
  withAddressLimit : Bool
  legacyPreMatch : Bool
  rejects : Bool
  action : LegacyAction ρ

/-- What the loop of `matchDNS` does with a rule: the options behind it, and the server if the rule is selected. -/
structure Considered (τ : Type) where
  options : QueryOptions
  selected : Option (Option τ)

/-- `matchDNS` returns; the rules behind the selected one stand for its index. -/
structure LegacyMatch (τ ρ : Type) where
  transport : Option τ
  rule : Option (LegacyRule ρ)
  rest : List (LegacyRule ρ)
  options : QueryOptions

inductive LegacyEnd (τ ρ : Type) where
  | refused
  | dropped
  | predefined (response : ρ)
  | exchanged (server : Option τ) (options : QueryOptions)
  deriving DecidableEq

/-- The server an end names. -/
def LegacyEnd.server : LegacyEnd τ ρ → Option (Option τ)
  | .exchanged server _ => some server
  | _ => none

section
variable (R : Router τ ε ρ ι) (isAddressQuery : Bool)

def considerRule (allowFakeIP : Bool) (rule : LegacyRule ρ) (options : QueryOptions) : Considered τ :=
  if rule.withAddressLimit && !isAddressQuery then ⟨options, none⟩
  else if !rule.legacyPreMatch then ⟨options, none⟩
  else
    match rule.action with
    | .route server setting =>
      match R.transport server with
      | none => ⟨options, none⟩
      | some transport =>
        if R.isFakeIP transport && !allowFakeIP then ⟨options, none⟩
        else ⟨setting.apply (R.isFakeIP transport) options, some (some transport)⟩
    | .routeOptions setting => ⟨setting.apply false options, none⟩
    | .reject _ => ⟨options, some none⟩
    | .predefined _ => ⟨options, some none⟩

def matchDNS (allowFakeIP : Bool) : List (LegacyRule ρ) → QueryOptions → LegacyMatch τ ρ
  | [], options => ⟨some R.default, none, [], options⟩
  | rule :: rules, options =>
    let considered := considerRule R isAddressQuery allowFakeIP rule options
    match considered.selected with
    | none => matchDNS allowFakeIP rules considered.options
    | some transport => ⟨transport, some rule, rules, considered.options⟩

/-- What `exchangeLegacy` does with a match; `again` goes on behind a rejected rule. The number of exchanges is
counted. -/
def concludeLegacy (again : List (LegacyRule ρ) → Option (LegacyEnd τ ρ × Nat)) (m : LegacyMatch τ ρ) :
    Option (LegacyEnd τ ρ × Nat) :=
  match m.rule.map LegacyRule.action with
  | some (.reject false) => some (.refused, 0)
  | some (.reject true) => some (.dropped, 0)
  | some (.predefined response) => some (.predefined response, 0)
  | _ =>
    if m.rule.any fun rule => rule.withAddressLimit && rule.rejects then (again m.rest).map fun e => (e.1, e.2 + 1)
    else some (.exchanged m.transport (R.finalizeExchangeOptions m.options), 1)

def exchangeLegacy (options : QueryOptions) : Nat → List (LegacyRule ρ) → Option (LegacyEnd τ ρ × Nat)
  | 0, _ => none
  | fuel + 1, rules =>
    concludeLegacy R (exchangeLegacy options fuel) (matchDNS R isAddressQuery true rules options)

/-! ## The rules one by one -/

/-- The rule makes an exchange whose response is rejected. -/
def LegacyRule.skipped (rule : LegacyRule ρ) : Bool :=
  match rule.action with
  | .route _ _ => rule.withAddressLimit && rule.rejects
  | _ => false

/-- The list without the rules whose responses are rejected. -/
def withoutRejected (rules : List (LegacyRule ρ)) : List (LegacyRule ρ) := rules.filter fun rule => !rule.skipped

/-- How the loop ends at a rule that is selected and not skipped. -/
def LegacyRule.ending (rule : LegacyRule ρ) (transport : Option τ) (options : QueryOptions) : LegacyEnd τ ρ :=
  match rule.action with
  | .reject false => .refused
  | .reject true => .dropped
  | .predefined response => .predefined response
  | _ => .exchanged transport (R.finalizeExchangeOptions options)

/-- The loop as one walk, which has come to `current`. -/
def legacyWalk (options : QueryOptions) : List (LegacyRule ρ) → QueryOptions → LegacyEnd τ ρ × Nat
  | [], current => (.exchanged (some R.default) (R.finalizeExchangeOptions current), 1)
  | rule :: rules, current =>
    let considered := considerRule R isAddressQuery true rule current
    match considered.selected with
    | none => legacyWalk options rules considered.options
    | some transport =>
      if rule.skipped then
        let e := legacyWalk options rules options
        (e.1, e.2 + 1)
      else
        (rule.ending R transport considered.options,
          match rule.action with | .reject _ => 0 | .predefined _ => 0 | _ => 1)

/-- What a rule that matches sets, and whether for FakeIP. -/
def LegacyRule.sets (rule : LegacyRule ρ) : Option (Setting × Bool) :=
  if rule.withAddressLimit && !isAddressQuery || !rule.legacyPreMatch then none
  else
    match rule.action with
    | .route server setting => (R.transport server).map fun transport => (setting, R.isFakeIP transport)
    | .routeOptions setting => some (setting, false)
    | _ => none

/-- The server of a rule that the loop of `matchDNS` stops at. -/
def LegacyRule.stops (rule : LegacyRule ρ) : Option (Option τ) :=
  if rule.withAddressLimit && !isAddressQuery || !rule.legacyPreMatch then none
  else
    match rule.action with
    | .route server _ => (R.transport server).map some
    | .routeOptions _ => none
    | _ => some none

/-- The options behind settings, one after the other. -/
def applySettings (settings : List (Setting × Bool)) (options : QueryOptions) : QueryOptions :=
  settings.foldl (fun o s => s.1.apply s.2 o) options

theorem considerRule_eq (rule : LegacyRule ρ) (o : QueryOptions) :
    considerRule R isAddressQuery true rule o =
      ⟨applySettings (rule.sets R isAddressQuery).toList o, rule.stops R isAddressQuery⟩ := by
  unfold considerRule LegacyRule.sets LegacyRule.stops
  cases rule.withAddressLimit && !isAddressQuery with
  | true => rfl
  | false =>
    cases rule.legacyPreMatch with
    | false => rfl
    | true =>
      cases rule.action with
      | route server setting => cases hserver : R.transport server <;> simp [hserver, applySettings]
      | _ => rfl

theorem concludeLegacy_matchDNS {options : QueryOptions} {fuel : Nat} {rules : List (LegacyRule ρ)}
    (hfuel : rules.length ≤ fuel) (current : QueryOptions) :
    concludeLegacy R (exchangeLegacy R isAddressQuery options fuel) (matchDNS R isAddressQuery true rules current) =
      some (legacyWalk R isAddressQuery options rules current) := by
  induction rules generalizing fuel current with
  | nil => rfl
  | cons rule rules ih =>
    rw [List.length_cons] at hfuel
    rw [matchDNS, legacyWalk]
    dsimp only
    cases hselected : (considerRule R isAddressQuery true rule current).selected with
    | none => exact ih (by omega) _
    | some transport =>
      obtain ⟨fuel, rfl⟩ : ∃ n, fuel = n + 1 := ⟨fuel - 1, by omega⟩
      have hagain : exchangeLegacy R isAddressQuery options (fuel + 1) rules =
          some (legacyWalk R isAddressQuery options rules options) := ih (by omega) options
      cases haction : rule.action with
      | reject drop => cases drop <;> simp [concludeLegacy, LegacyRule.skipped, LegacyRule.ending, haction]
      | predefined response => simp [concludeLegacy, LegacyRule.skipped, LegacyRule.ending, haction]
      | route server setting =>
        simp only [concludeLegacy, LegacyRule.skipped, LegacyRule.ending, haction, hagain, Option.map_some,
          Option.any_some]
        split <;> rfl
      | routeOptions setting =>
        -- such a rule is never selected
        rw [considerRule_eq, LegacyRule.stops, haction] at hselected
        split_ifs at hselected

theorem legacyWalk_exchanges (options : QueryOptions) (rules : List (LegacyRule ρ)) (current : QueryOptions) :
    (legacyWalk R isAddressQuery options rules current).2 ≤ rules.length + 1 := by
  induction rules generalizing current with
  | nil => exact Nat.le_refl 1
  | cons rule rules ih =>
    rw [legacyWalk, List.length_cons]
    dsimp only
    split
    · exact Nat.le_succ_of_le (ih _)
    · split
      · exact Nat.succ_le_succ (ih options)
      · dsimp only
        split <;> omega

/-! ## What is forgotten -/

/-- What the rules in front of the last rejected one set, if there is one, and what those behind it set. -/
def settings : List (LegacyRule ρ) → Option (List (Setting × Bool)) × List (Setting × Bool)
  | [] => (none, [])
  | rule :: rules =>
    let own := (rule.sets R isAddressQuery).toList
    match rule.stops R isAddressQuery, settings rules with
    | none, (none, kept) => (none, own ++ kept)
    | none, (some lost, kept) => (some (own ++ lost), kept)
    | some _, (lost, kept) => if rule.skipped then (some (lost.getD []), kept) else (none, own)

/-- The loop ends at the first of the rules it stops at whose response is not rejected. -/
def lastRule (rules : List (LegacyRule ρ)) : Option (LegacyRule ρ) :=
  rules.find? fun rule => (rule.stops R isAddressQuery).isSome && !rule.skipped

/-- The rule answers the query itself. -/
def LegacyRule.answers (rule : LegacyRule ρ) : Bool :=
  match rule.action with
  | .reject _ | .predefined _ => true
  | _ => false

variable {rule : LegacyRule ρ}

/-- A route rule that is not selected sets nothing. -/
theorem LegacyRule.sets_eq_none (hskipped : rule.skipped = true) (h : rule.stops R isAddressQuery = none) :
    rule.sets R isAddressQuery = none := by
  unfold LegacyRule.stops at h
  unfold LegacyRule.skipped at hskipped
  unfold LegacyRule.sets
  split_ifs at h ⊢
  · rfl
  cases haction : rule.action with
  | route server setting =>
    rw [haction] at h
    exact Option.map_eq_none_iff.mpr (Option.map_eq_none_iff.mp h)
  | _ => simp [haction] at hskipped

/-- A rule that is not selected may be left out only if it sets nothing. -/
theorem legacyWalk_without_none (h : rule.stops R isAddressQuery = none) (options : QueryOptions)
    (rules : List (LegacyRule ρ)) (o : QueryOptions) :
    legacyWalk R isAddressQuery options (withoutRejected (rule :: rules)) o =
      legacyWalk R isAddressQuery options (withoutRejected rules)
        (applySettings (rule.sets R isAddressQuery).toList o) := by
  cases hskipped : rule.skipped with
  | true =>
    rw [rule.sets_eq_none R isAddressQuery hskipped h, withoutRejected, List.filter_cons_of_neg (by simp [hskipped])]
    rfl
  | false =>
    rw [withoutRejected, List.filter_cons_of_pos (by simp [hskipped]), legacyWalk]
    simp only [considerRule_eq, h]
    rfl

/-- Both walks end alike: the loop with what is set behind the last rejected rule, and without the rejected rules with
what is set in front of it as well. -/
theorem legacyWalk_settings (options : QueryOptions) (rules : List (LegacyRule ρ)) :
    ∃ E : QueryOptions → LegacyEnd τ ρ,
      (((lastRule R isAddressQuery rules).any LegacyRule.answers = true ∧ ∃ e, E = fun _ => e) ∨
        ((lastRule R isAddressQuery rules).any LegacyRule.answers = false ∧
          ∃ server, E = fun o => .exchanged server (R.finalizeExchangeOptions o))) ∧
      ∀ o, (legacyWalk R isAddressQuery options rules o).1 =
          E (applySettings (settings R isAddressQuery rules).2
            (if (settings R isAddressQuery rules).1.isSome then options else o)) ∧
        (legacyWalk R isAddressQuery options (withoutRejected rules) o).1 =
          E (applySettings (settings R isAddressQuery rules).2
            (applySettings ((settings R isAddressQuery rules).1.getD []) o)) := by
  induction rules with
  | nil => exact ⟨_, .inr ⟨rfl, some R.default, rfl⟩, fun o => ⟨rfl, rfl⟩⟩
  | cons rule rules ih =>
    obtain ⟨E, hshape, hwalk⟩ := ih
    rw [settings]
    generalize settings R isAddressQuery rules = below at hwalk ⊢
    obtain ⟨lost, kept⟩ := below
    cases hstops : rule.stops R isAddressQuery with
    | none =>
      have hlast : lastRule R isAddressQuery (rule :: rules) = lastRule R isAddressQuery rules :=
        List.find?_cons_of_neg (by simp [hstops])
      refine ⟨E, hlast ▸ hshape, fun o => ?_⟩
      rw [legacyWalk_without_none R isAddressQuery hstops, (hwalk _).2, legacyWalk]
      simp only [considerRule_eq, hstops, (hwalk _).1]
      cases lost <;> simp [applySettings]
    | some transport =>
      cases hskipped : rule.skipped with
      | true =>
        have hlast : lastRule R isAddressQuery (rule :: rules) = lastRule R isAddressQuery rules :=
          List.find?_cons_of_neg (by simp [hskipped])
        refine ⟨E, hlast ▸ hshape, fun o => ?_⟩
        rw [withoutRejected, List.filter_cons_of_neg (by simp [hskipped]), ← withoutRejected, (hwalk o).2, legacyWalk]
        simp only [considerRule_eq, hstops, hskipped, if_true, (hwalk options).1, ite_self]
        exact ⟨rfl, rfl⟩
      | false =>
        have hlast : lastRule R isAddressQuery (rule :: rules) = some rule :=
          List.find?_cons_of_pos (by simp [hstops, hskipped])
        refine ⟨rule.ending R transport, ?_, fun o => ?_⟩
        · rw [hlast, Option.any_some, LegacyRule.answers]
          cases haction : rule.action with
          | reject drop => cases drop <;> exact .inl ⟨rfl, _, funext fun o => by rw [LegacyRule.ending, haction]⟩
          | predefined response => exact .inl ⟨rfl, _, funext fun o => by rw [LegacyRule.ending, haction]⟩
          | _ => exact .inr ⟨rfl, transport, funext fun o => by rw [LegacyRule.ending, haction]⟩
        · rw [withoutRejected, List.filter_cons_of_pos (by simp [hskipped]), legacyWalk, legacyWalk]
          simp only [considerRule_eq, hstops, hskipped]
          exact ⟨rfl, rfl⟩

end

/-! ## The fields of the options -/

/-- A field of the options, and what a setting makes of it. -/
structure Field (β : Type) where
  get : QueryOptions → β
  set : Setting × Bool → Option β

def strategyField : Field DomainStrategy where
  get := QueryOptions.strategy
  set s := if s.1.strategy ≠ .asIS then some s.1.strategy else none

def disableCacheField : Field Bool where
  get := QueryOptions.disableCache
  set s := if s.2 || s.1.options.disableCache then some true else none

def rewriteTTLField : Field (Option UInt32) where
  get := QueryOptions.rewriteTTL
  set s := if s.1.options.rewriteTTL.isSome then some s.1.options.rewriteTTL else none

def timeoutField : Field Int where
  get := QueryOptions.timeout
  set s := if s.1.options.timeout > 0 then some s.1.options.timeout else none

/-- A subnet, and whether the one of the message is removed. -/
def clientSubnetField : Field (Option String × Bool) where
  get o := (o.clientSubnet, o.removeClientSubnet)
  set s :=
    if s.1.options.removeClientSubnet then some (none, true)
    else if s.1.options.clientSubnet.isSome then some (s.1.options.clientSubnet, false)
    else none

namespace Field

variable {β : Type}

/-- What the last setting of the field makes of it. -/
def last (field : Field β) (settings : List (Setting × Bool)) : Option β := (settings.filterMap field.set).getLast?

/-- The field is set again behind the last rejected rule, or what is set in front of it is what the query says. -/
def Regained (field : Field β) (final : β → β) (lost kept : List (Setting × Bool)) (options : QueryOptions) : Prop :=
  (field.last kept).isSome = true ∨ ∀ v, field.last lost = some v → final v = final (field.get options)

def Follows (field : Field β) : Prop := ∀ s o, field.get (s.1.apply s.2 o) = (field.set s).getD (field.get o)

variable {field : Field β}

theorem Follows.applySettings (h : field.Follows) (settings : List (Setting × Bool)) (o : QueryOptions) :
    field.get (applySettings settings o) = (field.last settings).getD (field.get o) := by
  induction settings generalizing o with
  | nil => rfl
  | cons s settings ih =>
    have hcons : DNS.applySettings (s :: settings) o = DNS.applySettings settings (s.1.apply s.2 o) := rfl
    rw [hcons, ih, h]
    cases hset : field.set s with
    | none => simp [last, hset]
    | some v => simp [last, hset, List.getLast?_cons]

theorem Follows.eq_iff (h : field.Follows) (final : β → β) (lost kept : List (Setting × Bool)) (o : QueryOptions) :
    final (field.get (DNS.applySettings kept o)) =
      final (field.get (DNS.applySettings kept (DNS.applySettings lost o))) ↔ field.Regained final lost kept o := by
  rw [h.applySettings kept, h.applySettings kept, h.applySettings lost, Regained]
  cases field.last kept with
  | some v => simp
  | none => cases field.last lost <;> simp [eq_comm]

end Field

theorem fields_follow :
    strategyField.Follows ∧ disableCacheField.Follows ∧ rewriteTTLField.Follows ∧ timeoutField.Follows ∧
      clientSubnetField.Follows ∧ Field.Follows ⟨QueryOptions.disableOptimisticCache, fun _ => none⟩ := by
  simp only [← forall_and, Field.Follows]
  intro s o
  simp only [Setting.apply, strategyField, disableCacheField, rewriteTTLField, timeoutField, clientSubnetField]
  split_ifs <;> exact ⟨rfl, rfl, rfl, rfl, rfl, rfl⟩

namespace Router

variable (R : Router τ ε ρ ι)

def finalStrategy (strategy : DomainStrategy) : DomainStrategy :=
  if strategy = .asIS then R.defaultDomainStrategy else strategy

theorem finalizeExchangeOptions_eq (o : QueryOptions) :
    R.finalizeExchangeOptions o = { o with strategy := R.finalStrategy o.strategy } := by
  unfold finalizeExchangeOptions finalStrategy
  split_ifs <;> rfl

/-- No field that is set in front of the last rejected rule is missed behind it. -/
structure Regained (lost kept : List (Setting × Bool)) (options : QueryOptions) : Prop where
  strategy : strategyField.Regained R.finalStrategy lost kept options
  disableCache : disableCacheField.Regained id lost kept options
  rewriteTTL : rewriteTTLField.Regained id lost kept options
  timeout : timeoutField.Regained id lost kept options
  clientSubnet : clientSubnetField.Regained id lost kept options

theorem finalize_eq_iff (lost kept : List (Setting × Bool)) (o : QueryOptions) :
    R.finalizeExchangeOptions (applySettings kept o) =
      R.finalizeExchangeOptions (applySettings kept (applySettings lost o)) ↔ R.Regained lost kept o := by
  obtain ⟨hstrategy, hcache, httl, htimeout, hsubnet, hoptimistic⟩ := fields_follow
  have hstrategy := hstrategy.eq_iff R.finalStrategy lost kept o
  have hcache := hcache.eq_iff id lost kept o
  have httl := httl.eq_iff id lost kept o
  have htimeout := htimeout.eq_iff id lost kept o
  have hsubnet := hsubnet.eq_iff id lost kept o
  have hoptimistic := hoptimistic.eq_iff id lost kept o
  rw [finalizeExchangeOptions_eq, finalizeExchangeOptions_eq]
  constructor
  · intro h
    obtain ⟨h₁, h₂, _, h₄, h₅, h₆, h₇⟩ := QueryOptions.mk.inj h
    exact ⟨hstrategy.mp h₁, hcache.mp h₂, httl.mp h₄, htimeout.mp h₅, hsubnet.mp (congrArg₂ Prod.mk h₆ h₇)⟩
  · intro h
    obtain ⟨hclient, hremove⟩ := Prod.mk.inj (hsubnet.mpr h.clientSubnet)
    refine QueryOptions.mk.injEq .. |>.mpr ⟨hstrategy.mpr h.strategy, hcache.mpr h.disableCache, ?_,
      httl.mpr h.rewriteTTL, htimeout.mpr h.timeout, hclient, hremove⟩
    exact hoptimistic.mpr (.inr fun v hv => by simp [Field.last] at hv)

end Router

/-- The loop returns after at most one exchange per rule and one, and ends at the same server as without the rules
whose responses are rejected. It ends with the same options exactly if the last rule answers itself, or no field that
is set in front of the last rejected rule is missed behind it. -/
theorem exchangeLegacy_without_iff (R : Router τ ε ρ ι) (isAddressQuery : Bool) (rules : List (LegacyRule ρ))
    (options : QueryOptions) :
    ∃ n m e e', exchangeLegacy R isAddressQuery options (rules.length + 1) rules = some (e, n) ∧
      exchangeLegacy R isAddressQuery options ((withoutRejected rules).length + 1) (withoutRejected rules) =
        some (e', m) ∧
      n ≤ rules.length + 1 ∧ e.server = e'.server ∧
      (e = e' ↔ (lastRule R isAddressQuery rules).any LegacyRule.answers = true ∨
        ∀ lost kept, settings R isAddressQuery rules = (some lost, kept) → R.Regained lost kept options) := by
  obtain ⟨E, hshape, hwalk⟩ := legacyWalk_settings R isAddressQuery options rules
  refine ⟨_, _, _, _, concludeLegacy_matchDNS R isAddressQuery (Nat.le_refl _) options,
    concludeLegacy_matchDNS R isAddressQuery (Nat.le_refl _) options,
    legacyWalk_exchanges R isAddressQuery options rules options, ?_⟩
  rw [(hwalk options).1, (hwalk options).2, ite_self]
  rcases hsettings : settings R isAddressQuery rules with ⟨_ | lost, kept⟩
  · exact ⟨rfl, iff_of_true rfl (.inr nofun)⟩
  · rcases hshape with ⟨hanswers, e, rfl⟩ | ⟨hanswers, server, rfl⟩
    · exact ⟨rfl, iff_of_true rfl (.inl hanswers)⟩
    · refine ⟨rfl, ?_⟩
      rw [hanswers]
      simp [R.finalize_eq_iff]

/-- A rule asks for IPv4 only, the next one's response is rejected, and the last one is asked with the default
strategy. -/
theorem rejected_loses_strategy :
    let R : Router String Unit Unit Unit :=
      ⟨some, fun _ => false, "default", .preferIPv6, true, (), fun _ _ _ => .ok ()⟩
    let plain : RouteOptions := ⟨false, false, none, 0, none, false⟩
    let options : QueryOptions := ⟨.asIS, false, false, none, 0, none, false⟩
    let rules : List (LegacyRule Unit) :=
      [⟨false, true, false, .routeOptions ⟨.ipv4Only, plain⟩⟩, ⟨true, true, true, .route "a" ⟨.asIS, plain⟩⟩,
        ⟨false, true, false, .route "b" ⟨.asIS, plain⟩⟩]
    exchangeLegacy R true options 4 rules = some (.exchanged (some "b") { options with strategy := .preferIPv6 }, 2) ∧
      exchangeLegacy R true options 3 (withoutRejected rules) =
        some (.exchanged (some "b") { options with strategy := .ipv4Only }, 1) := by
  decide

end SingBox.DNS
