import SingBox.Lib.Transition
import SingBox.DNS.Rules
import Mathlib.Logic.Function.Basic

/-!
# The walk over the DNS rules

`exchangeWithRules`, `exchangeWithRulesAsync` and what they call, as a transition
system: the walk advances from one read of shared state to the next, and between any
two of its steps the callback of an exchange may run. The outcome of every exchange
is fixed by the router, so a run differs from another in timing only.
-/
namespace SingBox.DNS

open SingBox.Lib Function

variable {τ ε ρ ι : Type}

/-- The servers, and the outcome of the exchange each rule makes; `none` is the exchange
with the default server behind the last rule. -/
structure Router (τ ε ρ ι : Type) where
  transport : String → Option τ
  isFakeIP : τ → Bool
  default : τ
  defaultDomainStrategy : DomainStrategy
  allowFakeIP : Bool
  refused : ρ
  exchange : Option ι → τ → QueryOptions → Except ε ρ

inductive Failure (ε : Type) where
  | respondMissingResponse
  | drop
  | exchange (err : ε)
  deriving DecidableEq

/-- `exchangeWithRulesResult`. -/
structure Result (τ ε ρ : Type) where
  response : Option ρ
  transport : Option τ
  rejectAction : Option RejectMethod
  err : Option (Failure ε)
  deriving DecidableEq

namespace Router

variable (R : Router τ ε ρ ι)

def finalizeExchangeOptions (options : QueryOptions) : QueryOptions :=
  if options.strategy = .asIS then { options with strategy := R.defaultDomainStrategy } else options

/-- `resolveDNSRoute`; `none` where the server is missing or skipped. -/
def resolveDNSRoute (server : String) (routeOptions : RouteOptions) (options : QueryOptions) :
    Option (τ × QueryOptions) :=
  match R.transport server with
  | none => none
  | some transport =>
    if R.isFakeIP transport && !R.allowFakeIP then none
    else
      let options := applyDNSRouteOptions options routeOptions
      some (transport, if R.isFakeIP transport then { options with disableCache := true } else options)

end Router

/-- The result of an exchange that came to `outcome`. -/
def Result.ofOutcome (transport : τ) : Except ε ρ → Result τ ε ρ
  | .ok response => ⟨some response, some transport, none, none⟩
  | .error err => ⟨none, some transport, none, some (.exchange err)⟩

def Result.missingResponse : Result τ ε ρ := ⟨none, none, none, some .respondMissingResponse⟩

/-- `dnsEvaluatedFuture`. The callback stores `outcome` and closes `done`, and then offers a
wake-up. -/
structure Future (τ ε ρ : Type) where
  tag : String
  transport : τ
  outcome : Except ε ρ
  done : Bool
  woken : Bool
  settled : Bool

def Future.view (f : Future τ ε ρ) : Option ρ := if f.done then f.outcome.toOption else none

/-- `dnsArmedRule`. -/
structure Armed (ρ ι : Type) where
  ruleIndex : Nat
  rule : Rule ρ ι
  futures : List Nat
  anonymousFuture : Option Nat
  bindsAnonymous : Bool
  options : QueryOptions

/-- The rule through which an exchange ends, and its index; `none` for the default server. -/
abbrev Origin (ρ ι : Type) := Option (Nat × Rule ρ ι)

/-- `dnsPendingExchange`. -/
structure Pending (τ ρ ι : Type) where
  origin : Origin ρ ι
  transport : τ
  options : QueryOptions
  future : Option Nat

/-- `dnsWalkSuspension`. -/
inductive Suspension (τ ρ ι : Type) where
  | await (future : Nat)
  | drain
  | pending (exchange : Pending τ ρ ι)

/-- `dnsRuleWalkState`. A future is referred to by its place in `futures`. -/
structure Walk (τ ε ρ ι : Type) where
  ruleIndex : Nat
  effectiveOptions : QueryOptions
  anonymousFuture : Option Nat
  namedFutures : String → Option Nat
  namedResponses : String → Option ρ
  namedTransports : String → Option τ
  futures : List (Future τ ε ρ)
  armedRules : List (Armed ρ ι)
  terminalFuture : Option Nat
  terminalIndex : Nat
  wake : Bool

namespace Walk

variable (w : Walk τ ε ρ ι)

def start (options : QueryOptions) : Walk τ ε ρ ι where
  ruleIndex := 0
  effectiveOptions := options
  anonymousFuture := none
  namedFutures := fun _ => none
  namedResponses := fun _ => none
  namedTransports := fun _ => none
  futures := []
  armedRules := []
  terminalFuture := none
  terminalIndex := 0
  wake := false

def resolved (i : Nat) : Bool := w.futures[i]?.any Future.done

def view (i : Nat) : Option ρ := w.futures[i]?.bind Future.view

def transportOf (i : Nat) : Option τ := w.futures[i]?.map Future.transport

def anonymousResponse : Option ρ := w.anonymousFuture.bind w.view

/-- A future of the walk that is not resolved. -/
def unresolved (future : Option Nat) : Option Nat := future.filter fun i => !w.resolved i

def launchDNSEvaluate (R : Router τ ε ρ ι) (name : ι) (tag : String) (transport : τ) (options : QueryOptions) :
    Walk τ ε ρ ι :=
  { w with futures := w.futures ++
      [⟨tag, transport, R.exchange (some name) transport (R.finalizeExchangeOptions options), false, false, false⟩] }

/-- An `evaluate` action launches its exchange, binds the future and moves on. -/
def launchEvaluate (R : Router τ ε ρ ι) (name : ι) (tag : String) (transport : τ) (options : QueryOptions) :
    Walk τ ε ρ ι :=
  { w.launchDNSEvaluate R name tag transport options with
    ruleIndex := w.ruleIndex + 1
    anonymousFuture := if tag = "" then some w.futures.length else w.anonymousFuture
    namedFutures :=
      if tag = "" then w.namedFutures else update w.namedFutures tag (some w.futures.length) }

/-- A speculative `route` action launches its exchange. -/
def launchRoute (R : Router τ ε ρ ι) (name : ι) (transport : τ) (options : QueryOptions) : Walk τ ε ρ ι :=
  { w.launchDNSEvaluate R name "" transport options with
    terminalFuture := some w.futures.length
    terminalIndex := w.ruleIndex }

/-- The body of the loop of `settleDNSFutures`. -/
def settle (k : Nat) : Walk τ ε ρ ι :=
  match w.futures[k]? with
  | none => w
  | some f =>
    if f.settled || !f.done then w
    else
      let w := { w with futures := w.futures.set k { f with settled := true } }
      if f.tag = "" then w
      else
        { w with
          namedResponses := update w.namedResponses f.tag f.view
          namedTransports := update w.namedTransports f.tag (some f.transport) }

end Walk

/-- What a rule that matches in a sweep comes to. -/
inductive Commit (τ ε ρ ι : Type) where
  | result (r : Result τ ε ρ)
  | pending (exchange : Pending τ ρ ι)

namespace Armed

variable (R : Router τ ε ρ ι) (w : Walk τ ε ρ ι) (a : Armed ρ ι)

def ready : Bool := a.futures.all w.resolved

def response : Option ρ := if a.bindsAnonymous then a.anonymousFuture.bind w.view else w.anonymousResponse

/-- The action of an armed rule that matches; nothing if the walk passes over it. -/
def commit : Option (Commit τ ε ρ ι) :=
  match a.rule.action with
  | .respond =>
    let (response, transport) :=
      if a.rule.matchResponseTag ≠ "" then
        (w.namedResponses a.rule.matchResponseTag, w.namedTransports a.rule.matchResponseTag)
      else
        match a.anonymousFuture with
        | some i => (w.view i, w.transportOf i)
        | none => (w.anonymousResponse, w.anonymousFuture.bind w.transportOf)
    match response with
    | none => some (.result .missingResponse)
    | some response => some (.result ⟨some response, transport, none, none⟩)
  | .route server _ options =>
    (R.resolveDNSRoute server options a.options).map fun (transport, options) =>
      .pending ⟨some (a.ruleIndex, a.rule), transport, options, none⟩
  | .reject .default => some (.result ⟨some R.refused, none, some .default, none⟩)
  | .reject .drop => some (.result ⟨none, none, some .drop, some .drop⟩)
  | .predefined response => some (.result ⟨some response, none, none, none⟩)
  | _ => none

/-- An armed rule that is ready is matched and, if it matches, taken. -/
def judge : Option (Commit τ ε ρ ι) :=
  if a.rule.matchOn (a.response w) w.namedResponses then a.commit R w else none

end Armed

/-- The loop of `sweepArmedDNSRules`: the rules that stay armed, and the rule that commits. -/
def sweepArmed (R : Router τ ε ρ ι) (w : Walk τ ε ρ ι) :
    List (Armed ρ ι) → List (Armed ρ ι) × Option (Armed ρ ι × Commit τ ε ρ ι)
  | [] => ([], none)
  | a :: armed =>
    if a.ready w then
      match a.judge R w with
      | none => sweepArmed R w armed
      | some commit => (armed, some (a, commit))
    else
      let (kept, committed) := sweepArmed R w armed
      (a :: kept, committed)

/-- Where the walk stands. -/
inductive Phase (τ ε ρ ι : Type) where
  | visiting
  | settling (k : Nat) (rule : Rule ρ ι)
  | testing (tags : List String) (rule : Rule ρ ι)
  | matching (rule : Rule ρ ι)
  | acting (rule : Rule ρ ι)
  | arming (rule : Rule ρ ι)
  | launching (speculative : Bool)
  | sweeping
  | resuming (k : Nat) (suspension : Suspension τ ρ ι)
  | resweeping (suspension : Suspension τ ρ ι)
  | waiting (suspension : Suspension τ ρ ι)
  | finishing (exchange : Pending τ ρ ι)
  | returned (origin : Origin ρ ι) (result : Result τ ε ρ)

/-- An exchange under way. `async` is `exchangeWithRulesAsync` before its first suspension. -/
structure Sys (τ ε ρ ι : Type) where
  walk : Walk τ ε ρ ι
  phase : Phase τ ε ρ ι
  async : Bool

inductive Label where
  | advance
  | complete (future : Nat)
  | wake (future : Nat)
  deriving DecidableEq

/-- The exchange of a pending result, which `finishPendingExchange` makes. -/
def Pending.exchanged (R : Router τ ε ρ ι) (p : Pending τ ρ ι) : Result τ ε ρ :=
  .ofOutcome p.transport
    (R.exchange (p.origin.map fun o => o.2.name) p.transport (R.finalizeExchangeOptions p.options))

namespace Sys

variable (R : Router τ ε ρ ι) (x : Sys τ ε ρ ι)

/-- `walkDNSRules` returns a suspension. -/
def suspend (s : Suspension τ ρ ι) : Sys τ ε ρ ι :=
  match s with
  | .pending p =>
    if x.async && p.future.isNone then { x with phase := .finishing p, async := false }
    else { x with phase := .resuming 0 s, async := false }
  | s => { x with phase := .resuming 0 s, async := false }

/-- The walk goes on with the next rule. -/
def next : Sys τ ε ρ ι := { x with walk.ruleIndex := x.walk.ruleIndex + 1, phase := .visiting }

/-- A final action: held back while rules are armed. -/
def final (rule : Rule ρ ι) (result : Result τ ε ρ) : Sys τ ε ρ ι :=
  if x.walk.armedRules.isEmpty then { x with phase := .returned (some (x.walk.ruleIndex, rule)) result }
  else x.suspend .drain

def respond (rule : Rule ρ ι) : Sys τ ε ρ ι :=
  if !x.walk.armedRules.isEmpty then x.suspend .drain
  else if rule.matchResponseTag ≠ "" then
    match x.walk.namedResponses rule.matchResponseTag with
    | none => x.final rule .missingResponse
    | some response => x.final rule ⟨some response, x.walk.namedTransports rule.matchResponseTag, none, none⟩
  else
    match if rule.hasBindings then none else x.walk.unresolved x.walk.anonymousFuture with
    | some i => x.suspend (.await i)
    | none =>
      match x.walk.anonymousResponse with
      | none => x.final rule .missingResponse
      | some response =>
        x.final rule ⟨some response, x.walk.anonymousFuture.bind x.walk.transportOf, none, none⟩

/-- The `evaluate` action. The future is bound in the step that launches it: nobody reads the
binding before the launch has returned. -/
def evaluate (rule : Rule ρ ι) (server tag : String) (speculative : Bool) (options : RouteOptions) :
    Sys τ ε ρ ι :=
  match R.transport server with
  | none => (if tag = "" then { x with walk.anonymousFuture := none } else x).next
  | some transport =>
    if !speculative && !x.walk.armedRules.isEmpty then x.suspend .drain
    else
      let queryOptions := applyDNSRouteOptions x.walk.effectiveOptions options
      { x with walk := x.walk.launchEvaluate R rule.name tag transport queryOptions, phase := .launching false }

def route (rule : Rule ρ ι) (server : String) (speculative : Bool) (options : RouteOptions) : Sys τ ε ρ ι :=
  match R.resolveDNSRoute server options x.walk.effectiveOptions with
  | none => x.next
  | some (transport, queryOptions) =>
    let origin := some (x.walk.ruleIndex, rule)
    if !x.walk.armedRules.isEmpty then
      if speculative && x.walk.terminalFuture.isNone then
        { x with walk := x.walk.launchRoute R rule.name transport queryOptions, phase := .launching true }
      else x.suspend .drain
    else if x.walk.terminalFuture.isSome && x.walk.terminalIndex == x.walk.ruleIndex then
      x.suspend (.pending ⟨origin, transport, queryOptions, x.walk.terminalFuture⟩)
    else x.suspend (.pending ⟨origin, transport, queryOptions, none⟩)

/-- The action of a rule that matched. -/
def act (rule : Rule ρ ι) : Sys τ ε ρ ι :=
  match rule.action with
  | .routeOptions options =>
    { x with walk.effectiveOptions := applyDNSRouteOptions x.walk.effectiveOptions options }.next
  | .evaluate server tag speculative options => x.evaluate R rule server tag speculative options
  | .respond => x.respond rule
  | .route server speculative options => x.route R rule server speculative options
  | .reject .default => x.final rule ⟨some R.refused, none, some .default, none⟩
  | .reject .drop => x.final rule ⟨none, none, some .drop, some .drop⟩
  | .reject .reply => if x.walk.armedRules.isEmpty then x.next else x.suspend .drain
  | .predefined response => x.final rule ⟨some response, none, none, none⟩

/-- The futures a race rule still waits for. -/
def pendingFutures (rule : Rule ρ ι) : List Nat :=
  (rule.matchResponseTags.filterMap fun t => x.walk.unresolved (x.walk.namedFutures t)) ++
    if rule.matchResponseAnonymous then (x.walk.unresolved x.walk.anonymousFuture).toList else []

def arm (rule : Rule ρ ι) : Sys τ ε ρ ι :=
  let armed : Armed ρ ι :=
    { ruleIndex := x.walk.ruleIndex
      rule := rule
      futures := x.pendingFutures rule
      anonymousFuture := if rule.matchResponseAnonymous then x.walk.anonymousFuture else none
      bindsAnonymous := rule.matchResponseAnonymous
      options := x.walk.effectiveOptions }
  let x' := { x with walk.armedRules := x.walk.armedRules ++ [armed] }
  if armed.futures.isEmpty then { x' with phase := .sweeping } else x'.next

/-- A sweep, and what happens if no rule commits. -/
def sweep (inWalk : Bool) (otherwise : Sys τ ε ρ ι → Sys τ ε ρ ι) : Sys τ ε ρ ι :=
  match sweepArmed R x.walk x.walk.armedRules with
  | (kept, none) => otherwise { x with walk.armedRules := kept }
  | (kept, some (a, .result r)) =>
    { x with walk.armedRules := kept, phase := .returned (some (a.ruleIndex, a.rule)) r }
  | (kept, some (_, .pending p)) =>
    if inWalk then { x with walk.armedRules := [] }.suspend (.pending p)
    else { x with walk.armedRules := kept, phase := .finishing p }

/-- The loop of `resumeExchangeWithRules` behind its sweep. -/
def resume (s : Suspension τ ρ ι) : Sys τ ε ρ ι :=
  match s with
  | .pending p => { x with phase := .finishing p }
  | .await i => { x with phase := if x.walk.resolved i then .visiting else .waiting s }
  | .drain => { x with phase := if x.walk.armedRules.isEmpty then .visiting else .waiting s }

/-- One step of the walk; nothing where it blocks or has returned. -/
def advance (rules : List (Rule ρ ι)) : Option (Sys τ ε ρ ι) :=
  match x.phase with
  | .visiting =>
    match rules[x.walk.ruleIndex]? with
    | none =>
      if x.walk.armedRules.isEmpty then
        some (x.suspend (.pending ⟨none, R.default, x.walk.effectiveOptions, none⟩))
      else some (x.suspend .drain)
    | some rule => some { x with phase := if rule.hasBindings then .settling 0 rule else .matching rule }
  | .settling k rule =>
    if k < x.walk.futures.length then some { x with walk := x.walk.settle k, phase := .settling (k + 1) rule }
    else some { x with phase := if rule.race then .arming rule else .testing rule.matchResponseTags rule }
  | .testing (t :: tags) rule =>
    match x.walk.unresolved (x.walk.namedFutures t) with
    | some i => some (x.suspend (.await i))
    | none => some { x with phase := .testing tags rule }
  | .testing [] rule =>
    match if rule.matchResponseAnonymous then x.walk.unresolved x.walk.anonymousFuture else none with
    | some i => some (x.suspend (.await i))
    | none => some { x with phase := .matching rule }
  | .matching rule =>
    if rule.matchOn x.walk.anonymousResponse x.walk.namedResponses then some { x with phase := .acting rule }
    else some x.next
  | .acting rule => some (x.act R rule)
  | .arming rule => some (x.arm rule)
  | .launching speculative => some (if speculative then x.suspend .drain else { x with phase := .visiting })
  | .sweeping => some (x.sweep R true next)
  | .resuming k s =>
    if k < x.walk.futures.length then some { x with walk := x.walk.settle k, phase := .resuming (k + 1) s }
    else some { x with phase := .resweeping s }
  | .resweeping s => some (x.sweep R false fun x => x.resume s)
  | .waiting s => if x.walk.wake then some { x with walk.wake := false, phase := .resuming 0 s } else none
  | .finishing p =>
    match p.future with
    | none => some { x with phase := .returned p.origin (p.exchanged R) }
    | some i =>
      match x.walk.futures[i]? with
      | some f =>
        if f.done then some { x with phase := .returned p.origin (.ofOutcome f.transport f.outcome) } else none
      | none => none
  | .returned .. => none

/-- The steps of the walk, by where it stands. -/
inductive Advances (rules : List (Rule ρ ι)) (w : Walk τ ε ρ ι) (async : Bool) : Phase τ ε ρ ι → Sys τ ε ρ ι → Prop
  | default (hnone : rules[w.ruleIndex]? = none) (harmed : w.armedRules = []) :
      Advances rules w async .visiting
        (suspend ⟨w, .visiting, async⟩ (.pending ⟨none, R.default, w.effectiveOptions, none⟩))
  | drain (hnone : rules[w.ruleIndex]? = none) (harmed : w.armedRules ≠ []) :
      Advances rules w async .visiting (suspend ⟨w, .visiting, async⟩ .drain)
  | bound (rule : Rule ρ ι) (hr : rules[w.ruleIndex]? = some rule) (hbindings : rule.hasBindings = true) :
      Advances rules w async .visiting ⟨w, .settling 0 rule, async⟩
  | plain (rule : Rule ρ ι) (hr : rules[w.ruleIndex]? = some rule) (hbindings : rule.hasBindings = false) :
      Advances rules w async .visiting ⟨w, .matching rule, async⟩
  | settle (k : Nat) (rule : Rule ρ ι) (hk : k < w.futures.length) :
      Advances rules w async (.settling k rule) ⟨w.settle k, .settling (k + 1) rule, async⟩
  | race (k : Nat) (rule : Rule ρ ι) (hk : ¬k < w.futures.length) (hrace : rule.race = true) :
      Advances rules w async (.settling k rule) ⟨w, .arming rule, async⟩
  | test (k : Nat) (rule : Rule ρ ι) (hk : ¬k < w.futures.length) (hrace : rule.race = false) :
      Advances rules w async (.settling k rule) ⟨w, .testing rule.matchResponseTags rule, async⟩
  | awaitTag (t : String) (tags : List String) (rule : Rule ρ ι) (i : Nat)
      (hi : w.unresolved (w.namedFutures t) = some i) :
      Advances rules w async (.testing (t :: tags) rule) (suspend ⟨w, .testing (t :: tags) rule, async⟩ (.await i))
  | tested (t : String) (tags : List String) (rule : Rule ρ ι) (ht : w.unresolved (w.namedFutures t) = none) :
      Advances rules w async (.testing (t :: tags) rule) ⟨w, .testing tags rule, async⟩
  | awaitAnonymous (rule : Rule ρ ι) (i : Nat) (hi : w.unresolved w.anonymousFuture = some i) :
      Advances rules w async (.testing [] rule) (suspend ⟨w, .testing [] rule, async⟩ (.await i))
  | ready (rule : Rule ρ ι) (h : rule.matchResponseAnonymous = true → w.unresolved w.anonymousFuture = none) :
      Advances rules w async (.testing [] rule) ⟨w, .matching rule, async⟩
  | matched (rule : Rule ρ ι) (h : rule.matchOn w.anonymousResponse w.namedResponses = true) :
      Advances rules w async (.matching rule) ⟨w, .acting rule, async⟩
  | missed (rule : Rule ρ ι) (h : ¬rule.matchOn w.anonymousResponse w.namedResponses = true) :
      Advances rules w async (.matching rule) (next ⟨w, .matching rule, async⟩)
  | act (rule : Rule ρ ι) : Advances rules w async (.acting rule) (act R ⟨w, .acting rule, async⟩ rule)
  | arm (rule : Rule ρ ι) : Advances rules w async (.arming rule) (arm ⟨w, .arming rule, async⟩ rule)
  | speculated : Advances rules w async (.launching true) (suspend ⟨w, .launching true, async⟩ .drain)
  | launched : Advances rules w async (.launching false) ⟨w, .visiting, async⟩
  | sweep : Advances rules w async .sweeping (sweep R ⟨w, .sweeping, async⟩ true next)
  | resettle (k : Nat) (s : Suspension τ ρ ι) (hk : k < w.futures.length) :
      Advances rules w async (.resuming k s) ⟨w.settle k, .resuming (k + 1) s, async⟩
  | resettled (k : Nat) (s : Suspension τ ρ ι) (hk : ¬k < w.futures.length) :
      Advances rules w async (.resuming k s) ⟨w, .resweeping s, async⟩
  | resweep (s : Suspension τ ρ ι) :
      Advances rules w async (.resweeping s) (sweep R ⟨w, .resweeping s, async⟩ false fun x => x.resume s)
  | wake (s : Suspension τ ρ ι) (hwake : w.wake = true) :
      Advances rules w async (.waiting s) ⟨{ w with wake := false }, .resuming 0 s, async⟩
  | exchange (p : Pending τ ρ ι) (hfuture : p.future = none) :
      Advances rules w async (.finishing p) ⟨w, .returned p.origin (p.exchanged R), async⟩
  | collect (p : Pending τ ρ ι) (i : Nat) (f : Future τ ε ρ) (hfuture : p.future = some i)
      (hf : w.futures[i]? = some f) :
      Advances rules w async (.finishing p) ⟨w, .returned p.origin (.ofOutcome f.transport f.outcome), async⟩

theorem advances {R : Router τ ε ρ ι} {rules : List (Rule ρ ι)} {w : Walk τ ε ρ ι} {phase : Phase τ ε ρ ι}
    {async : Bool} {x' : Sys τ ε ρ ι} (hstep : advance R ⟨w, phase, async⟩ rules = some x') :
    Advances R rules w async phase x' := by
  unfold advance at hstep
  cases phase with
  | visiting =>
    dsimp only at hstep
    split at hstep
    next hnone =>
      split at hstep
      next harmed =>
        cases hstep
        exact .default hnone (List.isEmpty_iff.mp harmed)
      next harmed =>
        cases hstep
        exact .drain hnone (mt List.isEmpty_iff.mpr harmed)
    next rule hr =>
      cases hstep
      cases hbindings : rule.hasBindings with
      | true => exact .bound rule hr hbindings
      | false => exact .plain rule hr hbindings
  | settling k rule =>
    dsimp only at hstep
    split at hstep
    next hk =>
      cases hstep
      exact .settle k rule hk
    next hk =>
      cases hstep
      cases hrace : rule.race with
      | true => exact .race k rule hk hrace
      | false => exact .test k rule hk hrace
  | testing tags rule =>
    cases tags with
    | nil =>
      dsimp only at hstep
      split at hstep
      next i hi =>
        cases hstep
        split at hi
        · exact .awaitAnonymous rule i hi
        · cases hi
      next hi =>
        cases hstep
        exact .ready rule fun h => by rwa [if_pos h] at hi
    | cons t tags =>
      dsimp only at hstep
      split at hstep
      next i hi =>
        cases hstep
        exact .awaitTag t tags rule i hi
      next hi =>
        cases hstep
        exact .tested t tags rule hi
  | matching rule =>
    dsimp only at hstep
    split at hstep
    next h =>
      cases hstep
      exact .matched rule h
    next h =>
      cases hstep
      exact .missed rule h
  | acting rule =>
    cases hstep
    exact .act rule
  | arming rule =>
    cases hstep
    exact .arm rule
  | launching speculative =>
    cases hstep
    cases speculative with
    | true => exact .speculated
    | false => exact .launched
  | sweeping =>
    cases hstep
    exact .sweep
  | resuming k s =>
    dsimp only at hstep
    split at hstep
    next hk =>
      cases hstep
      exact .resettle k s hk
    next hk =>
      cases hstep
      exact .resettled k s hk
  | resweeping s =>
    cases hstep
    exact .resweep s
  | waiting s =>
    dsimp only at hstep
    split at hstep
    next hwake =>
      cases hstep
      exact .wake s hwake
    · cases hstep
  | finishing p =>
    dsimp only at hstep
    split at hstep
    next hfuture =>
      cases hstep
      exact .exchange p hfuture
    next i hfuture =>
      split at hstep
      next f hf =>
        split at hstep
        · cases hstep
          exact .collect p i f hfuture hf
        · cases hstep
      · cases hstep
  | returned origin result => cases hstep

/-- A future is changed in place. -/
def setFuture (i : Nat) (f : Future τ ε ρ) : Sys τ ε ρ ι := { x with walk.futures := x.walk.futures.set i f }

def step (rules : List (Rule ρ ι)) : Label → Option (Sys τ ε ρ ι)
  | .advance => x.advance R rules
  | .complete i =>
    match x.walk.futures[i]? with
    | some f => if f.done then none else some (x.setFuture i { f with done := true })
    | none => none
  | .wake i =>
    match x.walk.futures[i]? with
    | some f =>
      if f.done && !f.woken then some { x.setFuture i { f with woken := true } with walk.wake := true } else none
    | none => none

end Sys

/-- The exchanges over `rules`, synchronous and asynchronous. -/
def machine (R : Router τ ε ρ ι) (rules : List (Rule ρ ι)) (options : QueryOptions) :
    System (Sys τ ε ρ ι) Label where
  init x := ∃ async, x = ⟨.start options, .visiting, async⟩
  step x l := x.step R rules l

end SingBox.DNS
