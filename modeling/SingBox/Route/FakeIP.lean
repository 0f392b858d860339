import SingBox.Route.Unsniffed

/-!
# FakeIP addresses without a record

The walk over the rules for a connection whose destination is a FakeIP address that the store has no name
for, compared with the walk in which the store has the name that sniffing finds. Up to the rule that finds it the
walks differ in where the connection goes and in nothing else, and behind it not at all.
-/
namespace SingBox.Route

variable {κ ρ : Type} (env : Env κ ρ)

/-- The domain name that the sniff of a rule finds. -/
def Rule.finds (rule : Rule κ ρ) (s : WalkState κ ρ) : Option String :=
  if rule.matches? s.metadata.toView then
    match rule.action with
    | .sniff action => (sniffRule env action s).peeked.found.filter env.isDomainName
    | _ => none
  else none

/-- No matching sniff rule finds a domain name. -/
def FindsNone : List (Rule κ ρ) → WalkState κ ρ → Prop
  | [], _ => True
  | rule :: rules, s => rule.finds env s = none ∧ ∀ s', applyRule env rule s = .next s' → FindsNone rules s'

/-- The rules match the same way in both walks, as far as both go. -/
def SameMatches : List (Rule κ ρ) → WalkState κ ρ → WalkState κ ρ → Prop
  | [], _, _ => True
  | rule :: rules, s, t => rule.matches? s.metadata.toView = rule.matches? t.metadata.toView ∧
      ∀ s' t', applyRule env rule s = .next s' → applyRule env rule t = .next t' → SameMatches rules s' t'

/-- What rules and the outbound see of where a connection goes. -/
def WalkState.seen (s : WalkState κ ρ) : Socksaddr × Socksaddr × Bool × List Addr :=
  (s.metadata.destination, s.metadata.originDestination, s.metadata.fakeIP, s.metadata.destinationAddresses)

/-- Both walks go on, are over with the same in sight of the outbound, or fail. -/
inductive Flow.Agree (rest : WalkState κ ρ → WalkState κ ρ → Prop) : Flow κ ρ → Flow κ ρ → Prop
  | next {s t : WalkState κ ρ} (h : rest s t) : Flow.Agree rest (.next s) (.next t)
  | select {action action' : Action κ} {s t : WalkState κ ρ} (h : s.seen = t.seen) :
      Flow.Agree rest (.select action s) (.select action' t)
  | fail {e e' : String} {s t : WalkState κ ρ} : Flow.Agree rest (.fail e s) (.fail e' t)

/-- The rules and the outbound see the same in both walks. -/
def Agree : List (Rule κ ρ) → WalkState κ ρ → WalkState κ ρ → Prop
  | [], s, t => s.seen = t.seen
  | rule :: rules, s, t => s.seen = t.seen ∧ Flow.Agree (Agree rules) (applyRule env rule s) (applyRule env rule t)

/-- A rule of the list finds a name, and none before it has: the rules before and behind it, the name, and the walk
before and behind the rule. -/
structure NameFound (rules : List (Rule κ ρ)) (start : WalkState κ ρ) where
  before : List (Rule κ ρ)
  rule : Rule κ ρ
  after : List (Rule κ ρ)
  name : String
  reached : WalkState κ ρ
  left : WalkState κ ρ
  rules_eq : rules = before ++ rule :: after
  findsNone : FindsNone env before start
  walk_before : walk env before start = .next reached
  finds : rule.finds env reached = some name
  leaves : applyRule env rule reached = .next left

def FakeIPStore.record (store : FakeIPStore) (addr : Addr) (domain : String) : FakeIPStore where
  contains := store.contains
  lookup a := if a = addr then some domain else store.lookup a

/-- A destination that is a FakeIP address and has no record. -/
structure Unrecorded (store : FakeIPStore) (m : Metadata κ ρ) (addr : Addr) : Prop where
  destination : m.destination.host = .ip addr
  contains : store.contains addr = true
  lookup : store.lookup addr = none

/-- The walk that starts at `start` reaches the rule, and goes on behind it with the same in sight. -/
def NameFound.Follows {rules : List (Rule κ ρ)} {s : WalkState κ ρ} (f : NameFound env rules s)
    (start : WalkState κ ρ) : Prop :=
  ∃ t t', walk env f.before start = .next t ∧ applyRule env f.rule t = .next t' ∧ Agree env f.after f.left t'

/-- A connection to a FakeIP address without a record is refused if no rule finds a name, and else routed as if the
record were there. -/
def RoutedByName (store : FakeIPStore) (rules : List (Rule κ ρ)) (m : Metadata κ ρ) (input : Input)
    (addr : Addr) : Prop :=
  (FindsNone env rules (.start env store m input) →
    (matchRule env store rules m input).selected = none ∧ (matchRule env store rules m input).error ≠ none) ∧
  ∀ f : NameFound env rules (.start env store m input),
    SameMatches env f.before (.start env store m input) (.start env (store.record addr f.name) m input) →
      f.Follows env (.start env (store.record addr f.name) m input)

/-- Up to the rule that finds a name, no sniff rule that finds none is passed with a name that the connection had. -/
def Unnamed : List (Rule κ ρ) → WalkState κ ρ → Prop
  | [], _ => True
  | rule :: rules, s => rule.finds env s = none →
      (∀ action, rule.matches? s.metadata.toView = true → rule.action = .sniff action →
        env.isDomainName s.metadata.domain = false) ∧
      ∀ s', applyRule env rule s = .next s' → Unnamed rules s'

/-- The action replaces the address or the port, or resolves a name. -/
def Action.moves : Action κ → Bool
  | .routeOptions options => options.overrideAddress.isValid env || options.overridePort > 0
  | .resolve _ => true
  | _ => false

/-- No matching rule replaces the address or the port, or resolves a name. -/
def Unmoved : List (Rule κ ρ) → WalkState κ ρ → Prop
  | [], _ => True
  | rule :: rules, s => (rule.matches? s.metadata.toView = true → rule.action.moves env = false) ∧
      ∀ s', applyRule env rule s = .next s' → Unmoved rules s'

/-- Nothing in front of the rule that finds the name changes where the connection goes, nor does its sniff, and it
matches with the record too. -/
structure NameFound.Undisturbed {rules : List (Rule κ ρ)} {s : WalkState κ ρ} (f : NameFound env rules s) : Prop where
  unmoved : Unmoved env f.before s
  override : ∀ action, f.rule.action = .sniff action → action.overrideDestination = false
  matches_recorded : f.rule.matches? (setFakeIP f.reached.metadata f.name).toView = true

/-- The walk with the record, where the walk without it is at `s`. -/
def WalkState.recorded (s : WalkState κ ρ) (d : String) : WalkState κ ρ :=
  { s with metadata := setFakeIP s.metadata d, missingFakeIP := false }

variable {env} {s s' : WalkState κ ρ} {d : String} {rule : Rule κ ρ} {rules : List (Rule κ ρ)} {action : SniffAction κ}

/-! ## One rule -/

theorem ahead_recorded (s : WalkState κ ρ) (d : String) :
    (s.recorded d).ahead env action = (s.ahead env action).map (setFakeIP · d) := by
  have h : Unsniffed fun m : Metadata κ ρ => setFakeIP m d :=
    ⟨fun _ => rfl, fun _ => rfl, fun _ _ => rfl, fun _ => rfl, fun _ => rfl, fun _ => rfl, fun _ => rfl,
      fun _ _ _ => rfl⟩
  exact sniffAhead_map h env action s.metadata _ _ s.input

/-- A sniff that leaves the destination does the same in both walks. -/
theorem sniffed_recorded (h : action.overrideDestination = true →
    env.isDomainName (s.ahead env action).peeked.metadata.domain = false) :
    (s.recorded d).sniffed env action = (s.sniffed env action).recorded d ∧
      (s.sniffed env action).metadata.domain = (s.ahead env action).peeked.metadata.domain := by
  have hkeep : ∀ p : Peeked κ ρ, p.metadata.domain = (s.ahead env action).peeked.metadata.domain →
      overrideSniffed env action p = p.metadata := by
    intro p hdomain
    rw [overrideSniffed, if_neg]
    rintro ⟨_, hoverride, hname⟩
    rw [hdomain, h hoverride] at hname
    cases hname
  have hs : overrideSniffed env action (s.ahead env action).peeked = _ := hkeep _ rfl
  have ht : overrideSniffed env action ((s.ahead env action).map (setFakeIP · d)).peeked = _ := hkeep _ rfl
  constructor
  · rw [WalkState.sniffed, WalkState.sniffed, ahead_recorded, hs, ht]
    rfl
  · rw [WalkState.sniffed, hs]

theorem Rule.finds_sniff (hmatch : rule.matches? s.metadata.toView = true) (haction : rule.action = .sniff action) :
    rule.finds env s = (s.ahead env action).peeked.found.filter env.isDomainName := by
  simp only [Rule.finds, hmatch, if_true, haction]
  rfl

theorem Rule.finds_eq_some (h : rule.finds env s = some d) :
    rule.matches? s.metadata.toView = true ∧ env.isDomainName d = true ∧
      ∃ action, rule.action = .sniff action ∧ (s.ahead env action).peeked.metadata.domain = d := by
  unfold Rule.finds at h
  split_ifs at h with hmatch
  split at h
  next action haction =>
    obtain ⟨hfound, hname⟩ := Option.filter_eq_some_iff.mp h
    have htracks : (s.ahead env action).peeked.Tracks s.metadata := sniffAhead_tracks env action _ _ _ _
    have hfound' : (s.ahead env action).peeked.found = some d := hfound
    refine ⟨hmatch, hname, action, haction, ?_⟩
    unfold Peeked.Tracks at htracks
    rw [htracks, hfound', Option.getD_some]
  · cases h

/-- A sniff that finds no name leaves none. -/
theorem domain_of_finds_none (hmatch : rule.matches? s.metadata.toView = true) (haction : rule.action = .sniff action)
    (hfinds : rule.finds env s = none) (hnamed : env.isDomainName s.metadata.domain = false) :
    env.isDomainName (s.ahead env action).peeked.metadata.domain = false := by
  have htracks : (s.ahead env action).peeked.Tracks s.metadata := sniffAhead_tracks env action _ _ _ _
  rw [Rule.finds_sniff hmatch haction, Option.filter_eq_none_iff] at hfinds
  unfold Peeked.Tracks at htracks
  rw [htracks]
  cases hfound : (s.ahead env action).peeked.found with
  | none => exact hnamed
  | some name => simpa using hfinds name hfound

theorem repairFakeIP_of_not_name (h : env.isDomainName s.metadata.domain = false) : repairFakeIP env s = s := by
  rw [repairFakeIP, if_neg]
  rintro ⟨_, hname⟩
  exact Bool.false_ne_true (h.symm.trans hname)

theorem repairFakeIP_recorded (s : WalkState κ ρ) (d : String) : repairFakeIP env (s.recorded d) = s.recorded d :=
  if_neg fun h => Bool.false_ne_true h.1

theorem applyRouteOptions_setFakeIP (m : Metadata κ ρ) (d : String) {options : RouteOptions}
    (haddress : options.overrideAddress.isValid env = false) (hport : ¬options.overridePort > 0) :
    applyRouteOptions env (setFakeIP m d) options = setFakeIP (applyRouteOptions env m options) d := by
  by_cases htimeout : options.dial.udpTimeout > 0 <;>
    simp [applyRouteOptions, applyRouteOptionsOverride, haddress, hport, htimeout, setFakeIP]

section
variable (hfinds : rule.finds env s = none)
  (hnamed : ∀ action, rule.matches? s.metadata.toView = true → rule.action = .sniff action →
    env.isDomainName s.metadata.domain = false)
include hfinds hnamed

/-- A record that is missing in front of a rule that finds no name is missing behind it. -/
theorem applyRule_missing (h : (applyRule env rule s).state? = some s') : s'.missingFakeIP = s.missingFakeIP := by
  rcases applyRule_cases env rule s with ⟨a, ⟨hmatch, haction⟩, heq⟩ | ⟨_, m, heq⟩
  · have hdomain := domain_of_finds_none hmatch haction hfinds (hnamed a hmatch haction)
    cases hfatal : (s.ahead env a).fatal with
    | some e =>
      rw [heq, applyAction_sniff_some hfatal] at h
      cases h
    | none =>
      rw [heq, applyAction_sniff_none hfatal, repairFakeIP_of_not_name] at h
      · cases h
        rfl
      · rw [(sniffed_recorded (d := "") fun _ => hdomain).2, hdomain]
  · have hstate : (applyRule env rule s).state = s' := by
      revert h
      cases applyRule env rule s with
      | fail => nofun
      | _ => exact Option.some.inj
    rw [← hstate, heq]

/-- What a rule that finds no name does without the record it does with it. -/
theorem applyRule_recorded (hmoves : rule.matches? s.metadata.toView = true → rule.action.moves env = false)
    (hsame : rule.matches? s.metadata.toView = rule.matches? (s.recorded d).metadata.toView)
    (h : applyRule env rule s = .next s') : applyRule env rule (s.recorded d) = .next (s'.recorded d) := by
  unfold applyRule at h ⊢
  rw [← hsame]
  split_ifs at h ⊢ with hmatch
  · have hmoves := hmoves hmatch
    cases haction : rule.action with
    | route | reject | hijackDNS =>
      rw [haction] at h
      cases h
    | bypass outbound options =>
      simp only [haction, applyAction] at h ⊢
      split_ifs at h ⊢
      cases h
      rfl
    | routeOptions options =>
      rw [haction] at h hmoves
      cases h
      obtain ⟨haddress, hport⟩ := Bool.or_eq_false_iff.mp hmoves
      simp only [applyAction, WalkState.recorded, applyRouteOptions_setFakeIP _ d haddress (of_decide_eq_false hport)]
    | sniff sniff =>
      rw [haction] at h
      obtain ⟨hfatal, rfl⟩ := applyAction_sniff.mp h
      have hdomain := domain_of_finds_none hmatch haction hfinds (hnamed sniff hmatch haction)
      obtain ⟨hsniffed, hsame⟩ := sniffed_recorded (d := d) fun _ => hdomain
      have hfatal' : ((s.recorded d).ahead env sniff).fatal = none := by
        rw [ahead_recorded]
        exact hfatal
      rw [applyAction_sniff_none hfatal', hsniffed, repairFakeIP_recorded, repairFakeIP_of_not_name (hsame ▸ hdomain)]
    | resolve resolve =>
      rw [haction] at hmoves
      cases hmoves
  · cases h
    rfl

end

/-! ## The rules up to the name -/

theorem missing_walk (hmissing : s.missingFakeIP = true) (hfinds : FindsNone env rules s) (hnamed : Unnamed env rules s)
    (h : (walk env rules s).state? = some s') : s'.missingFakeIP = true := by
  induction rules generalizing s with
  | nil =>
    cases h
    exact hmissing
  | cons rule rules ih =>
    obtain ⟨hfind, hfinds⟩ := hfinds
    obtain ⟨hname, hnamed⟩ := hnamed hfind
    rw [walk] at h
    cases hs : applyRule env rule s with
    | select action u =>
      rw [hs] at h
      exact (applyRule_missing hfind hname ((congrArg Flow.state? hs).trans h)).trans hmissing
    | fail e u =>
      rw [hs] at h
      cases h
    | next s₁ =>
      rw [hs, Flow.next_andThen] at h
      have hs₁ := (applyRule_missing hfind hname (congrArg Flow.state? hs)).trans hmissing
      exact ih hs₁ (hfinds s₁ hs) (hnamed s₁ hs) h

theorem walk_recorded (hfinds : FindsNone env rules s) (hnamed : Unnamed env rules s) (hmoves : Unmoved env rules s)
    (hsame : SameMatches env rules s (s.recorded d)) (h : walk env rules s = .next s') :
    walk env rules (s.recorded d) = .next (s'.recorded d) := by
  induction rules generalizing s with
  | nil =>
    cases h
    rfl
  | cons rule rules ih =>
    obtain ⟨hfind, hfinds⟩ := hfinds
    obtain ⟨hname, hnamed⟩ := hnamed hfind
    obtain ⟨hmove, hmoves⟩ := hmoves
    obtain ⟨hmatch, hsame⟩ := hsame
    rw [walk] at h ⊢
    cases hs : applyRule env rule s with
    | select | fail => simp [hs] at h
    | next s₁ =>
      have ht := applyRule_recorded hfind hname hmove hmatch hs
      rw [hs, Flow.next_andThen] at h
      rw [ht, Flow.next_andThen]
      exact ih (hfinds s₁ hs) (hnamed s₁ hs) (hmoves s₁ hs) (hsame s₁ _ hs ht) h

theorem Unnamed.left {more : List (Rule κ ρ)} (h : Unnamed env (rules ++ more) s) : Unnamed env rules s := by
  induction rules generalizing s with
  | nil => trivial
  | cons rule rules ih => exact fun hfind => ⟨(h hfind).1, fun s' hs' => ih ((h hfind).2 s' hs')⟩

/-- The rule that finds the name puts the walk where it is with the record. -/
theorem NameFound.leaves_recorded (f : NameFound env rules s) (h : f.Undisturbed env)
    (hmissing : f.reached.missingFakeIP = true) : applyRule env f.rule (f.reached.recorded f.name) = .next f.left := by
  obtain ⟨hmatch, hname, action, haction, hdomain⟩ := Rule.finds_eq_some f.finds
  have hmatch' : f.rule.matches? (f.reached.recorded f.name).metadata.toView = true := h.matches_recorded
  have hoverride : action.overrideDestination = true →
      env.isDomainName (f.reached.ahead env action).peeked.metadata.domain = false :=
    fun htrue => absurd htrue (by simp [h.override action haction])
  obtain ⟨hsniffed, hsame⟩ := sniffed_recorded (d := f.name) hoverride
  have hleft := f.leaves
  rw [applyRule, if_pos hmatch, haction] at hleft
  obtain ⟨hfatal, hleft⟩ := applyAction_sniff.mp hleft
  have hfatal' : ((f.reached.recorded f.name).ahead env action).fatal = none := by
    rw [ahead_recorded]
    exact hfatal
  rw [applyRule, if_pos hmatch', haction, applyAction_sniff_none hfatal', hsniffed, repairFakeIP_recorded, hleft,
    repairFakeIP, if_pos ⟨hmissing, by rw [hsame, hdomain]; exact hname⟩, hsame, hdomain]
  rfl

theorem Agree.refl (rules : List (Rule κ ρ)) (s : WalkState κ ρ) : Agree env rules s s := by
  induction rules generalizing s with
  | nil => rfl
  | cons rule rules ih =>
    refine ⟨rfl, ?_⟩
    cases applyRule env rule s with
    | next s' => exact .next (ih s')
    | select action s' => exact .select rfl
    | fail e s' => exact .fail

theorem Flow.refused_iff (flow : Flow κ ρ) : flow.matched.selected = none ∧ flow.matched.error ≠ none ↔
    ∀ s, flow.state? = some s → s.missingFakeIP = true := by
  cases flow with
  | next s | select _ s => cases hs : s.missingFakeIP <;> simp [Flow.matched, Flow.state?, hs]
  | fail e s => simp [Flow.matched, Flow.state?]

section
variable {store : FakeIPStore} {m : Metadata κ ρ} {addr : Addr} {input : Input}

theorem start_unrecorded (h : Unrecorded store m addr) :
    WalkState.start env store m input = ⟨m, true, .empty, input⟩ := by
  simp [WalkState.start, prepareMatchMetadata, h.destination, h.contains, h.lookup]

theorem start_recorded (h : Unrecorded store m addr) (hname : env.isDomainName d = true) :
    WalkState.start env (store.record addr d) m input = (WalkState.start env store m input).recorded d := by
  have hne : d ≠ "" := by
    rintro rfl
    exact Bool.false_ne_true (env.isDomainName_empty.symm.trans hname)
  rw [start_unrecorded h]
  simp [WalkState.start, WalkState.recorded, prepareMatchMetadata, h.destination, h.contains, FakeIPStore.record, hne,
    setIPVersion, setFakeIP]

end

/-! ## Runs -/

/-- A router that knows two names, resolves both to one address, and finds the first in every packet it sniffs. -/
def sampleEnv : Env Unit Unit where
  isDomainName s := s = "example.org" || s = "sp.v2.udp-over-tcp.arpa"
  isDomainName_empty := rfl
  lookupReverseMapping _ := none
  hasTransport _ := true
  lookup _ _ _ := .ok [.v4 1]
  defaultStreamSniffers := []
  defaultPacketSniffers := [fun _ _ _ => (⟨some "quic", some "example.org", none, none⟩, none)]
  quicClientHello := fun _ _ _ => (⟨some "quic", some "example.org", none, none⟩, none)

def sampleAddr : Addr := .v4 0xC6120009

def sampleStore : FakeIPStore where
  contains addr := addr = sampleAddr
  lookup _ := none

/-- A UDP connection to the address; `domain` is what the inbound says of its name. -/
def sampleMetadata (domain : String) : Metadata Unit Unit :=
  { Metadata.new .udp ⟨.ip sampleAddr, 443⟩ () with domain := domain }

def sniffAll : Rule Unit Unit := ⟨fun _ => true, .sniff ⟨[], [], [], 300, false⟩⟩

def resolveAll : Rule Unit Unit := ⟨fun _ => true, .resolve ⟨"", 0, 0, false, false, none, none⟩⟩

/-- Rules that send everything to another port. -/
def overridePort : Rule Unit Unit := ⟨fun _ => true, .routeOptions ⟨.unspecified, 8443, .zero⟩⟩

def onePacket : Input := .packets [.packet [0] ⟨.ip sampleAddr, 443⟩]

/-- The first rule resolves or overrides where the connection goes, the second finds the name. -/
def foundSecond (first : Rule Unit Unit) (s s' : WalkState Unit Unit)
    (hnone : first.finds sampleEnv (.start sampleEnv sampleStore (sampleMetadata "") onePacket) = none)
    (hwalk : walk sampleEnv [first] (.start sampleEnv sampleStore (sampleMetadata "") onePacket) = .next s)
    (hfinds : sniffAll.finds sampleEnv s = some "example.org")
    (hleaves : applyRule sampleEnv sniffAll s = .next s') :
    NameFound sampleEnv [first, sniffAll] (.start sampleEnv sampleStore (sampleMetadata "") onePacket) where
  before := [first]
  rule := sniffAll
  after := []
  name := "example.org"
  reached := s
  left := s'
  rules_eq := rfl
  findsNone := ⟨hnone, fun _ _ => trivial⟩
  walk_before := hwalk
  finds := hfinds
  leaves := hleaves

theorem Agree.seen (h : Agree env rules s t) : s.seen = t.seen := by
  cases rules with
  | nil => exact h
  | cons rule rules => exact h.1

end SingBox.Route
