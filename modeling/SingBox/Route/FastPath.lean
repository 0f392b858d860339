import SingBox.Route.PreMatch
import SingBox.Route.Unsniffed

/-!
# The fast path and full routing

`PreMatch` and `matchRule` walk the same rules for one connection. As long as the rules match alike and DNS
answers alike, they differ in what rules have said about dialling, and in addresses that were resolved before a
rule replaced the destination, which only `matchRule` forgets.
-/
namespace SingBox.Route

open Lib.Strings WalkState

variable {κ ρ : Type}

/-! ## Two walks in step -/

/-- The metadata of full routing, with what the fast path has of its own. -/
def Metadata.recast (f p : Metadata κ ρ) : Metadata κ ρ :=
  { f with
    preMatch := p.preMatch
    dial := p.dial
    destinationAddresses := p.destinationAddresses
    routeOriginalDestination := p.routeOriginalDestination }

/-- The first packet is still to be read, or is the only one that was. -/
def Pending (firstPacket : Bytes) (held : Held) (input : Input) : Network → Prop
  | .tcp => True
  | .udp =>
    (held.packetBuffers = [] ∧ ∃ destination reads, input = .packets (.packet firstPacket destination :: reads)) ∨
      (held.packetBuffers.map (fun b => b.bytes) = [firstPacket] ∧ ∃ reads, input = .packets reads)
  | .icmp => held.packetBuffers = [] ∧ input = .packets []

/-- Full routing is where the fast path is. -/
structure Shadow (firstPacket : Bytes) (network : Network) (p : Metadata κ ρ) (s : WalkState κ ρ) : Prop where
  metadata : p = s.metadata.recast p
  network_eq : p.network = network
  settled : needMoreData p.sniffError = false
  specified : p.destination.host ≠ .unspecified
  missing : s.missingFakeIP = false
  pending : Pending firstPacket s.held s.input network

variable (env : Env κ ρ) (flooded : Bool) (firstPacket : Bytes) {network : Network}

/-- The rules match alike in both walks, as far as both go. -/
def MatchAlike : List (Rule κ ρ) → Metadata κ ρ → WalkState κ ρ → Prop
  | [], _, _ => True
  | rule :: rules, p, s => rule.matches? p.toView = rule.matches? s.metadata.toView ∧
      ∀ p' s', preMatchRule env flooded firstPacket rule p = .next p' → applyRule env rule s = .next s' →
        MatchAlike rules p' s'

/-- DNS answers alike in both walks. -/
def AnswerAlike : List (Rule κ ρ) → Metadata κ ρ → WalkState κ ρ → Prop
  | [], _, _ => True
  | rule :: rules, p, s =>
      (∀ domain action, rule.action = .resolve action →
        env.lookup p.toView domain action = env.lookup s.metadata.toView domain action) ∧
      ∀ p' s', preMatchRule env flooded firstPacket rule p = .next p' → applyRule env rule s = .next s' →
        AnswerAlike rules p' s'

variable {env flooded firstPacket}

theorem applyRouteOptions_recast (f p : Metadata κ ρ) (o : RouteOptions) :
    applyRouteOptionsOverride env (f.recast p) o =
      (applyRouteOptions env f o).recast (applyRouteOptionsOverride env (f.recast p) o) := by
  by_cases haddress : o.overrideAddress.isValid env <;> by_cases hport : o.overridePort > 0 <;>
    by_cases htimeout : o.dial.udpTimeout > 0 <;> by_cases horiginal : f.routeOriginalDestination.host.isValid env <;>
      simp [applyRouteOptions, applyRouteOptionsOverride, Metadata.recast, haddress, hport, htimeout, horiginal]

theorem applyRouteOptionsOverride_kept (m : Metadata κ ρ) (o : RouteOptions) :
    (applyRouteOptionsOverride env m o).sniffError = m.sniffError ∧
      (applyRouteOptionsOverride env m o).network = m.network ∧
        (applyRouteOptionsOverride env m o).destinationAddresses = m.destinationAddresses := by
  simp only [applyRouteOptionsOverride]
  split_ifs <;> exact ⟨rfl, rfl, rfl⟩

variable {p m p' : Metadata κ ρ} {s : WalkState κ ρ} {rules : List (Rule κ ρ)} {outbound : Outbound} {domain : String}
  {action : SniffAction κ} {addr : Addr} {outbounds : Outbounds} {rule : Rule κ ρ} {packetDestination : Socksaddr}
  {store : FakeIPStore}

theorem applyRouteOptionsOverride_host (m : Metadata κ ρ) (o : RouteOptions) :
    (applyRouteOptionsOverride env m o).destination.host =
      if o.overrideAddress.isValid env then o.overrideAddress else m.destination.host := by
  simp only [applyRouteOptionsOverride]
  split_ifs <;> rfl

theorem applyRouteOptionsOverride_specified (o : RouteOptions) (h : m.destination.host ≠ .unspecified) :
    (applyRouteOptionsOverride env m o).destination.host ≠ .unspecified := by
  have hvalid : o.overrideAddress.isValid env = true → o.overrideAddress ≠ .unspecified := by
    intro hv heq
    rw [heq] at hv
    cases hv
  rw [applyRouteOptionsOverride_host]
  split_ifs with haddress
  · exact hvalid haddress
  · exact h

section
variable (h : Shadow firstPacket network p s)
include h

theorem Shadow.routeOptions (o : RouteOptions) :
    Shadow firstPacket network (applyRouteOptionsOverride env p o)
      { s with metadata := applyRouteOptions env s.metadata o } where
  metadata := by
    have hrecast : applyRouteOptionsOverride env (s.metadata.recast p) o = _ := applyRouteOptions_recast s.metadata p o
    rw [← h.metadata] at hrecast
    exact hrecast
  settled := by
    rw [(applyRouteOptionsOverride_kept p o).1]
    exact h.settled
  specified := applyRouteOptionsOverride_specified o h.specified
  missing := h.missing
  network_eq := by
    rw [(applyRouteOptionsOverride_kept p o).2.1]
    exact h.network_eq
  pending := h.pending

theorem Shadow.view :
    p.destination = s.metadata.destination ∧ p.protocol = s.metadata.protocol ∧
      p.snifferNames = s.metadata.snifferNames ∧ p.sniffError = s.metadata.sniffError := by
  rw [h.metadata]
  exact ⟨rfl, rfl, rfl, rfl⟩

/-- What resolves a name in the fast path resolves it in full routing. -/
theorem Shadow.resolve {action : ResolveAction}
    (hanswer : ∀ domain, env.lookup p.toView domain action = env.lookup s.metadata.toView domain action)
    (hp : actionResolve env p action = .ok p') :
    ∃ m', actionResolve env s.metadata action = .ok m' ∧ Shadow firstPacket network p' { s with metadata := m' } := by
  have hdestination := h.view.1
  rcases (actionResolve_eq_ok env).mp hp with ⟨fqdn, addresses, hhost, hname, hserver, hlookup, rfl⟩ | ⟨hno, rfl⟩
  · rw [hdestination] at hhost
    rw [hanswer] at hlookup
    refine ⟨_, (actionResolve_eq_ok env).mpr (.inl ⟨fqdn, addresses, hhost, hname, hserver, hlookup, rfl⟩), ?_⟩
    refine ⟨?_, h.network_eq, h.settled, h.specified, h.missing, h.pending⟩
    exact congrArg (fun m : Metadata κ ρ => { m with destinationAddresses := addresses }) h.metadata
  · rw [hdestination] at hno
    exact ⟨s.metadata, (actionResolve_eq_ok env).mpr (.inr ⟨hno, rfl⟩), h⟩

end

/-! ## Sniffing the first packet -/

theorem sniffFirst_recast (action : SniffAction κ) (f p : Metadata κ ρ) :
    sniffFirst env firstPacket action (f.recast p) =
      (sniffFirst env firstPacket action f).map fun m => m.recast p := by
  have h : Unsniffed fun m : Metadata κ ρ => m.recast p :=
    ⟨fun _ => rfl, fun _ => rfl, fun _ _ => rfl, fun _ => rfl, fun _ => rfl, fun _ => rfl, fun _ => rfl,
      fun _ _ _ => rfl⟩
  have hmap := runSniffers_map h firstPacket
    (if action.packetSniffers ≠ [] then action.packetSniffers else env.defaultPacketSniffers) ⟨f, none, none⟩
  have hstart : (⟨f.recast p, none, none⟩ : Peeked κ ρ) = Peeked.map (fun m => m.recast p) ⟨f, none, none⟩ := rfl
  rw [sniffFirst, hstart, hmap]
  rfl

theorem runSniffers_kept (data : Bytes) (sniffers : List (Sniffer κ)) (p : Peeked κ ρ) :
    (runSniffers data sniffers p).metadata.destination = p.metadata.destination ∧
      (runSniffers data sniffers p).metadata.network = p.metadata.network ∧
        (runSniffers data sniffers p).metadata.destinationAddresses = p.metadata.destinationAddresses := by
  induction sniffers generalizing p with
  | nil => exact ⟨rfl, rfl, rfl⟩
  | cons sniffer sniffers ih =>
    simp only [runSniffers]
    rcases sniffer p.metadata.client p.metadata.sniffContext data with ⟨w, _ | e⟩
    · exact ⟨rfl, rfl, rfl⟩
    · exact ih ⟨w.apply p.metadata, w.domain.or p.found, some (SniffError.append p.error e)⟩

theorem overrideSniffed_recast (action : SniffAction κ) (q : Peeked κ ρ) (p : Metadata κ ρ) :
    overrideSniffed env action (q.map fun m => m.recast p) = (overrideSniffed env action q).recast p := by
  by_cases h : q.error = none ∧ action.overrideDestination = true ∧ env.isDomainName q.metadata.domain = true
  · rw [overrideSniffed, overrideSniffed, if_pos h]
    exact if_pos h
  · rw [overrideSniffed, overrideSniffed, if_neg h]
    exact if_neg h

/-- What a rule sniffs of the first packet it writes down, and the rest it leaves. -/
theorem overrideSniffed_first (h : overrideSniffed env action (sniffFirst env firstPacket action m) = p) :
    p.network = m.network ∧ p.destinationAddresses = m.destinationAddresses ∧
      p.sniffError = (sniffFirst env firstPacket action m).error ∧
      (p.destination.host = m.destination.host ∨ action.overrideDestination = true ∧
        ∃ domain, p.destination.host = .name domain ∧ env.isDomainName domain = true) := by
  subst h
  have hkept := runSniffers_kept firstPacket
    (if action.packetSniffers ≠ [] then action.packetSniffers else env.defaultPacketSniffers) ⟨m, none, none⟩
  unfold overrideSniffed
  split_ifs with hoverride
  · exact ⟨hkept.2.1, hkept.2.2, rfl, .inr ⟨hoverride.2.1, _, rfl, hoverride.2.2⟩⟩
  · exact ⟨hkept.2.1, hkept.2.2, rfl, .inl (congrArg Socksaddr.host hkept.1)⟩

theorem peekPacket_first (h : needMoreData m.sniffError = false) :
    peekPacket env action ⟨m, none, none⟩ firstPacket = sniffFirst env firstPacket action m := by
  have hquic : ¬(m.snifferNames = action.snifferNames ∧ needMoreData m.sniffError = true) := by
    rintro ⟨_, hmore⟩
    rw [h] at hmore
    cases hmore
  simp only [peekPacket, if_neg hquic]
  rfl

/-- Full routing reads the first packet, or has it, and its sniffers say what they say in the fast path. -/
theorem ahead_first (hnetwork : Pending firstPacket s.held s.input .udp)
    (hsniffError : needMoreData s.metadata.sniffError = false)
    (hskip : ¬(skipPort s.metadata.destination.port = true ∨ s.metadata.protocol ≠ ""))
    (hsniffers : ¬(action.packetSniffers = [] ∧ action.streamSniffers ≠ []))
    (hbefore : ¬(s.metadata.snifferNames = action.snifferNames ∧ s.metadata.sniffError ≠ none))
    (hmore : needMoreData (sniffFirst env firstPacket action s.metadata).error = false) :
    (s.ahead env action).peeked = sniffFirst env firstPacket action s.metadata ∧ (s.ahead env action).fatal = none ∧
      Pending firstPacket (s.held.add (s.ahead env action)) (s.ahead env action).input .udp := by
  have hnot : ¬(action.packetSniffers = [] ∧ action.streamSniffers ≠ [] ∨
      sniffedBefore action s.metadata = true) := by
    rintro (h | h)
    · exact hsniffers h
    · simp only [sniffedBefore, Bool.and_eq_true, decide_eq_true_eq, Option.isSome_iff_ne_none] at h
      exact hbefore h.1
  rcases hnetwork with ⟨hheld, destination, reads, hinput⟩ | ⟨hheld, reads, hinput⟩
  · have hahead : s.ahead env action = ⟨sniffFirst env firstPacket action s.metadata, [], [(firstPacket, destination)],
        none, none, .packets reads⟩ := by
      rw [ahead, hinput, hheld]
      simp only [sniffAhead, if_neg hskip, if_neg hnot, sniffPackets, List.map_nil, peekHeld, List.length_nil]
      unfold readPackets
      simp [maxSniffPackets, peekPacket_first hsniffError, hmore]
    rw [hahead]
    refine ⟨rfl, rfl, .inr ⟨?_, reads, rfl⟩⟩
    simp [Held.add, hheld, bufferPackets]
  · have hahead : s.ahead env action = ⟨sniffFirst env firstPacket action s.metadata, [], [], none, none,
        .packets reads⟩ := by
      rw [ahead, hinput, hheld]
      simp [sniffAhead, if_neg hskip, if_neg hnot, sniffPackets, peekHeld, peekPacket_first hsniffError, hmore]
    rw [hahead]
    refine ⟨rfl, rfl, .inr ⟨?_, reads, rfl⟩⟩
    simp [Held.add, hheld, bufferPackets]

theorem Pending.input {held : Held} {input : Input} (h : Pending firstPacket held input .udp) :
    ∃ reads, input = .packets reads := by
  rcases h with ⟨_, destination, reads, hinput⟩ | ⟨_, reads, hinput⟩
  · exact ⟨_, hinput⟩
  · exact ⟨reads, hinput⟩

theorem applyAction_quiet {cause : String} (hmissing : s.missingFakeIP = false)
    (h : s.ahead env action = ⟨(⟨s.metadata, none, none⟩ : Peeked κ ρ).failed cause, [], [], none, none, s.input⟩) :
    applyAction env (.sniff action) s = .next s := by
  have hfatal : (s.ahead env action).fatal = none := by
    rw [h]
  have hsniffed : s.sniffed env action = s := by
    rw [sniffed, h]
    simp [overrideSniffed, Peeked.failed, Held.add, bufferPackets]
  rw [applyAction_sniff_none hfatal, hsniffed, repairFakeIP, if_neg]
  rintro ⟨hm, _⟩
  exact Bool.false_ne_true (hmissing.symm.trans hm)

theorem Shadow.sniff (h : Shadow firstPacket network p s) (hp : preMatchSniff env firstPacket action p = .next p') :
    ∃ s', applyAction env (.sniff action) s = .next s' ∧ Shadow firstPacket network p' s' := by
  obtain ⟨hdestination, hprotocol, hnames, herror⟩ := h.view
  have hpending := h.pending
  have hnothing : action.Skips s.metadata s.input → applyAction env (.sniff action) s = .next s := fun hskips =>
    applyAction_quiet h.missing (sniffAhead_skips hskips _ _)
  unfold preMatchSniff at hp
  split_ifs at hp with hicmp hudp hskip hsniffers hbefore hmore
  · -- There is nothing to read of an ICMP connection.
    cases hp
    rw [← h.network_eq, hicmp] at hpending
    obtain ⟨hheld, hinput⟩ := hpending
    have hquiet : ∃ cause, s.ahead env action =
        ⟨(⟨s.metadata, none, none⟩ : Peeked κ ρ).failed cause, [], [], none, none, s.input⟩ := by
      rw [ahead, hheld, hinput]
      simp only [sniffAhead]
      split_ifs
      · exact ⟨_, rfl⟩
      · exact ⟨_, rfl⟩
      · exact ⟨"timeout", rfl⟩
    obtain ⟨cause, hquiet⟩ := hquiet
    exact ⟨s, applyAction_quiet h.missing hquiet, h⟩
  all_goals
    have hudp' : p.network = .udp := by
      by_contra hne
      exact hudp (.inl hne)
    have hudpPending : Pending firstPacket s.held s.input .udp := hudp' ▸ h.network_eq ▸ hpending
    obtain ⟨reads, hinput⟩ := hudpPending.input
  · cases hp
    exact ⟨s, hnothing (or_assoc.mp (.inl (hdestination ▸ hprotocol ▸ hskip))), h⟩
  · cases hp
    exact ⟨s, hnothing (hinput ▸ .inr (.inr (.inr hsniffers))), h⟩
  · cases hp
    refine ⟨s, hnothing (.inr (.inr (.inl ?_))), h⟩
    have hmore := h.settled
    rw [herror] at hbefore hmore
    rw [hnames] at hbefore
    simp [sniffedBefore, hbefore.1, hmore, Option.isSome_iff_ne_none, hbefore.2]
  · cases hp
    have hrecast : sniffFirst env firstPacket action p =
        (sniffFirst env firstPacket action s.metadata).map fun m => m.recast p := by
      have heq : sniffFirst env firstPacket action (s.metadata.recast p) = _ := sniffFirst_recast action s.metadata p
      rw [← h.metadata] at heq
      exact heq
    have hmore' : needMoreData (sniffFirst env firstPacket action s.metadata).error = false := by
      rw [hrecast] at hmore
      exact eq_false_of_ne_true hmore
    obtain ⟨hpeeked, hfatal, hnext⟩ := ahead_first hudpPending (herror ▸ h.settled) (hdestination ▸ hprotocol ▸ hskip)
      hsniffers (hnames ▸ herror ▸ hbefore) hmore'
    refine ⟨s.sniffed env action, ?_, ?_⟩
    · rw [applyAction_sniff_none hfatal, repairFakeIP, if_neg]
      rintro ⟨hm, _⟩
      exact Bool.false_ne_true (h.missing.symm.trans hm)
    obtain ⟨hnet, _, hsniffError, hhost⟩ := overrideSniffed_first (show overrideSniffed env action
      (sniffFirst env firstPacket action p) = _ from rfl)
    have hmetadata : overrideSniffed env action (sniffFirst env firstPacket action p) =
        (s.sniffed env action).metadata.recast p := by
      rw [hrecast, overrideSniffed_recast, sniffed, hpeeked]
    exact
      { metadata := by
          rw [hmetadata]
          rfl
        settled := by
          rw [hsniffError]
          simpa using hmore
        specified := by
          rcases hhost with hhost | ⟨_, domain, hhost, _⟩ <;> rw [hhost]
          · exact h.specified
          · exact Host.noConfusion
        missing := h.missing
        network_eq := hnet.trans h.network_eq
        pending := by
          rw [← h.network_eq, hudp']
          exact hnext }

/-! ## One rule, and all of them -/

/-- A bypass rule without an outbound is passed over by full routing. -/
def Action.passedOver : Action κ → Bool
  | .bypass outbound _ => outbound = ""
  | _ => false

theorem preMatchRule_select {action : Action κ} (hp : preMatchRule env flooded firstPacket rule p = .select action p') :
    rule.matches? p.toView = true ∧ rule.action = action ∧ ∃ tag options,
      p' = applyRouteOptionsOverride env p options ∧ (action = .route tag options ∨ action = .bypass tag options) := by
  unfold preMatchRule at hp
  split_ifs at hp with hm
  refine ⟨hm, ?_⟩
  cases haction : rule.action with
  | route tag options =>
    rw [haction] at hp
    cases hp
    exact ⟨rfl, tag, options, rfl, .inl rfl⟩
  | bypass tag options =>
    rw [haction] at hp
    cases hp
    exact ⟨rfl, tag, options, rfl, .inr rfl⟩
  | reject method noDrop => cases method <;> simp [haction, preMatchAction] at hp
  | hijackDNS | routeOptions => simp [haction, preMatchAction] at hp
  | sniff sniff =>
    simp only [haction, preMatchAction, preMatchSniff] at hp
    split_ifs at hp
  | resolve resolve =>
    simp only [haction, preMatchAction] at hp
    split at hp <;> cases hp

/-- A rule that leaves the fast path at the next one. -/
theorem preMatchRule_next (hp : preMatchRule env flooded firstPacket rule p = .next p') :
    rule.matches? p.toView = false ∧ p' = p ∨ rule.matches? p.toView = true ∧
      ((∃ options, rule.action = .routeOptions options ∧ p' = applyRouteOptionsOverride env p options) ∨
        (∃ action, rule.action = .sniff action ∧ preMatchSniff env firstPacket action p = .next p') ∨
          ∃ action, rule.action = .resolve action ∧ actionResolve env p action = .ok p') := by
  unfold preMatchRule at hp
  split_ifs at hp with hm
  · refine .inr ⟨hm, ?_⟩
    cases haction : rule.action with
    | route | bypass | hijackDNS => simp [haction, preMatchAction] at hp
    | reject method noDrop => cases method <;> simp [haction, preMatchAction] at hp
    | routeOptions options =>
      rw [haction] at hp
      cases hp
      exact .inl ⟨options, rfl, rfl⟩
    | sniff action =>
      rw [haction] at hp
      exact .inr (.inl ⟨action, rfl, hp⟩)
    | resolve action =>
      simp only [haction, preMatchAction] at hp
      split at hp
      · cases hp
      next m hm =>
        cases hp
        exact .inr (.inr ⟨action, rfl, hm⟩)
  · cases hp
    exact .inl ⟨eq_false_of_ne_true hm, rfl⟩

variable (h : Shadow firstPacket network p s)
  (hmatch : rule.matches? p.toView = rule.matches? s.metadata.toView)
  (hanswer : ∀ domain action, rule.action = .resolve action →
    env.lookup p.toView domain action = env.lookup s.metadata.toView domain action)
  (hp : preMatchRule env flooded firstPacket rule p = .next p')
  (hmatches : MatchAlike env flooded firstPacket rules p s) (hanswers : AnswerAlike env flooded firstPacket rules p s)

include h hmatch hanswer hp in
theorem Shadow.next :
    ∃ s', applyRule env rule s = .next s' ∧ Shadow firstPacket network p' s' := by
  unfold applyRule
  rw [← hmatch]
  rcases preMatchRule_next hp with ⟨hm, rfl⟩ | ⟨hm, ⟨options, ha, rfl⟩ | ⟨action, ha, hsniff⟩ | ⟨action, ha, hresolve⟩⟩
  · exact ⟨s, if_neg (ne_true_of_eq_false hm), h⟩
  all_goals rw [if_pos hm, ha]
  · exact ⟨_, rfl, h.routeOptions options⟩
  · exact h.sniff hsniff
  · obtain ⟨m', hm', hshadow⟩ := h.resolve (fun domain => hanswer domain action ha) hresolve
    refine ⟨_, ?_, hshadow⟩
    simp only [applyAction, hm']

include h hmatch in
theorem Shadow.select {action : Action κ} (hover : action.passedOver = false)
    (hp : preMatchRule env flooded firstPacket rule p = .select action p') :
    ∃ s', applyRule env rule s = .select action s' ∧ Shadow firstPacket network p' s' := by
  obtain ⟨hm, rfl, tag, options, rfl, hcase⟩ := preMatchRule_select hp
  rw [applyRule, if_pos (hmatch ▸ hm)]
  refine ⟨_, ?_, h.routeOptions options⟩
  rcases hcase with hcase | hcase
  · rw [hcase]
    rfl
  · rw [hcase] at hover ⊢
    rw [applyAction, if_neg (of_decide_eq_false hover)]

include h hmatches hanswers in
/-- Where the walk of the fast path has found an outbound to ask for, full routing has selected the same rule. -/
theorem Shadow.walk :
    (∀ p', preMatchWalk env flooded firstPacket rules p = .next p' →
      ∃ s', walk env rules s = .next s' ∧ Shadow firstPacket network p' s') ∧
    (∀ action p', preMatchWalk env flooded firstPacket rules p = .select action p' → action.passedOver = false →
      ∃ s', walk env rules s = .select action s' ∧ Shadow firstPacket network p' s') := by
  induction rules generalizing p s with
  | nil =>
    refine ⟨fun p' hp => ?_, fun action p' hp => ?_⟩
    · cases hp
      exact ⟨s, rfl, h⟩
    · cases hp
  | cons rule rules ih =>
    obtain ⟨hmatch, hmatches⟩ := hmatches
    obtain ⟨hanswer, hanswers⟩ := hanswers
    rw [preMatchWalk, Route.walk]
    cases hp : preMatchRule env flooded firstPacket rule p with
    | next p₁ =>
      obtain ⟨s₁, hs₁, h₁⟩ := h.next hmatch hanswer hp
      rw [hs₁]
      exact ih h₁ (hmatches p₁ s₁ hp hs₁) (hanswers p₁ s₁ hp hs₁)
    | select action p₁ =>
      refine ⟨fun p' hp' => (by cases hp'), fun action' p' hp' hover => ?_⟩
      cases hp'
      obtain ⟨s₁, hs₁, h₁⟩ := h.select hmatch hover hp
      exact ⟨s₁, by rw [hs₁, Flow.select_andThen], h₁⟩
    | done result => exact ⟨fun p' hp' => (by cases hp'), fun action p' hp' => (by cases hp')⟩

/-! ## Where the addresses come from -/

/-- A matching resolve rule of full routing gives the address for the name. -/
def Rule.Gives (env : Env κ ρ) (rule : Rule κ ρ) (m : Metadata κ ρ) (domain : String) (addr : Addr) : Prop :=
  rule.matches? m.toView = true ∧ m.destination.host = .name domain ∧ env.isDomainName domain = true ∧
    ∃ action addresses, rule.action = .resolve action ∧ env.lookup m.toView domain action = .ok addresses ∧
      addr ∈ addresses

/-- A resolve rule that full routing comes to gives the address for the name. -/
def Gave (env : Env κ ρ) : List (Rule κ ρ) → WalkState κ ρ → String → Addr → Prop
  | [], _, _, _ => False
  | rule :: rules, s, domain, addr => rule.Gives env s.metadata domain addr ∨
      ∃ s', applyRule env rule s = .next s' ∧ Gave env rules s' domain addr

/-- The metadata at the end of a walk that is not done yet. -/
def PreFlow.metadata? : PreFlow κ ρ → Option (Metadata κ ρ)
  | .next m => some m
  | .select _ m => some m
  | .done _ => none

/-- The action may replace the destination by a name. -/
def Action.renames (env : Env κ ρ) : Action κ → Bool
  | .route _ options => options.overrideAddress.isDomain env
  | .routeOptions options => options.overrideAddress.isDomain env
  | .bypass _ options => options.overrideAddress.isDomain env
  | .sniff action => action.overrideDestination
  | _ => false

/-- A matching rule names the outbound it routes to, and does not replace the destination by a name while there are
addresses of another; behind all rules the default outbound is the one the router has. -/
def Faithful (env : Env κ ρ) (outbounds : Outbounds) (flooded : Bool) (firstPacket : Bytes) :
    List (Rule κ ρ) → Metadata κ ρ → Prop
  | [], _ => outbounds.default = outbounds.defaultOutbound
  | rule :: rules, p =>
      (rule.matches? p.toView = true → (∀ options, rule.action ≠ .route "" options) ∧
        (rule.action.renames env = true → p.destinationAddresses = [])) ∧
      ∀ p', preMatchRule env flooded firstPacket rule p = .next p' → Faithful env outbounds flooded firstPacket rules p'

theorem preMatchSniff_next (hp : preMatchSniff env firstPacket action p = .next p') :
    p'.destinationAddresses = p.destinationAddresses ∧
      (p'.destination.host = p.destination.host ∨ action.overrideDestination = true ∧
        ∃ domain, p'.destination.host = .name domain ∧ env.isDomainName domain = true) := by
  unfold preMatchSniff at hp
  split_ifs at hp
  all_goals cases hp
  all_goals first | exact ⟨rfl, .inl rfl⟩ | exact ⟨(overrideSniffed_first rfl).2.1, (overrideSniffed_first rfl).2.2.2⟩

theorem applyRouteOptionsOverride_name {o : RouteOptions}
    (h : (applyRouteOptionsOverride env p o).destination.host = .name domain) :
    p.destination.host = .name domain ∨ o.overrideAddress.isDomain env = true ∧ env.isDomainName domain = true := by
  rw [applyRouteOptionsOverride_host] at h
  split_ifs at h with hvalid
  · rw [h] at hvalid ⊢
    exact .inr ⟨hvalid, hvalid⟩
  · exact .inl h

/-- A name behind a rule was the destination before, or is a domain name that the rule has set. -/
theorem preMatchRule_name (hp : (preMatchRule env flooded firstPacket rule p).metadata? = some p')
    (h : p'.destination.host = .name domain) : p.destination.host = .name domain ∨
      rule.matches? p.toView = true ∧ rule.action.renames env = true ∧ env.isDomainName domain = true := by
  cases hrule : preMatchRule env flooded firstPacket rule p with
  | next p₁ =>
    rw [hrule] at hp
    cases hp
    rcases preMatchRule_next hrule with ⟨_, rfl⟩ | ⟨hm, ⟨options, ha, rfl⟩ | ⟨action, ha, hsniff⟩ |
      ⟨action, _, hresolve⟩⟩
    · exact .inl h
    · exact (applyRouteOptionsOverride_name h).imp_right fun hset => ⟨hm, ha ▸ hset.1, hset.2⟩
    · rcases (preMatchSniff_next hsniff).2 with hhost | ⟨hoverride, name, hname, hdomain⟩
      · exact .inl (hhost ▸ h)
      · cases hname.symm.trans h
        exact .inr ⟨hm, ha ▸ hoverride, hdomain⟩
    · rcases (actionResolve_eq_ok env).mp hresolve with ⟨_, _, _, _, _, _, rfl⟩ | ⟨_, rfl⟩ <;> exact .inl h
  | select action p₁ =>
    rw [hrule] at hp
    cases hp
    obtain ⟨hm, rfl, tag, options, rfl, hcase⟩ := preMatchRule_select hrule
    refine (applyRouteOptionsOverride_name h).imp_right fun hset => ⟨hm, ?_, hset.2⟩
    rcases hcase with hcase | hcase <;> rw [hcase] <;> exact hset.1
  | done result =>
    rw [hrule] at hp
    cases hp

include h hmatch hanswer hp in
/-- Only a resolve rule changes the addresses, to those of the name that is the destination. -/
theorem Shadow.addresses : p'.destinationAddresses = p.destinationAddresses ∨
    p'.destination = p.destination ∧ ∃ domain, p.destination.host = .name domain ∧
      ∀ addr ∈ p'.destinationAddresses, rule.Gives env s.metadata domain addr := by
  rcases preMatchRule_next hp with ⟨_, rfl⟩ | ⟨hm, ⟨options, _, rfl⟩ | ⟨action, _, hsniff⟩ | ⟨action, ha, hresolve⟩⟩
  · exact .inl rfl
  · exact .inl (applyRouteOptionsOverride_kept p options).2.2
  · exact .inl (preMatchSniff_next hsniff).1
  · rcases (actionResolve_eq_ok env).mp hresolve with ⟨fqdn, addresses, hhost, hname, _, hlookup, rfl⟩ | ⟨_, rfl⟩
    · refine .inr ⟨rfl, fqdn, hhost, fun addr haddr => ?_⟩
      rw [h.view.1] at hhost
      rw [hanswer fqdn action ha] at hlookup
      exact ⟨hmatch ▸ hm, hhost, hname, action, addresses, ha, hlookup, haddr⟩
    · exact .inl rfl

include h hmatches hanswers in
/-- A name at the end of the walk is a domain name, and the addresses of the fast path were given for it. -/
theorem Shadow.given (hfaithful : Faithful env outbounds flooded firstPacket rules p)
    (hp : (preMatchWalk env flooded firstPacket rules p).metadata? = some p')
    (hend : p'.destination.host = .name domain)
    (hstart : ∀ name, p.destination.host = .name name → env.isDomainName name = true) :
    env.isDomainName domain = true ∧ ∀ addr ∈ p'.destinationAddresses,
      (addr ∈ p.destinationAddresses ∧ p.destination.host = .name domain) ∨ Gave env rules s domain addr := by
  induction rules generalizing p s with
  | nil =>
    cases hp
    exact ⟨hstart domain hend, fun addr haddr => .inl ⟨haddr, hend⟩⟩
  | cons rule rules ih =>
    obtain ⟨hmatch, hmatches⟩ := hmatches
    obtain ⟨hanswer, hanswers⟩ := hanswers
    obtain ⟨hkeep, hfaithful⟩ := hfaithful
    have hname : ∀ p₁ name, (preMatchRule env flooded firstPacket rule p).metadata? = some p₁ →
        p₁.destination.host = .name name → env.isDomainName name = true := by
      intro p₁ name hp₁ hhost
      rcases preMatchRule_name hp₁ hhost with hbefore | ⟨_, _, hset⟩
      · exact hstart name hbefore
      · exact hset
    -- A rule that leaves addresses has not replaced the name they are for.
    have hsame : ∀ p₁ addr, (preMatchRule env flooded firstPacket rule p).metadata? = some p₁ →
        p₁.destination.host = .name domain → addr ∈ p.destinationAddresses → p.destination.host = .name domain := by
      intro p₁ addr hp₁ hhost haddr
      rcases preMatchRule_name hp₁ hhost with hbefore | ⟨hm, hrenames, _⟩
      · exact hbefore
      · rw [(hkeep hm).2 hrenames] at haddr
        cases haddr
    rw [preMatchWalk] at hp
    cases hrule : preMatchRule env flooded firstPacket rule p with
    | next p₁ =>
      obtain ⟨s₁, hs₁, h₁⟩ := h.next hmatch hanswer hrule
      rw [hrule] at hp
      obtain ⟨hdomain, hgave⟩ := ih h₁ (hmatches p₁ s₁ hrule hs₁) (hanswers p₁ s₁ hrule hs₁) (hfaithful p₁ hrule) hp
        fun name hhost => hname p₁ name (by rw [hrule]; rfl) hhost
      refine ⟨hdomain, fun addr haddr => ?_⟩
      rcases hgave addr haddr with ⟨haddr₁, hhost₁⟩ | hgave
      · rcases h.addresses hmatch hanswer hrule with haddresses | ⟨hdestination, name, hhost, hgives⟩
        · rw [haddresses] at haddr₁
          exact .inl ⟨haddr₁, hsame p₁ addr (by rw [hrule]; rfl) hhost₁ haddr₁⟩
        · rw [hdestination] at hhost₁
          cases hhost.symm.trans hhost₁
          exact .inr (.inl (hgives addr haddr₁))
      · exact .inr (.inr ⟨s₁, hs₁, hgave⟩)
    | select action p₁ =>
      rw [hrule] at hp
      cases hp
      refine ⟨hname p' domain (by rw [hrule]; rfl) hend, fun addr haddr => .inl ?_⟩
      have haddr₁ : addr ∈ p.destinationAddresses := by
        obtain ⟨_, _, _, options, rfl, _⟩ := preMatchRule_select hrule
        exact (applyRouteOptionsOverride_kept p options).2.2 ▸ haddr
      exact ⟨haddr₁, hsame p' addr (by rw [hrule]; rfl) hend haddr₁⟩
    | done result =>
      rw [hrule] at hp
      cases hp

theorem Faithful.walk (hfaithful : Faithful env outbounds flooded firstPacket rules p) :
    (∀ p', preMatchWalk env flooded firstPacket rules p = .next p' → outbounds.default = outbounds.defaultOutbound) ∧
      ∀ options p', preMatchWalk env flooded firstPacket rules p ≠ .select (.route "" options) p' := by
  induction rules generalizing p with
  | nil =>
    refine ⟨fun _ _ => hfaithful, fun options p' hselect => ?_⟩
    cases hselect
  | cons rule rules ih =>
    obtain ⟨hkeep, hfaithful⟩ := hfaithful
    rw [preMatchWalk]
    cases hrule : preMatchRule env flooded firstPacket rule p with
    | next p₁ => exact ih (hfaithful p₁ hrule)
    | select action p₁ =>
      refine ⟨fun p' hnext => (by cases hnext), fun options p' hselect => ?_⟩
      cases hselect
      obtain ⟨hm, haction, _⟩ := preMatchRule_select hrule
      exact (hkeep hm).1 options haction
    | done result => exact ⟨fun p' hnext => (by cases hnext), fun options p' hselect => (by cases hselect)⟩

/-! ## The flow and the connection -/

/-- The packets go to the outbound, as a flow or bypassing the router. -/
def PreMatchResult.Through (r : PreMatchResult) (outbound : Outbound) : Prop :=
  (r.action = .flow ∨ r.action = .bypass) ∧ r.outbound = some outbound

/-- Where the packets of a flow go. -/
def PreMatchResult.sentTo (r : PreMatchResult) (packetDestination : Addr × UInt16) : Addr × UInt16 :=
  r.destination.getD packetDestination

/-- The chain of outbounds that `routeConnection` and `routePacketConnection` hand a connection to. -/
def Matched.chain (outbounds : Outbounds) (network : Network) (r : Matched κ ρ) : Except String (List Outbound) :=
  match r.error with
  | some e => .error e
  | none =>
    match r.selected with
    | some (.reject _ _) => .error "rejected"
    | some .hijackDNS => .error "hijacked"
    | selected => (selectedOutbound outbounds selected).bind (resolveOutbound network)

/-- Full routing dials the address: it is the destination, or was given for the name that is. -/
def Dials (env : Env κ ρ) (rules : List (Rule κ ρ)) (start : WalkState κ ρ) (m : Metadata κ ρ)
    (target : Addr × UInt16) : Prop :=
  target.2 = m.destination.port ∧
    match m.destination.host with
    | .ip addr => target.1 = addr
    | .name domain => Gave env rules start domain target.1
    | .unspecified => False

/-- Full routing ends in the outbound and dials the address. -/
def Routes (env : Env κ ρ) (outbounds : Outbounds) (store : FakeIPStore) (rules : List (Rule κ ρ)) (m : Metadata κ ρ)
    (input : Input) (outbound : Outbound) (target : Addr × UInt16) : Prop :=
  (∃ chain, (matchRule env store rules m input).chain outbounds m.network = .ok chain ∧
    chain.getLast? = some outbound) ∧
  Dials env rules (.start env store m input) (matchRule env store rules m input).metadata target

/-- A connection that comes from a TUN: its destination is an address, nothing has been sniffed or resolved, and what is
read of it begins with its first packet. -/
structure TunConnection (m : Metadata κ ρ) (addr : Addr) (firstPacket : Bytes) (input : Input) : Prop where
  destination : m.destination.host = .ip addr
  addresses : m.destinationAddresses = []
  sniffError : m.sniffError = none
  pending : Pending firstPacket .empty input m.network

/-- The fast path decides as full routing would. -/
def DecidesAsRouting (env : Env κ ρ) (outbounds : Outbounds) (flooded : Bool) (store : FakeIPStore)
    (rules : List (Rule κ ρ)) (m : Metadata κ ρ) (addr : Addr) (firstPacket : Bytes) (input : Input) : Prop :=
  ∀ p outbound, prepareMatchMetadata env store { m with preMatch := true } = some p →
    AnswerAlike env flooded firstPacket rules p (.start env store m input) →
    (preMatch env outbounds flooded store rules m firstPacket).Through outbound →
      Routes env outbounds store rules m input outbound
        ((preMatch env outbounds flooded store rules m firstPacket).sentTo (addr, m.destination.port))

/-- The tag of the outbound that a walk of the fast path asks for. -/
def PreFlow.tag : PreFlow κ ρ → String
  | .select (.route tag _) _ => tag
  | .select (.bypass tag _) _ => tag
  | _ => ""

def PreFlow.selected : PreFlow κ ρ → Option (Action κ)
  | .select action _ => some action
  | _ => none

/-- What `preMatchFlow` says of a flow. -/
structure FlowsTo (env : Env κ ρ) (outbounds : Outbounds) (m : Metadata κ ρ) (packetDestination : Socksaddr)
    (tag : String) (r : PreMatchResult) (outbound : Outbound) : Prop where
  chain : ∃ first chain, (if tag = "" then some outbounds.default else outbounds.lookup tag) = some first ∧
    resolveOutbound m.network first = .ok chain ∧ chain.getLast? = some outbound
  domain : m.destination.host.isDomain env = true →
    ∃ addr ∈ m.destinationAddresses, r.destination = some (addr, m.destination.port)
  other : m.destination.host.isDomain env = false →
    r.destination = if m.destination ≠ packetDestination then m.destination.addrPort? else none

theorem FlowAnswer.action_ne {answer : FlowAnswer} (h : answer ≠ .flow) :
    ¬(answer.action = .flow ∨ answer.action = .bypass) := by
  cases answer <;> simp_all [FlowAnswer.action]

theorem flowTo_through {outbound' : Outbound} {flow : Network → Option Addr → FlowAnswer}
    (h : (flowTo env outbound flow m packetDestination).Through outbound') :
    outbound = outbound' ∧
      (m.destination.host.isDomain env = true → ∃ addr ∈ m.destinationAddresses,
        (flowTo env outbound flow m packetDestination).destination = some (addr, m.destination.port)) ∧
      (m.destination.host.isDomain env = false → (flowTo env outbound flow m packetDestination).destination =
        if m.destination ≠ packetDestination then m.destination.addrPort? else none) := by
  generalize hr : flowTo env outbound flow m packetDestination = r at h ⊢
  obtain ⟨haction, houtbound⟩ := h
  unfold flowTo at hr
  split_ifs at hr with hflow hdomain hfake hsame
  · subst hr
    exact absurd haction (FlowAnswer.action_ne hflow)
  · subst hr
    cases houtbound
  · split at hr
    · subst hr
      cases houtbound
    next addr hfind =>
      split_ifs at hr with hagain
      · subst hr
        exact absurd haction (FlowAnswer.action_ne hagain)
      · subst hr
        refine ⟨Option.some.inj houtbound, fun _ => ⟨addr, List.mem_of_find?_eq_some hfind, rfl⟩, fun hno => ?_⟩
        exact absurd (hno.symm.trans hdomain) Bool.false_ne_true
  · subst hr
    exact ⟨Option.some.inj houtbound, fun hyes => absurd hyes hdomain, fun _ => (if_pos hsame).symm⟩
  · subst hr
    exact ⟨Option.some.inj houtbound, fun hyes => absurd hyes hdomain, fun _ => (if_neg hsame).symm⟩

theorem preMatchFlow_through {tag : String}
    (h : (preMatchFlow env outbounds m packetDestination tag).Through outbound) :
    FlowsTo env outbounds m packetDestination tag (preMatchFlow env outbounds m packetDestination tag) outbound := by
  have hnot : ∀ action, ¬(PreMatchResult.of action).Through outbound := by
    rintro action ⟨_, hnone⟩
    cases hnone
  cases hfirst : (if tag = "" then some outbounds.default else outbounds.lookup tag) with
  | none =>
    rw [preMatchFlow, hfirst] at h
    exact absurd h (hnot _)
  | some first =>
    cases hlast : (resolveOutbound m.network first).toOption.bind List.getLast? with
    | none =>
      simp only [preMatchFlow, hfirst, hlast] at h
      exact absurd h (hnot _)
    | some last =>
      cases hflow : last.preMatchFlow? with
      | none =>
        simp only [preMatchFlow, hfirst, hlast, hflow] at h
        exact absurd h (hnot _)
      | some flow =>
        have hresult : preMatchFlow env outbounds m packetDestination tag =
            flowTo env last flow m packetDestination := by
          simp only [preMatchFlow, hfirst, hlast, hflow]
        rw [hresult] at h ⊢
        obtain ⟨rfl, hdomain, hother⟩ := flowTo_through h
        refine ⟨⟨first, ?_⟩, hdomain, hother⟩
        cases hchain : resolveOutbound m.network first with
        | error e =>
          rw [hchain] at hlast
          cases hlast
        | ok chain =>
          rw [hchain] at hlast
          exact ⟨chain, hfirst, rfl, hlast⟩

theorem preMatchBypass_through {tag : String}
    (h : (preMatchBypass env outbounds m packetDestination tag).Through outbound) :
    tag ≠ "" ∧ FlowsTo env outbounds m packetDestination tag (preMatchBypass env outbounds m packetDestination tag)
      outbound := by
  generalize hr : preMatchBypass env outbounds m packetDestination tag = r at h ⊢
  simp only [preMatchBypass] at hr
  split_ifs at hr with htag hchanged hchanged hflow
  all_goals subst hr
  · cases h.2
  · cases h.2
  · exact ⟨htag, preMatchFlow_through h⟩
  · cases h.2
  · have hthrough : (preMatchFlow env outbounds m packetDestination tag).Through outbound :=
      ⟨.inl (not_not.mp hflow), h.2⟩
    obtain ⟨hchain, hdomain, hother⟩ := preMatchFlow_through hthrough
    exact ⟨htag, hchain, hdomain, hother⟩

/-- The walk of the fast path itself finds no outbound. -/
theorem preMatchAction_done {action : Action κ} {result : PreMatchResult}
    (h : preMatchAction env flooded firstPacket action p = .done result) : result.outbound = none := by
  cases action with
  | route | routeOptions | bypass => cases h
  | reject method noDrop =>
    cases method <;> cases h <;> rfl
  | hijackDNS =>
    cases h
    rfl
  | sniff sniff =>
    simp only [preMatchAction, preMatchSniff] at h
    split_ifs at h <;> cases h <;> rfl
  | resolve resolve =>
    simp only [preMatchAction] at h
    split at h <;> cases h
    rfl

theorem preMatchWalk_done {result : PreMatchResult} (h : preMatchWalk env flooded firstPacket rules p = .done result) :
    result.outbound = none := by
  induction rules generalizing p with
  | nil => cases h
  | cons rule rules ih =>
    rw [preMatchWalk] at h
    cases hrule : preMatchRule env flooded firstPacket rule p with
    | next p' =>
      rw [hrule] at h
      exact ih h
    | select action p' =>
      rw [hrule] at h
      cases h
    | done result' =>
      rw [hrule] at h
      cases h
      unfold preMatchRule at hrule
      split_ifs at hrule
      exact preMatchAction_done hrule

/-- The outbound of a rule that the walk of the fast path has selected. -/
def Action.outbound? : Action κ → Option String
  | .route tag _ => some tag
  | .bypass tag _ => some tag
  | _ => none

/-- A flow through an outbound, and where the walk has ended. -/
theorem PreFlow.through {flow : PreFlow κ ρ} (hdone : ∀ result, flow = .done result → result.outbound = none)
    (h : (flow.result env outbounds packetDestination).Through outbound) :
    ∃ m, FlowsTo env outbounds m packetDestination flow.tag (flow.result env outbounds packetDestination) outbound ∧
      (flow = .next m ∨ ∃ action, flow = .select action m ∧ action.passedOver = false ∧
        action.outbound? = some flow.tag) := by
  cases flow with
  | next m => exact ⟨m, preMatchFlow_through h, .inl rfl⟩
  | done result =>
    have hnone := hdone result rfl
    cases hnone.symm.trans h.2
  | select action m =>
    cases action with
    | route tag options => exact ⟨m, preMatchFlow_through h, .inr ⟨_, rfl, rfl, rfl⟩⟩
    | bypass tag options =>
      obtain ⟨htag, hflows⟩ := preMatchBypass_through h
      exact ⟨m, hflows, .inr ⟨_, rfl, decide_eq_false htag, rfl⟩⟩
    | _ => cases h.2

/-! ## Full routing at the end of the walk -/

include h hmatches hanswers in
/-- Full routing selects the rule that the fast path has selected, with the same destination. -/
theorem Shadow.matched (outbounds : Outbounds)
    (hend : preMatchWalk env flooded firstPacket rules p = .next p' ∨
      ∃ action, preMatchWalk env flooded firstPacket rules p = .select action p' ∧ action.passedOver = false ∧
        action.outbound? = some (preMatchWalk env flooded firstPacket rules p).tag) :
    ∃ s', (Route.walk env rules s).matched.metadata = s'.metadata ∧ Shadow firstPacket network p' s' ∧
      (Route.walk env rules s).matched.chain outbounds network =
        (selectedOutbound outbounds (preMatchWalk env flooded firstPacket rules p).selected).bind
          (resolveOutbound network) := by
  obtain ⟨hnext, hselect⟩ := h.walk hmatches hanswers
  rcases hend with hp | ⟨action, hp, hover, htag⟩
  · obtain ⟨s', hs', h'⟩ := hnext p' hp
    refine ⟨s', ?_, h', ?_⟩
    · simp [hs', Flow.matched, h'.missing]
    · simp [hs', hp, Flow.matched, h'.missing, Matched.chain, PreFlow.selected]
  · obtain ⟨s', hs', h'⟩ := hselect action p' hp hover
    refine ⟨s', ?_, h', ?_⟩
    · simp [hs', Flow.matched, h'.missing]
    · cases action with
      | route | bypass => simp [hs', hp, Flow.matched, h'.missing, Matched.chain, PreFlow.selected]
      | _ => cases htag

theorem setReverseMapping_preMatch (m : Metadata κ ρ) :
    setReverseMapping env { m with preMatch := true } = { setReverseMapping env m with preMatch := true } := by
  unfold setReverseMapping
  cases m.destination.host <;> split_ifs <;> rfl

theorem setIPVersion_preMatch (m : Metadata κ ρ) :
    setIPVersion { m with preMatch := true } = { setIPVersion m with preMatch := true } := by
  unfold setIPVersion
  cases m.destination.host <;> rfl

theorem prepareMatchMetadata_preMatch (store : FakeIPStore) (m : Metadata κ ρ) :
    prepareMatchMetadata env store { m with preMatch := true } =
      (prepareMatchMetadata env store m).map fun m => { m with preMatch := true } := by
  simp only [prepareMatchMetadata, setReverseMapping_preMatch, setIPVersion_preMatch]
  cases m.destination.host with
  | unspecified | name => rfl
  | ip addr =>
    simp only
    split_ifs
    · cases store.lookup addr with
      | none => rfl
      | some domain =>
        simp only [Option.map_some]
        split_ifs
        · rw [setIPVersion_preMatch]
        · rfl
    · rfl

/-- What is found out about a connection before the walk. -/
theorem prepareMatchMetadata_kept {m' : Metadata κ ρ} (haddr : m.destination.host = .ip addr)
    (h : prepareMatchMetadata env store m = some m') :
    m'.network = m.network ∧ m'.sniffError = m.sniffError ∧ m'.destinationAddresses = m.destinationAddresses ∧
      (m'.destination.host = .ip addr ∨
        ∃ domain, store.lookup addr = some domain ∧ domain ≠ "" ∧ m'.destination.host = .name domain) := by
  have hversion : ∀ m : Metadata κ ρ, ∃ v, setIPVersion m = { m with ipVersion := v } := by
    intro m
    unfold setIPVersion
    split <;> exact ⟨_, rfl⟩
  have hreverse : ∃ d, setReverseMapping env m = { m with domain := d } := by
    unfold setReverseMapping
    rw [haddr]
    split_ifs <;> exact ⟨_, rfl⟩
  simp only [prepareMatchMetadata, haddr] at h
  split_ifs at h
  · split at h
    · cases h
    next domain hlookup =>
      cases h
      obtain ⟨v, hv⟩ := hversion (if domain = "" then m else setFakeIP m domain)
      rw [hv]
      split_ifs with hempty
      · exact ⟨rfl, rfl, rfl, .inl haddr⟩
      · exact ⟨rfl, rfl, rfl, .inr ⟨domain, hlookup, hempty, rfl⟩⟩
  · cases h
    obtain ⟨d, hd⟩ := hreverse
    obtain ⟨v, hv⟩ := hversion (setReverseMapping env m)
    rw [hv, hd]
    exact ⟨rfl, rfl, rfl, .inl haddr⟩

theorem TunConnection.shadow {input : Input} (h : TunConnection m addr firstPacket input)
    (hp : prepareMatchMetadata env store { m with preMatch := true } = some p) :
    Shadow firstPacket m.network p (.start env store m input) ∧ p.destinationAddresses = [] ∧
      ∀ name, p.destination.host = .name name → store.lookup addr = some name ∧ name ≠ "" := by
  rw [prepareMatchMetadata_preMatch] at hp
  cases hm : prepareMatchMetadata env store m with
  | none =>
    rw [hm] at hp
    cases hp
  | some m' =>
    rw [hm] at hp
    cases hp
    obtain ⟨hnetwork, hsniffError, haddresses, hhost⟩ := prepareMatchMetadata_kept h.destination hm
    have hstart : WalkState.start env store m input = ⟨m', false, .empty, input⟩ := by
      simp only [WalkState.start, hm]
    rw [hstart]
    refine ⟨⟨rfl, hnetwork, ?_, ?_, rfl, h.pending⟩, haddresses.trans h.addresses, fun name hname => ?_⟩
    · change needMoreData m'.sniffError = false
      rw [hsniffError, h.sniffError]
      rfl
    · rcases hhost with hhost | ⟨_, _, _, hhost⟩
      all_goals exact fun heq => Host.noConfusion (hhost.symm.trans heq)
    · rcases hhost with hhost | ⟨domain, hlookup, hne, hhost⟩
      · cases hhost.symm.trans hname
      · cases hhost.symm.trans hname
        exact ⟨hlookup, hne⟩

theorem FlowsTo.dials {f : Metadata κ ρ} {start : WalkState κ ρ} {tag : String} {r : PreMatchResult}
    (hflows : FlowsTo env outbounds p m.destination tag r outbound) (haddr : m.destination.host = .ip addr)
    (hshadow : Shadow firstPacket network p s) (hf : f = s.metadata)
    (hgiven : ∀ domain, p.destination.host = .name domain →
      env.isDomainName domain = true ∧ ∀ addr ∈ p.destinationAddresses, Gave env rules start domain addr) :
    Dials env rules start f (r.sentTo (addr, m.destination.port)) := by
  have hdestination : f.destination = p.destination := by
    rw [hf, hshadow.view.1]
  unfold Dials
  rw [hdestination]
  cases hhost : p.destination.host with
  | unspecified => exact absurd hhost hshadow.specified
  | ip addr' =>
    have hsent : r.sentTo (addr, m.destination.port) = (addr', p.destination.port) := by
      have hother := hflows.other (by rw [hhost]; rfl)
      rw [PreMatchResult.sentTo, hother]
      split_ifs with hsame
      · simp [Socksaddr.addrPort?, hhost, Host.addr]
      · have heq : p.destination = m.destination := not_not.mp hsame
        rw [heq, haddr] at hhost
        cases hhost
        rw [heq]
        rfl
    simp [hsent]
  | name domain =>
    obtain ⟨hname, hgave⟩ := hgiven domain hhost
    obtain ⟨a, ha, hsent⟩ := hflows.domain (by rw [hhost]; exact hname)
    rw [PreMatchResult.sentTo, hsent]
    exact ⟨rfl, hgave a ha⟩

/-- Two names, and an address for each. -/
def flowEnv : Env Unit Unit where
  isDomainName s := s = "a.example" || s = "b.example"
  isDomainName_empty := rfl
  lookupReverseMapping _ := none
  hasTransport _ := true
  lookup _ domain _ := .ok (if domain = "a.example" then [.v4 1] else [.v4 2])
  defaultStreamSniffers := []
  defaultPacketSniffers := []
  quicClientHello := fun _ _ _ => (⟨none, none, none, none⟩, none)

def flowAddr : Addr := .v4 0xC6120009

/-- The FakeIP address stands for the first name. -/
def flowStore : FakeIPStore where
  contains addr := addr = flowAddr
  lookup addr := if addr = flowAddr then some "a.example" else none

def bridge : Outbound := .plain "bridge" [.tcp, .udp, .icmp] (some fun _ _ => .flow)

def bridgeOrDirect : Outbounds where
  lookup tag := if tag = "bridge" then some bridge else none
  default := .plain "direct" [.tcp, .udp] none
  defaultOutbound := .plain "direct" [.tcp, .udp] none

def tunMetadata : Metadata Unit Unit := .new .udp ⟨.ip flowAddr, 443⟩ ()

def tunInput : Input := .packets [.packet [0] ⟨.ip flowAddr, 443⟩]

theorem tun_connection : TunConnection tunMetadata flowAddr [0] tunInput where
  destination := rfl
  addresses := rfl
  sniffError := rfl
  pending := .inl ⟨rfl, _, _, rfl⟩

def resolveRule : Rule Unit Unit := ⟨fun _ => true, .resolve ⟨"", 0, 0, false, false, none, none⟩⟩

/-- A rule that sends what it matches through the bridge, to `address` if that is one. -/
def bridgeRule (matches? : View Unit Unit → Bool) (address : Host) : Rule Unit Unit :=
  ⟨matches?, .route "bridge" ⟨address, 0, .zero⟩⟩

end SingBox.Route
