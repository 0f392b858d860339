import SingBox.Route.Sniff

/-!
# The walk over the rules

`matchRule` takes the rules in their order. A rule that matches changes the metadata, reads ahead of the
connection, or is selected and ends the walk.
-/
namespace SingBox.Route

open Lib.Strings

inductive RejectMethod where
  | default
  | drop
  | reply
  deriving DecidableEq

inductive Action (κ : Type) where
  | route (outbound : String) (options : RouteOptions)
  | routeOptions (options : RouteOptions)
  | bypass (outbound : String) (options : RouteOptions)
  | reject (method : RejectMethod) (noDrop : Bool)
  | hijackDNS
  | sniff (action : SniffAction κ)
  | resolve (action : ResolveAction)

structure Rule (κ ρ : Type) where
  matches? : View κ ρ → Bool
  action : Action κ

/-- A buffer that sniffing has filled, by the order in which they were. -/
structure Buffer where
  id : Nat
  bytes : Bytes
  deriving DecidableEq

structure PacketBuffer extends Buffer where
  destination : Socksaddr
  deriving DecidableEq

/-- The buffers that sniffing has filled: those that are held, how many there were, and those that were
released. -/
structure Held where
  buffers : List Buffer
  packetBuffers : List PacketBuffer
  filled : Nat
  released : List Nat
  deriving DecidableEq

def Held.empty : Held := ⟨[], [], 0, []⟩

/-- `buf.ReleaseMulti` and `N.ReleaseMultiPacketBuffer` on all that is held. -/
def Held.release (h : Held) : Held :=
  { h with
    buffers := []
    packetBuffers := []
    released := h.released ++ h.buffers.map Buffer.id ++ h.packetBuffers.map fun b => b.id }

/-- Packets in buffers of their own, numbered from `first` on. -/
def bufferPackets (first : Nat) (packets : List (Bytes × Socksaddr)) : List PacketBuffer :=
  packets.zipIdx.map fun p => ⟨⟨first + p.2, p.1.1⟩, p.1.2⟩

variable {κ ρ : Type}

/-- What a sniff action has read is held, except for a packet that nobody waits for any more. -/
def Held.add (h : Held) (outcome : SniffOutcome κ ρ) : Held :=
  if outcome.newBytes ≠ [] then
    { h with buffers := h.buffers ++ [⟨h.filled, outcome.newBytes⟩], filled := h.filled + 1 }
  else
    { h with
      packetBuffers := h.packetBuffers ++ bufferPackets h.filled outcome.newPackets
      filled := h.filled + outcome.newPackets.length + if outcome.lost.isSome then 1 else 0 }

/-- The variables of `matchRule`. -/
structure WalkState (κ ρ : Type) where
  metadata : Metadata κ ρ
  missingFakeIP : Bool
  held : Held
  input : Input

/-- How a rule leaves the walk: at the next rule, with a rule selected, or failed. -/
inductive Flow (κ ρ : Type) where
  | next (s : WalkState κ ρ)
  | select (action : Action κ) (s : WalkState κ ρ)
  | fail (error : String) (s : WalkState κ ρ)

def Flow.andThen (flow : Flow κ ρ) (k : WalkState κ ρ → Flow κ ρ) : Flow κ ρ :=
  match flow with
  | .next s => k s
  | .select action s => .select action s
  | .fail e s => .fail e s

@[simp] theorem Flow.next_andThen (s : WalkState κ ρ) (k : WalkState κ ρ → Flow κ ρ) :
    (Flow.next s).andThen k = k s := rfl

@[simp] theorem Flow.select_andThen (action : Action κ) (s : WalkState κ ρ) (k : WalkState κ ρ → Flow κ ρ) :
    (Flow.select action s).andThen k = .select action s := rfl

@[simp] theorem Flow.fail_andThen (e : String) (s : WalkState κ ρ) (k : WalkState κ ρ → Flow κ ρ) :
    (Flow.fail e s).andThen k = .fail e s := rfl

variable (env : Env κ ρ)

/-- A sniffed name stands for the record that is missing. -/
def repairFakeIP (s : WalkState κ ρ) : WalkState κ ρ :=
  if s.missingFakeIP = true ∧ env.isDomainName s.metadata.domain = true then
    { s with missingFakeIP := false, metadata := setFakeIP s.metadata s.metadata.domain }
  else s

/-- The sniff action of a rule, without the repair. -/
def sniffRule (action : SniffAction κ) (s : WalkState κ ρ) : SniffOutcome κ ρ :=
  actionSniff env action s.metadata (s.held.buffers.flatMap Buffer.bytes)
    (s.held.packetBuffers.map fun b => b.bytes) s.input

/-- The action of a rule that matches. -/
def applyAction (action : Action κ) (s : WalkState κ ρ) : Flow κ ρ :=
  match action with
  | .route _ options => .select action { s with metadata := applyRouteOptions env s.metadata options }
  | .routeOptions options => .next { s with metadata := applyRouteOptions env s.metadata options }
  | .bypass outbound options =>
    if outbound = "" then .next s
    else .select action { s with metadata := applyRouteOptions env s.metadata options }
  | .reject _ _ => .select action s
  | .hijackDNS => .select action s
  | .sniff sniff =>
    let outcome := sniffRule env sniff s
    let s := { s with metadata := outcome.peeked.metadata, held := s.held.add outcome, input := outcome.input }
    match outcome.fatal with
    | some e => .fail e s
    | none => .next (repairFakeIP env s)
  | .resolve resolve =>
    match actionResolve env s.metadata resolve with
    | .error e => .fail e s
    | .ok metadata => .next { s with metadata := metadata }

def applyRule (rule : Rule κ ρ) (s : WalkState κ ρ) : Flow κ ρ :=
  if rule.matches? s.metadata.toView then applyAction env rule.action s else .next s

/-- The loop of `matchRule`. -/
def walk : List (Rule κ ρ) → WalkState κ ρ → Flow κ ρ
  | [], s => .next s
  | rule :: rules, s => (applyRule env rule s).andThen (walk rules)

/-- What `matchRule` returns, with the metadata it has written and the connection it has read from. -/
structure Matched (κ ρ : Type) where
  selected : Option (Action κ)
  error : Option String
  metadata : Metadata κ ρ
  held : Held
  input : Input

def missingFakeIPRecord : String := "missing fakeip record"

/-- The end of `matchRule`: a connection to a FakeIP address without a record and without a name is refused. -/
def Flow.matched : Flow κ ρ → Matched κ ρ
  | .fail e s => ⟨none, some e, s.metadata, s.held, s.input⟩
  | .next s =>
    if s.missingFakeIP then ⟨none, some missingFakeIPRecord, s.metadata, s.held.release, s.input⟩
    else ⟨none, none, s.metadata, s.held, s.input⟩
  | .select action s =>
    if s.missingFakeIP then ⟨none, some missingFakeIPRecord, s.metadata, s.held.release, s.input⟩
    else ⟨some action, none, s.metadata, s.held, s.input⟩

/-- The start of `matchRule`. -/
def WalkState.start (store : FakeIPStore) (m : Metadata κ ρ) (input : Input) : WalkState κ ρ :=
  match prepareMatchMetadata env store m with
  | none => ⟨m, true, .empty, input⟩
  | some m => ⟨m, false, .empty, input⟩

def matchRule (store : FakeIPStore) (rules : List (Rule κ ρ)) (m : Metadata κ ρ) (input : Input) : Matched κ ρ :=
  (walk env rules (.start env store m input)).matched

/-- The sniff of a rule, before the sniffed name replaces the destination. -/
def WalkState.ahead (action : SniffAction κ) (s : WalkState κ ρ) : SniffOutcome κ ρ :=
  sniffAhead env action s.metadata (s.held.buffers.flatMap Buffer.bytes) (s.held.packetBuffers.map fun b => b.bytes)
    s.input

/-- The walk behind a sniff action, before the missing record is looked at. -/
def WalkState.sniffed (action : SniffAction κ) (s : WalkState κ ρ) : WalkState κ ρ :=
  { s with
    metadata := overrideSniffed env action (s.ahead env action).peeked
    held := s.held.add (s.ahead env action)
    input := (s.ahead env action).input }

/-- Where the walk is when it has not failed. -/
def Flow.state? : Flow κ ρ → Option (WalkState κ ρ)
  | .next s => some s
  | .select _ s => some s
  | .fail _ _ => none

/-- Where the walk is, also when it has failed. -/
def Flow.state : Flow κ ρ → WalkState κ ρ
  | .next s => s
  | .select _ s => s
  | .fail _ s => s

variable {env}

variable {action : SniffAction κ} {s : WalkState κ ρ}

theorem applyAction_sniff_none (h : (s.ahead env action).fatal = none) :
    applyAction env (.sniff action) s = .next (repairFakeIP env (s.sniffed env action)) := by
  have hfatal : (sniffRule env action s).fatal = none := h
  simp only [applyAction, hfatal]
  rfl

theorem applyAction_sniff_some {e : String} (h : (s.ahead env action).fatal = some e) :
    applyAction env (.sniff action) s = .fail e (s.sniffed env action) := by
  have hfatal : (sniffRule env action s).fatal = some e := h
  simp only [applyAction, hfatal]
  rfl

theorem applyAction_sniff {s' : WalkState κ ρ} :
    applyAction env (.sniff action) s = .next s' ↔
      (s.ahead env action).fatal = none ∧ s' = repairFakeIP env (s.sniffed env action) := by
  cases h : (s.ahead env action).fatal with
  | none => simp [applyAction_sniff_none h, eq_comm]
  | some e => simp [applyAction_sniff_some h]

/-- Only a sniff rule reads, or repairs a missing record. -/
theorem applyRule_cases (env : Env κ ρ) (rule : Rule κ ρ) (s : WalkState κ ρ) :
    (∃ a, (rule.matches? s.metadata.toView = true ∧ rule.action = .sniff a) ∧
      applyRule env rule s = applyAction env (.sniff a) s) ∨
    (∀ a, ¬(rule.matches? s.metadata.toView = true ∧ rule.action = .sniff a)) ∧
      ∃ m, (applyRule env rule s).state = { s with metadata := m } := by
  unfold applyRule
  split_ifs with hmatch
  · cases rule.action with
    | sniff a => exact .inl ⟨a, ⟨hmatch, rfl⟩, rfl⟩
    | bypass outbound options =>
      refine .inr ⟨nofun, ?_⟩
      simp only [applyAction]
      split_ifs <;> exact ⟨_, rfl⟩
    | resolve resolve =>
      refine .inr ⟨nofun, ?_⟩
      simp only [applyAction]
      split <;> exact ⟨_, rfl⟩
    | _ => exact .inr ⟨nofun, _, rfl⟩
  · exact .inr ⟨fun a h => hmatch h.1, _, rfl⟩

end SingBox.Route
