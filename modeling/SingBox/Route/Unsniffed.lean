import SingBox.Route.Match

/-!
# What sniffing does not see

Sniffers see what was sniffed before and the bytes of a connection. What they do commutes with every change of the
rest, such as where the connection goes.
-/
namespace SingBox.Route

open Lib.Strings

variable {κ ρ : Type}

/-- A change of the metadata that a sniff action neither sees nor undoes. -/
structure Unsniffed (change : Metadata κ ρ → Metadata κ ρ) : Prop where
  client : ∀ m, (change m).client = m.client
  sniffContext : ∀ m, (change m).sniffContext = m.sniffContext
  apply : ∀ (w : SniffWrites κ) m, w.apply (change m) = change (w.apply m)
  port : ∀ m, (change m).destination.port = m.destination.port
  protocol : ∀ m, (change m).protocol = m.protocol
  snifferNames : ∀ m, (change m).snifferNames = m.snifferNames
  sniffError : ∀ m, (change m).sniffError = m.sniffError
  record : ∀ m names e, { change m with snifferNames := names, sniffError := e } =
    change { m with snifferNames := names, sniffError := e }

def Peeked.map (change : Metadata κ ρ → Metadata κ ρ) (p : Peeked κ ρ) : Peeked κ ρ :=
  { p with metadata := change p.metadata }

@[simp] theorem Peeked.map_error (change : Metadata κ ρ → Metadata κ ρ) (p : Peeked κ ρ) :
    (p.map change).error = p.error := rfl

def SniffOutcome.map (change : Metadata κ ρ → Metadata κ ρ) (o : SniffOutcome κ ρ) : SniffOutcome κ ρ :=
  { o with peeked := o.peeked.map change }

section
variable {change : Metadata κ ρ → Metadata κ ρ} (h : Unsniffed change)
include h

theorem runSniffers_map (data : Bytes) (sniffers : List (Sniffer κ)) (p : Peeked κ ρ) :
    runSniffers data sniffers (p.map change) = (runSniffers data sniffers p).map change := by
  induction sniffers generalizing p with
  | nil => rfl
  | cons sniffer sniffers ih =>
    simp only [runSniffers, Peeked.map, h.client, h.sniffContext, h.apply]
    rcases sniffer p.metadata.client p.metadata.sniffContext data with ⟨w, _ | e⟩
    · rfl
    · exact ih ⟨w.apply p.metadata, w.domain.or p.found, some (SniffError.append p.error e)⟩

theorem record_map (action : SniffAction κ) (p : Peeked κ ρ) :
    Route.record action (p.map change) = (Route.record action p).map change :=
  congrArg (fun m => ({ p with metadata := m } : Peeked κ ρ)) (h.record p.metadata action.snifferNames p.error)

theorem peekStream_map (sniffers : List (Sniffer κ)) (earlier : Bytes) (reads : List StreamRead) (buffer : Bytes)
    (p : Peeked κ ρ) : peekStream sniffers earlier reads buffer (p.map change) =
      ((peekStream sniffers earlier reads buffer p).1.map change, (peekStream sniffers earlier reads buffer p).2) := by
  induction reads generalizing buffer p with
  | nil => rfl
  | cons read reads ih =>
    cases read with
    | fail | noDeadline => rfl
    | piece bytes =>
      have hrun := runSniffers_map h (earlier ++ (buffer ++ bytes)) sniffers { p with error := none }
      have hmap : ({ p.map change with error := none } : Peeked κ ρ) = Peeked.map change { p with error := none } := rfl
      simp only [peekStream, hmap, hrun, Peeked.map_error]
      split_ifs
      · exact ih _ _
      · rfl

variable (env : Env κ ρ) (action : SniffAction κ)

theorem peekPacket_map (p : Peeked κ ρ) (bytes : Bytes) :
    peekPacket env action (p.map change) bytes = (peekPacket env action p bytes).map change := by
  have hmap : ({ p.map change with error := none } : Peeked κ ρ) = Peeked.map change { p with error := none } := rfl
  have hnames : (p.map change).metadata.snifferNames = p.metadata.snifferNames := h.snifferNames p.metadata
  have herror : (p.map change).metadata.sniffError = p.metadata.sniffError := h.sniffError p.metadata
  simp only [peekPacket, hnames, herror, hmap, runSniffers_map h, record_map h]

theorem peekHeld_map (held : List Bytes) (p : Peeked κ ρ) :
    peekHeld env action held (p.map change) =
      ((peekHeld env action held p).1, (peekHeld env action held p).2.map change) := by
  induction held generalizing p with
  | nil => rfl
  | cons bytes held ih =>
    simp only [peekHeld, peekPacket_map h, Peeked.map_error]
    split_ifs
    · exact ih _
    · rfl

theorem readPackets_map (count : Nat) (reads : List PacketRead) (new : List (Bytes × Socksaddr)) (p : Peeked κ ρ) :
    readPackets env action count reads new (p.map change) = (readPackets env action count reads new p).map change := by
  have hmany : ∀ m e, ({ change m with sniffError := e } : Metadata κ ρ) = change { m with sniffError := e } := by
    intro m e
    rw [← h.record m m.snifferNames e, ← h.snifferNames]
  induction reads generalizing new p with
  | nil =>
    unfold readPackets
    split_ifs
    · simp [Peeked.map, SniffOutcome.map, Peeked.failed, hmany]
    · rfl
  | cons read reads ih =>
    unfold readPackets
    split_ifs with hcount
    · simp [Peeked.map, SniffOutcome.map, Peeked.failed, hmany]
    cases read with
    | timeout | fail | cancel => rfl
    | packet bytes destination =>
      simp only [peekPacket_map h, Peeked.map_error]
      split_ifs
      · exact ih _ _
      · rfl

theorem sniffAhead_map (m : Metadata κ ρ) (earlier : Bytes) (held : List Bytes) (input : Input) :
    sniffAhead env action (change m) earlier held input = (sniffAhead env action m earlier held input).map change := by
  have hstart : (⟨change m, none, none⟩ : Peeked κ ρ) = Peeked.map change ⟨m, none, none⟩ := rfl
  have hbefore : sniffedBefore action (change m) = sniffedBefore action m := by
    simp only [sniffedBefore, h.snifferNames, h.sniffError]
  cases input with
  | stream reads =>
    simp only [sniffAhead, h.port, h.protocol, hbefore]
    split_ifs with hskip hno
    · rfl
    · rfl
    · simp only [sniffStream, hstart, peekStream_map h, record_map h]
      rfl
  | packets reads =>
    simp only [sniffAhead, h.port, h.protocol, hbefore]
    split_ifs with hskip hno
    · rfl
    · rfl
    · simp only [sniffPackets, hstart, peekHeld_map h]
      rcases peekHeld env action held ⟨m, none, none⟩ with ⟨_ | _, p⟩
      · exact readPackets_map h env action held.length reads [] p
      · rfl

end

/-! ## The name that was found -/

/-- The domain is the name that was found, or what it was before. -/
def Peeked.Tracks (m : Metadata κ ρ) (p : Peeked κ ρ) : Prop := p.metadata.domain = p.found.getD m.domain

variable {m : Metadata κ ρ} {p : Peeked κ ρ}

theorem runSniffers_tracks (data : Bytes) (sniffers : List (Sniffer κ)) (h : p.Tracks m) :
    (runSniffers data sniffers p).Tracks m := by
  induction sniffers generalizing p with
  | nil => exact h
  | cons sniffer sniffers ih =>
    have hwrite : ∀ (w : SniffWrites κ) e, Peeked.Tracks m ⟨w.apply p.metadata, w.domain.or p.found, e⟩ := by
      intro w e
      unfold Peeked.Tracks at h ⊢
      cases hd : w.domain <;> simp [SniffWrites.apply, hd, h]
    simp only [runSniffers]
    rcases sniffer p.metadata.client p.metadata.sniffContext data with ⟨w, _ | e⟩
    · exact hwrite w none
    · exact ih (hwrite w _)

theorem peekStream_tracks (sniffers : List (Sniffer κ)) (earlier : Bytes) (reads : List StreamRead) (buffer : Bytes)
    (h : p.Tracks m) :
    (peekStream sniffers earlier reads buffer p).1.Tracks m := by
  induction reads generalizing buffer p with
  | nil => exact h
  | cons read reads ih =>
    cases read with
    | fail | noDeadline => exact h
    | piece bytes =>
      have hrun := runSniffers_tracks (p := { p with error := none }) (earlier ++ (buffer ++ bytes)) sniffers h
      simp only [peekStream]
      split_ifs
      · exact ih _ hrun
      · exact hrun

variable (env : Env κ ρ)

section
variable (action : SniffAction κ)
include action

theorem peekPacket_tracks (bytes : Bytes) (h : p.Tracks m) :
    (peekPacket env action p bytes).Tracks m :=
  runSniffers_tracks (p := { p with error := none }) bytes _ h

theorem peekHeld_tracks (held : List Bytes) (h : p.Tracks m) :
    (peekHeld env action held p).2.Tracks m := by
  induction held generalizing p with
  | nil => exact h
  | cons bytes held ih =>
    have hpeek := peekPacket_tracks env action bytes h
    simp only [peekHeld]
    split_ifs
    · exact ih hpeek
    · exact hpeek

theorem readPackets_tracks (count : Nat) (reads : List PacketRead) (new : List (Bytes × Socksaddr)) (h : p.Tracks m) :
    (readPackets env action count reads new p).peeked.Tracks m := by
  induction reads generalizing new p with
  | nil =>
    unfold readPackets
    split_ifs <;> exact h
  | cons read reads ih =>
    unfold readPackets
    split_ifs
    · exact h
    cases read with
    | timeout | fail | cancel => exact h
    | packet bytes destination =>
      have hpeek := peekPacket_tracks env action bytes h
      dsimp only
      split_ifs
      · exact ih _ hpeek
      · exact hpeek

theorem sniffAhead_tracks (m : Metadata κ ρ) (earlier : Bytes) (held : List Bytes) (input : Input) :
    (sniffAhead env action m earlier held input).peeked.Tracks m := by
  have hstart : Peeked.Tracks m ⟨m, none, none⟩ := rfl
  cases input with
  | stream reads =>
    simp only [sniffAhead]
    split_ifs
    · rfl
    · rfl
    · exact peekStream_tracks _ earlier reads [] hstart
  | packets reads =>
    simp only [sniffAhead]
    split_ifs
    · rfl
    · rfl
    have hheld := peekHeld_tracks env action held hstart
    simp only [sniffPackets]
    rcases hp : peekHeld env action held ⟨m, none, none⟩ with ⟨_ | _, p⟩
    · rw [hp] at hheld
      exact readPackets_tracks env action held.length reads [] hheld
    · rw [hp] at hheld
      exact hheld

end

/-! ## Addresses -/

variable {m' : Metadata κ ρ} {a : ResolveAction}

theorem actionResolve_eq_ok : actionResolve env m a = .ok m' ↔
    (∃ fqdn addresses, m.destination.host = .name fqdn ∧ env.isDomainName fqdn = true ∧
      ¬(a.server ≠ "" ∧ env.hasTransport a.server = false) ∧ env.lookup m.toView fqdn a = .ok addresses ∧
        m' = { m with destinationAddresses := addresses }) ∨
    (m.destination.host.isDomain env = false ∧ m' = m) := by
  cases hhost : m.destination.host with
  | name fqdn =>
    cases hname : env.isDomainName fqdn with
    | false => simp [actionResolve, hhost, hname, Host.isDomain, @eq_comm _ m']
    | true =>
      by_cases hserver : a.server ≠ "" ∧ env.hasTransport a.server = false
      · simp [actionResolve, hhost, hname, Host.isDomain, hserver]
      · cases hlookup : env.lookup m.toView fqdn a with
        | error e => simp [actionResolve, hhost, hname, Host.isDomain, hserver, hlookup]
        | ok addresses => simp [actionResolve, hhost, hname, Host.isDomain, hserver, hlookup, @eq_comm _ m']
  | ip | unspecified => simp [actionResolve, hhost, Host.isDomain, @eq_comm _ m']

end SingBox.Route
