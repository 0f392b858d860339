import SingBox.Lib.Fold

/-!
# The selection of a URL test group

`selectOutbound` goes over the members and moves to one that is faster than its choice by more than the
tolerance, beginning with the current selection. A delay of 0 stands for no choice yet. Whatever the order of
the members, no choice it ends with is slower than any member by more than the tolerance.
-/
namespace SingBox.Group

open Lib

inductive Net where
  | tcp
  | udp
  deriving DecidableEq

/-- `URLTestGroup`. `supports` is what `Network` contains, and `history` the delay stored for the real tag. -/
structure URLTestGroup (μ : Type) where
  outbounds : List μ
  supports : μ → Net → Bool
  history : μ → Net → Option UInt16
  tag : μ → String
  tolerance : UInt16
  selectedOutboundTCP : Option μ
  selectedOutboundUDP : Option μ

namespace URLTestGroup

variable {μ : Type} (g : URLTestGroup μ) (network : Net)

def selected : Net → Option μ
  | .tcp => g.selectedOutboundTCP
  | .udp => g.selectedOutboundUDP

def select (outbound : Option μ) : URLTestGroup μ :=
  match network with
  | .tcp => { g with selectedOutboundTCP := outbound }
  | .udp => { g with selectedOutboundUDP := outbound }

/-- What the loop begins with: `minOutbound` and `minDelay`. -/
def current : Option μ × UInt16 :=
  match g.selected network with
  | none => (none, 0)
  | some outbound =>
    match g.history outbound network with
    | none => (none, 0)
    | some delay => (some outbound, delay)

def compare (best : Option μ × UInt16) (detour : μ) : Option μ × UInt16 :=
  if g.supports detour network then
    match g.history detour network with
    | none => best
    | some delay =>
      if best.2 = 0 ∨ best.2.toNat > delay.toNat + g.tolerance.toNat then (some detour, delay) else best
  else best

def selectOutbound : Option μ × Bool :=
  match (g.outbounds.foldl (g.compare network) (g.current network)).1 with
  | none => (g.outbounds.find? fun detour => g.supports detour network, false)
  | some minOutbound => (some minOutbound, true)

section
variable [DecidableEq μ]

/-- One network of `performUpdateCheck`: the group, and what becomes of `updated` and `selected`. -/
def updateCheck : URLTestGroup μ × Bool × Bool :=
  match g.selectOutbound network with
  | (none, _) => (g, false, false)
  | (some outbound, found) =>
    if g.selected network = none ∨ found = true ∧ g.selected network ≠ some outbound then
      (g.select network (some outbound), (g.selected network).any fun old => g.tag old != g.tag outbound, true)
    else (g, false, false)

def performUpdateCheck : URLTestGroup μ × Bool × Bool :=
  let (g, updated, selected) := g.updateCheck .tcp
  let (g, updated', selected') := g.updateCheck .udp
  (g, updated || updated', selected || selected')

end

variable {g network}

/-- The delays of a list of members for a network. -/
def Delayed (g : URLTestGroup μ) (network : Net) (members : List μ) (delay : UInt16) : Prop :=
  ∃ m ∈ members, g.supports m network = true ∧ g.history m network = some delay

/-- No member with the delay takes the place of the choice. -/
def Near (g : URLTestGroup μ) (best : Option μ × UInt16) (delay : UInt16) : Prop :=
  best.2 ≠ 0 ∧ best.2.toNat ≤ delay.toNat + g.tolerance.toNat

/-- The choice of the loop when it has seen some of the members. -/
structure Choosing (g : URLTestGroup μ) (network : Net) (best : Option μ × UInt16) (seen : List μ) : Prop where
  none_iff : best.1 = none ↔ best.2 = 0
  chosen : ∀ m, best.1 = some m → g.history m network = some best.2 ∧ (m ∈ seen ∨ g.selected network = some m)
  near : ∀ delay, Delayed g network seen delay → g.Near best delay
  moved : best = g.current network ∨ (g.current network).2 = 0 ∨ best.2.toNat ≤ (g.current network).2.toNat ∧
    ∃ delay, Delayed g network seen delay ∧ delay.toNat + g.tolerance.toNat < (g.current network).2.toNat

variable {best : Option μ × UInt16} {seen : List μ} {detour : μ} {delay : UInt16}

theorem delayed_append : Delayed g network (seen ++ [detour]) delay ↔
    Delayed g network seen delay ∨ g.supports detour network = true ∧ g.history detour network = some delay := by
  simp [Delayed, or_and_right, exists_or]

/-- A member that does not take the place of the choice. -/
theorem Choosing.stay (h : Choosing g network best seen)
    (hnear : ∀ delay, g.supports detour network = true ∧ g.history detour network = some delay → g.Near best delay) :
    Choosing g network best (seen ++ [detour]) := by
  refine ⟨h.none_iff, fun m hm => ?_, fun delay hdelayed => ?_, ?_⟩
  · exact ⟨(h.chosen m hm).1, (h.chosen m hm).2.imp_left (List.mem_append_left _)⟩
  · exact (delayed_append.mp hdelayed).elim (h.near delay) (hnear delay)
  · exact h.moved.imp_right (Or.imp_right fun ⟨hle, delay, hdelayed, hlt⟩ =>
      ⟨hle, delay, delayed_append.mpr (.inl hdelayed), hlt⟩)

theorem Choosing.move (h : Choosing g network best seen) (hne : delay ≠ 0)
    (hdetour : g.supports detour network = true ∧ g.history detour network = some delay)
    (hfaster : best.2 = 0 ∨ best.2.toNat > delay.toNat + g.tolerance.toNat) :
    Choosing g network (some detour, delay) (seen ++ [detour]) := by
  refine ⟨by simpa using hne, ?_, fun delay' hdelayed => ⟨hne, ?_⟩, .inr ?_⟩
  · rintro m ⟨⟩
    exact ⟨hdetour.2, .inl (by simp)⟩
  · dsimp only
    rcases delayed_append.mp hdelayed with hdelayed | ⟨_, hsame⟩
    · obtain ⟨hzero, hle⟩ := h.near delay' hdelayed
      have := hfaster.resolve_left hzero
      omega
    · cases hdetour.2.symm.trans hsame
      omega
  · have hdelayed : Delayed g network (seen ++ [detour]) delay := delayed_append.mpr (.inr hdetour)
    rcases hfaster with hzero | hfaster
    · -- without a choice nothing has been moved
      rcases h.moved with rfl | hcurrent | ⟨_, delay', hdelayed', _⟩
      · exact .inl hzero
      · exact .inl hcurrent
      · exact absurd hzero (h.near delay' hdelayed').1
    · rcases h.moved with rfl | hcurrent | ⟨hle, _⟩
      · exact .inr ⟨by dsimp only; omega, delay, hdelayed, hfaster⟩
      · exact .inl hcurrent
      · exact .inr ⟨by dsimp only; omega, delay, hdelayed, by omega⟩

theorem compare_cases (g : URLTestGroup μ) (network : Net) (best : Option μ × UInt16) (detour : μ) :
    (g.compare network best detour = best ∧
      ∀ delay, g.supports detour network = true ∧ g.history detour network = some delay → g.Near best delay) ∨
    ∃ delay, g.compare network best detour = (some detour, delay) ∧
      (g.supports detour network = true ∧ g.history detour network = some delay) ∧
      (best.2 = 0 ∨ best.2.toNat > delay.toNat + g.tolerance.toNat) := by
  unfold compare
  cases hsupports : g.supports detour network with
  | false => exact .inl ⟨rfl, by simp⟩
  | true =>
    cases hhistory : g.history detour network with
    | none => exact .inl ⟨rfl, by simp⟩
    | some delay =>
      rw [if_pos rfl]
      dsimp only
      split_ifs with hfaster
      · exact .inr ⟨delay, rfl, ⟨rfl, rfl⟩, hfaster⟩
      · refine .inl ⟨rfl, fun delay' hdelay => ?_⟩
        cases hdelay.2
        rw [not_or] at hfaster
        exact ⟨hfaster.1, Nat.le_of_not_lt hfaster.2⟩

variable (g network) in
theorem current_cases :
    g.current network = (none, 0) ∧ (∀ s, g.selected network = some s → g.history s network = none) ∨
      ∃ s delay, g.selected network = some s ∧ g.history s network = some delay ∧
        g.current network = (some s, delay) := by
  unfold current
  cases g.selected network with
  | none => exact .inl ⟨rfl, nofun⟩
  | some s =>
    dsimp only
    cases hhistory : g.history s network with
    | none => exact .inl ⟨rfl, by simp [hhistory]⟩
    | some delay => exact .inr ⟨s, delay, rfl, hhistory, rfl⟩

theorem choosing (hdelay : ∀ m, g.history m network ≠ some 0) :
    Choosing g network (g.outbounds.foldl (g.compare network) (g.current network)) g.outbounds := by
  refine foldl_seen (Choosing g network) (fun best seen detour h => ?_) g.outbounds ?_
  · rcases compare_cases g network best detour with ⟨heq, hnear⟩ | ⟨delay, heq, hdetour, hfaster⟩
    · rw [heq]
      exact h.stay hnear
    · rw [heq]
      refine h.move ?_ hdetour hfaster
      rintro rfl
      exact hdelay _ hdetour.2
  · rcases current_cases g network with ⟨hcurrent, _⟩ | ⟨s, delay, hs, hhistory, hcurrent⟩
    · exact ⟨by simp [hcurrent], by simp [hcurrent], by simp [Delayed], .inl rfl⟩
    · refine ⟨?_, ?_, by simp [Delayed], .inl rfl⟩
      · rw [hcurrent]
        simp only [reduceCtorEq, false_iff]
        rintro rfl
        exact hdelay s hhistory
      · rw [hcurrent]
        rintro _ ⟨⟩
        exact ⟨hhistory, .inr hs⟩

theorem foldl_compare (h : ∀ delay, Delayed g network g.outbounds delay → g.Near best delay) :
    g.outbounds.foldl (g.compare network) best = best := by
  refine foldl_keep (· = best) (fun b detour hmem hb => ?_) rfl
  subst hb
  rcases compare_cases g network b detour with ⟨heq, _⟩ | ⟨delay, _, hdetour, hfaster⟩
  · exact heq
  · obtain ⟨hne, hle⟩ := h delay ⟨detour, hmem, hdetour⟩
    exact absurd (hfaster.resolve_left hne) (Nat.not_lt.mpr hle)

/-- The selection behind the check. -/
def reselected (g : URLTestGroup μ) (network : Net) : Option μ :=
  ((g.outbounds.foldl (g.compare network) (g.current network)).1.or (g.selected network)).or
    (g.outbounds.find? fun detour => g.supports detour network)

/-- Without a choice no member has a delay, nor has the selection. -/
theorem Choosing.none (h : Choosing g network best g.outbounds) (hdelay : ∀ m, g.history m network ≠ some 0)
    (hbest : best.1 = none) {m : μ} (hm : g.selected network = some m ∨ m ∈ g.outbounds ∧ g.supports m network = true) :
    g.history m network = none := by
  have hzero := h.none_iff.mp hbest
  have hnot : ∀ delay, ¬ Delayed g network g.outbounds delay := fun delay hdelayed => (h.near delay hdelayed).1 hzero
  rcases hm with hm | ⟨hmem, hsupports⟩
  · rcases current_cases g network with ⟨_, hnone⟩ | ⟨s, delay, _, hhistory, hcurrent⟩
    · exact hnone m hm
    rcases h.moved with heq | heq | ⟨_, delay', hdelayed, _⟩
    · rw [heq, hcurrent] at hbest
      cases hbest
    · rw [hcurrent] at heq
      exact absurd (heq ▸ hhistory) (hdelay s)
    · exact absurd hdelayed (hnot delay')
  · cases hhistory : g.history m network with
    | none => rfl
    | some delay => exact absurd ⟨m, hmem, hsupports, hhistory⟩ (hnot delay)

/-- A group with the new selection, and otherwise the same, keeps it. -/
theorem reselected_again (hdelay : ∀ m, g.history m network ≠ some 0) {g' : URLTestGroup μ}
    (houtbounds : g'.outbounds = g.outbounds) (hsupports : g'.supports = g.supports)
    (hcompare : g'.compare network = g.compare network) (hhistory : g'.history = g.history)
    (hs' : g'.selected network = g.reselected network) : g'.reselected network = g'.selected network := by
  have hch := choosing hdelay
  have hcurrent : g'.current network = g.outbounds.foldl (g.compare network) (g.current network) := by
    unfold reselected at hs'
    generalize g.outbounds.foldl (g.compare network) (g.current network) = best at hch hs'
    rw [current, hs']
    rcases hbest : best.1 with _ | m
    · rw [Option.none_or]
      have hzero : (none, 0) = best := Prod.ext hbest.symm (hch.none_iff.mp hbest).symm
      cases hm : (g.selected network).or (g.outbounds.find? fun detour => g.supports detour network) with
      | none => exact hzero
      | some m =>
        have hnone := hch.none hdelay hbest (m := m) <| (Option.or_eq_some_iff.mp hm).imp_right fun ⟨_, hfind⟩ =>
          ⟨List.mem_of_find?_eq_some hfind, List.find?_some (p := fun detour => g.supports detour network) hfind⟩
        dsimp only
        rw [hhistory, hnone]
        exact hzero
    · simp only [Option.some_or]
      rw [hhistory, (hch.chosen m hbest).1, ← hbest]
  rw [reselected, houtbounds, hsupports, hcompare, hcurrent, foldl_compare hch.near, hs', reselected]
  cases (g.outbounds.foldl (g.compare network) (g.current network)).1 <;> cases g.selected network <;> simp

theorem select_selected (g : URLTestGroup μ) (network : Net) : g.select network (g.selected network) = g := by
  cases network <;> rfl

variable [DecidableEq μ]

theorem updateCheck_eq (g : URLTestGroup μ) (network : Net) :
    (g.updateCheck network).1 = g.select network (g.reselected network) ∧
      (g.reselected network = g.selected network → g.updateCheck network = (g, false, false)) := by
  have hsame := g.select_selected network
  rw [updateCheck, selectOutbound, reselected]
  cases (g.outbounds.foldl (g.compare network) (g.current network)).1 with
  | none =>
    cases hs : g.selected network <;> cases g.outbounds.find? fun detour => g.supports detour network <;>
      simp_all
  | some m =>
    by_cases heq : g.selected network = some m
    · simp [heq ▸ hsame, heq]
    · simp [heq, Ne.symm heq]

theorem performUpdateCheck_eq (g : URLTestGroup μ) :
    g.performUpdateCheck.1 = (g.select .tcp (g.reselected .tcp)).select .udp (g.reselected .udp) ∧
      ((∀ network, g.reselected network = g.selected network) → g.performUpdateCheck = (g, false, false)) := by
  constructor
  · rw [performUpdateCheck]
    dsimp only
    rw [(updateCheck_eq g .tcp).1, (updateCheck_eq _ .udp).1]
    rfl
  · intro h
    rw [performUpdateCheck, (updateCheck_eq g .tcp).2 (h .tcp)]
    dsimp only
    rw [(updateCheck_eq g .udp).2 (h .udp)]
    rfl

variable (g) in
/-- Where the selection for a network is none or a member, the check selects a member no slower than another by more
than the tolerance. It leaves a selection only for a member faster by more than that, and has nothing to do a second
time. -/
theorem performUpdateCheck_near_optimal (hdelay : ∀ m network, g.history m network ≠ some 0) :
    (∀ network, ((∀ s, g.selected network = some s → s ∈ g.outbounds) →
        (∃ delay, Delayed g network g.outbounds delay) → ∃ m ∈ g.outbounds, ∃ delay,
          g.performUpdateCheck.1.selected network = some m ∧ g.history m network = some delay ∧
          ∀ delay', Delayed g network g.outbounds delay' → delay.toNat ≤ delay'.toNat + g.tolerance.toNat) ∧
      ∀ s, g.selected network = some s → g.performUpdateCheck.1.selected network ≠ some s →
        g.history s network = none ∨ ∃ delay delay', g.history s network = some delay ∧
          Delayed g network g.outbounds delay' ∧ delay'.toNat + g.tolerance.toNat < delay.toNat) ∧
    g.performUpdateCheck.1.performUpdateCheck = (g.performUpdateCheck.1, false, false) := by
  have hfst := (performUpdateCheck_eq g).1
  have hselected : ∀ network, g.performUpdateCheck.1.selected network = g.reselected network := by
    intro network
    rw [hfst]
    cases network <;> rfl
  refine ⟨fun network => ?_, (performUpdateCheck_eq _).2 fun network => ?_⟩
  · have hch := choosing (g := g) fun m => hdelay m network
    rw [hselected, reselected]
    generalize g.outbounds.foldl (g.compare network) (g.current network) = best at hch
    constructor
    · rintro hmember ⟨delay, hdelayed⟩
      cases hbest : best.1 with
      | none => exact absurd (hch.none_iff.mp hbest) (hch.near delay hdelayed).1
      | some m =>
        obtain ⟨hhistory, hm⟩ := hch.chosen m hbest
        exact ⟨m, hm.elim id (hmember m), best.2, rfl, hhistory, fun delay' hdelayed' => (hch.near delay' hdelayed').2⟩
    · intro s hs hne
      rcases current_cases g network with ⟨_, hnone⟩ | ⟨s', delay, hs', hhistory, hcurrent⟩
      · exact .inl (hnone s hs)
      cases hs.symm.trans hs'
      rcases hch.moved with rfl | hzero | ⟨_, delay', hdelayed, hlt⟩
      · simp [hcurrent] at hne
      · rw [hcurrent] at hzero
        exact absurd (hzero ▸ hhistory) (hdelay s network)
      · rw [hcurrent] at hlt
        exact .inr ⟨delay, delay', hhistory, hdelayed, hlt⟩
  · refine reselected_again (fun m => hdelay m network) ?_ ?_ ?_ ?_ (hselected network)
    all_goals
      rw [hfst]
      cases network <;> rfl

/-- Three members, the second of which is the fastest by less than the tolerance. -/
def threeMembers : URLTestGroup (Fin 3) where
  outbounds := [0, 1, 2]
  supports _ _ := true
  history m _ := [some 100, some 60, none][m]
  tag m := toString m
  tolerance := 50
  selectedOutboundTCP := some 0
  selectedOutboundUDP := none

theorem performUpdateCheck_near_optimal_three :
    (∃ m ∈ threeMembers.outbounds, ∃ delay, threeMembers.performUpdateCheck.1.selected .udp = some m ∧
      threeMembers.history m .udp = some delay ∧ ∀ delay', Delayed threeMembers .udp threeMembers.outbounds delay' →
        delay.toNat ≤ delay'.toNat + threeMembers.tolerance.toNat) ∧
    threeMembers.performUpdateCheck.1.selected .tcp = some 0 := by
  have hdelay : ∀ m network, threeMembers.history m network ≠ some 0 := by
    intro m network
    cases network <;> revert m <;> decide
  have hudp := ((performUpdateCheck_near_optimal threeMembers hdelay).1 .udp).1 nofun
  exact ⟨hudp ⟨60, 1, by decide, rfl, rfl⟩, by decide⟩

end URLTestGroup
end SingBox.Group
