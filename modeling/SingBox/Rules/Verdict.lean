import SingBox.Lib.Verdict
import SingBox.Rules.Match

/-!
# What a match reports

`Match` answers with a truth value and leaves the groups it could not decide in
the cache. Read together, the two are a verdict, and the flags that the rules
pass on through the cache never reach another rule's verdict.
-/
namespace SingBox.Rules

open SingBox.Lib List Verdict

variable {α κ : Type}

/-- The groups left open: only the destination address ever is. -/
def opened (b : Bool) : MatchState := if b then destinationAddress else 0#8

theorem opened_ne (b : Bool) : (opened b != 0#8) = b := by cases b <;> decide

theorem opened_eq (b : Bool) : (opened b == 0#8) = !b := by cases b <;> decide

theorem opened_or (a b : Bool) : opened a ||| opened b = opened (a || b) := by cases a <;> cases b <;> decide

theorem opened_clear (b a₁ a₂ a₃ a₄ : Bool) : opened b &&& ~~~mask a₁ a₂ a₃ a₄ = opened (b && !a₃) := by
  revert b a₁ a₂ a₃ a₄
  decide

theorem opened_clear_groups (b : Bool) (g : Groups) :
    opened b &&& ~~~g.toMatch.satisfied = opened (b && !g.destinationAddress.any id) :=
  opened_clear ..

/-- The answer and the groups left open, if it is positive, amount to `v`. -/
structure Reports (v : Verdict) (f : Flags) (result : Bool × Cache) : Prop where
  matched : result.1 = decide (v ≠ .no)
  flags : result.2.toFlags = f
  deferred : v ≠ .no → result.2.deferredIPCIDRMatchGroups = opened (decide (v = .maybe))

/-- From a cache with nothing left open and such flags, `run` comes to the verdict for the flags it finds. -/
def TellsIf (P : Flags → Prop) (run : Run) (verdict : Flags → Verdict) : Prop :=
  ∀ c : Cache, c.deferredIPCIDRMatchGroups = 0#8 → P c.toFlags → Reports (verdict c.toFlags) c.toFlags (run c)

/-- Outside of a reference for domains only it does. -/
abbrev Tells : Run → (Flags → Verdict) → Prop := TellsIf fun f => f.ruleSetDomainOnly = false

variable {P : Flags → Prop}

theorem Reports.cases {v : Verdict} {f : Flags} {result : Bool × Cache} (h : Reports v f result) :
    (v = .no ∧ result.1 = false) ∨ (v = .maybe ∧ result.1 = true ∧
      result.2.deferredIPCIDRMatchGroups = opened true) ∨
      (v = .yes ∧ result.1 = true ∧ result.2.deferredIPCIDRMatchGroups = opened false) := by
  have h₁ := h.matched
  have h₂ := h.deferred
  cases v <;> simp_all

theorem matchDefault_tells (empty invert : Bool) {inner : Run} {v : Flags → Verdict} (h : TellsIf P inner v) :
    TellsIf P (matchDefault empty invert inner) fun f => if empty then .yes else (v f).notIf invert := by
  intro c hd ho
  have hi := h c hd ho
  unfold matchDefault
  cases empty with
  | true => exact ⟨rfl, rfl, fun _ => hd⟩
  | false =>
    dsimp only
    obtain ⟨hv, hm⟩ | ⟨hv, hm, hdef⟩ | ⟨hv, hm, hdef⟩ := hi.cases <;> rw [hv, hm] <;> cases invert
    · exact ⟨rfl, hi.flags, fun h => absurd rfl h⟩
    · exact ⟨rfl, hi.flags, fun _ => rfl⟩
    · exact ⟨rfl, hi.flags, fun _ => hdef⟩
    · refine ⟨?_, hi.flags, fun _ => hdef⟩
      simp [hdef, opened_ne, notIf, Verdict.not]
    · exact ⟨rfl, hi.flags, fun _ => hdef⟩
    · refine ⟨?_, hi.flags, fun h => absurd rfl h⟩
      simp [hdef, opened_ne, notIf, Verdict.not]

/-- What a loop over rules comes to. -/
structure Outcome (v : Verdict) (result : Bool × MatchState × Cache) : Prop where
  matched : result.1 = decide (v ≠ .no)
  deferred : v ≠ .no → result.2.1 = opened (decide (v = .maybe))

/-- The switches the rules of a logical rule are matched under. -/
def Flags.reset (f : Flags) : Flags := { f with ipCIDRMatchSource := false, ipCIDRAcceptEmpty := false }

section
variable {β : Type} {run : β → Run} {verdict : β → Flags → Verdict} {l : List β}

variable {c : Cache} {f : Flags}

theorem TellsIf.next {r : Run} {v : Flags → Verdict} (h : TellsIf P r v) (hd : c.deferredIPCIDRMatchGroups = 0#8)
    (hc : P c.toFlags) (hf : c.toFlags = f) : Reports (v f) f (r c) ∧ P (r c).2.toFlags := by
  subst hf
  have hr := h c hd hc
  exact ⟨hr, hr.flags ▸ hc⟩

/-- The verdict so far goes into the one of the loop. -/
theorem matchEvery_tells (h : ∀ x ∈ l, TellsIf P (run x) (verdict x)) (hreset : ∀ f, P f → P f.reset) (acc : Verdict)
    (hacc : acc ≠ .no) (hc : P c.toFlags) (hf : c.toFlags.reset = f) :
    Outcome (acc.and (Verdict.all (l.map fun x => verdict x f)))
      (matchEvery (l.map run) (opened (decide (acc = .maybe))) c) := by
  induction l generalizing acc c with
  | nil => cases acc <;> first | exact absurd rfl hacc | exact ⟨rfl, fun _ => rfl⟩
  | cons x l ih =>
    obtain ⟨hx, hc'⟩ := (h x mem_cons_self).next (c := c.resetRuleCache) rfl (hreset _ hc) hf
    have hnext : (run x c.resetRuleCache).2.toFlags.reset = f := by
      rw [hx.flags, ← hf]
      rfl
    simp only [map_cons, matchEvery, Verdict.all_cons]
    rcases hres : run x c.resetRuleCache with ⟨ok, c'⟩
    rw [hres] at hx hnext hc'
    have ih' := fun hacc => ih (fun y hy => h y (mem_cons_of_mem x hy)) (acc.and (verdict x f))
      hacc hc' hnext
    rw [Verdict.and_assoc] at ih'
    obtain ⟨hv, hm⟩ | ⟨hv, hm, hdef⟩ | ⟨hv, hm, hdef⟩ := hx.cases <;> simp only at hm <;> subst hm
    · rw [hv]
      cases acc <;> exact ⟨rfl, fun h => absurd rfl h⟩
    all_goals
      simp only at hdef
      rw [hv] at ih' ⊢
      simp only [hdef, opened_or]
      cases acc <;> first | exact absurd rfl hacc | exact ih' (by decide)

/-- The loop may go on behind a rule that holds only in a reference for domains only. -/
theorem matchSome_tells (h : ∀ x ∈ l, TellsIf P (run x) (verdict x)) (reset : Cache → Cache) (g : Flags → Flags)
    (hd : ∀ c, (reset c).deferredIPCIDRMatchGroups = 0#8) (hg : ∀ c, (reset c).toFlags = g c.toFlags)
    (hgg : ∀ f, g (g f) = g f) (hreset : ∀ f, P f → P (g f)) (acc : Verdict) (hc : P c.toFlags) (hf : g c.toFlags = f)
    (hsure : acc ≠ .yes ∧ f.ruleSetDomainOnly = false ∨ acc ≠ .maybe ∧ ∀ x ∈ l, verdict x f ≠ .maybe) :
    Outcome (acc.or (Verdict.any (l.map fun x => verdict x f)))
      (matchSome reset (l.map run) (decide (acc ≠ .no)) (opened (decide (acc = .maybe))) c) := by
  induction l generalizing acc c with
  | nil => cases acc <;> exact ⟨rfl, fun _ => rfl⟩
  | cons x l ih =>
    obtain ⟨hx, hc'⟩ := (h x mem_cons_self).next (hd c) (hg c ▸ hreset _ hc) ((hg c).trans hf)
    have hnext : g (run x (reset c)).2.toFlags = f := by rw [hx.flags, ← hf, hgg]
    simp only [map_cons, matchSome, Verdict.any_cons]
    rcases hres : run x (reset c) with ⟨ok, c'⟩
    rw [hres] at hx hnext hc'
    have ih' := ih (fun y hy => h y (mem_cons_of_mem x hy)) (acc.or (verdict x f)) hc' hnext
    rw [Verdict.or_assoc] at ih'
    rw [forall_mem_cons] at hsure
    obtain ⟨hv, hm⟩ | ⟨hv, hm, hdef⟩ | ⟨hv, hm, hdef⟩ := hx.cases <;> simp only at hm <;> subst hm
    · rw [hv] at ih' ⊢
      cases acc <;> exact ih' (hsure.imp_right (And.imp_right And.right))
    · simp only at hdef
      rw [hv] at ih' hsure ⊢
      obtain ⟨hacc, honly⟩ := hsure.resolve_right fun hsure => hsure.2.1 rfl
      simp only [hdef, opened_eq, opened_or, Bool.not_true, Bool.false_and, Bool.false_eq_true, if_false]
      cases acc <;> first | exact absurd rfl hacc | exact ih' (.inl ⟨by decide, honly⟩)
    · simp only at hdef
      rw [hv] at ih' ⊢
      simp only [hdef, opened_eq, opened_or, Bool.not_false, Bool.true_and]
      split
      · cases acc <;> exact ⟨rfl, fun _ => rfl⟩
      next hopen =>
        have honly : f.ruleSetDomainOnly ≠ false := by
          intro honly
          rw [← hx.flags] at honly
          simp [show c'.ruleSetDomainOnly = false from honly] at hopen
        obtain ⟨hacc, -, hrest⟩ := hsure.resolve_left fun hsure => honly hsure.2
        cases acc <;> first | exact absurd rfl hacc | exact ih' (.inr ⟨by decide, hrest⟩)

/-- How a logical rule combines the verdicts of its rules. -/
def LogicalMode.combine : LogicalMode → List Verdict → Verdict
  | .and => Verdict.all
  | .or => Verdict.any

theorem matchLogical_tells (h : ∀ x ∈ l, TellsIf P (run x) (verdict x)) (hreset : ∀ f, P f → P f.reset)
    (hsure : ∀ f, P f → f.ruleSetDomainOnly = false ∨ ∀ x ∈ l, verdict x f ≠ .maybe) (mode : LogicalMode)
    (invert : Bool) :
    TellsIf P (matchLogical mode invert (l.map run))
      fun f => (mode.combine (l.map fun x => verdict x f.reset)).notIf invert := by
  intro c hd hc
  have hout : Outcome (mode.combine (l.map fun x => verdict x c.toFlags.reset))
      (mode.loop (l.map run) c) := by
    cases mode with
    | and =>
      have hall := matchEvery_tells h hreset .yes nofun hc rfl
      rw [yes_and] at hall
      exact hall
    | or =>
      have hany := matchSome_tells h Cache.resetRuleCache Flags.reset (fun _ => rfl) (fun _ => rfl)
        (fun _ => rfl) hreset .no hc rfl ((hsure _ (hreset _ hc)).imp (⟨nofun, ·⟩) (⟨nofun, ·⟩))
      rw [no_or] at hany
      exact hany
  unfold matchLogical
  beta_reduce
  generalize mode.loop (l.map run) c = result at hout
  generalize mode.combine (l.map fun x => verdict x c.toFlags.reset) = v at hout
  obtain ⟨matched, deferred, c'⟩ := result
  obtain ⟨hm, hdef⟩ := hout
  simp only at hm hdef
  subst hm
  have hzero : c.deferredIPCIDRMatchGroups = opened false := hd
  cases v with
  | no =>
    cases invert with
    | false => exact ⟨rfl, rfl, fun h => absurd rfl h⟩
    | true => exact ⟨rfl, rfl, fun _ => hd⟩
  | maybe =>
    have hor : c.deferredIPCIDRMatchGroups ||| deferred = opened true := by rw [hzero, hdef nofun, opened_or]; rfl
    cases invert with
    | false => exact ⟨rfl, rfl, fun _ => hor⟩
    | true => exact ⟨by simp [hdef nofun, opened_ne, notIf, Verdict.not], rfl, fun _ => hor⟩
  | yes =>
    have hor : c.deferredIPCIDRMatchGroups ||| deferred = opened false := by rw [hzero, hdef nofun, opened_or]; rfl
    cases invert with
    | false => exact ⟨rfl, rfl, fun _ => hor⟩
    | true => exact ⟨by simp [hdef nofun, opened_ne, notIf, Verdict.not], rfl, fun h => absurd rfl h⟩

end

namespace Default

variable (r : Default α κ) (m : Metadata α κ)

/-- The verdict on a default rule before inversion, from the one on its groups. -/
def innerVerdict (onGroups : Flags → Groups → Verdict) (f : Flags) : Verdict :=
  if r.matchItems m then
    (onGroups f (r.groups m f)).settleIf ((r.groups m f).destinationAddress.any id)
  else .no

theorem matchInner_tells {matchWithOuterGroups : Option (GroupMatch → Run)} {v : Flags → Groups → Verdict}
    (h : ∀ c : Cache, c.deferredIPCIDRMatchGroups = opened (r.defers c.toFlags) → P c.toFlags →
      Reports (v c.toFlags (r.groups m c.toFlags)) c.toFlags
        (matchWithOuterGroups.getD (fun groups c => (groups.done, c)) (r.groups m c.toFlags).toMatch c)) :
    TellsIf P (r.matchInner m matchWithOuterGroups) (r.innerVerdict m v) := by
  intro c hd hc
  have hmatch : r.matchInner m matchWithOuterGroups =
      r.matchInner m (some (matchWithOuterGroups.getD fun groups c => (groups.done, c))) := by
    cases matchWithOuterGroups <;> rfl
  rw [hmatch, matchInner, evaluateGroups_eq, innerVerdict]
  have hopen : (if r.defers c.toFlags then c.deferredIPCIDRMatchGroups ||| destinationAddress
      else c.deferredIPCIDRMatchGroups) = opened (r.defers c.toFlags) := by
    rw [hd]
    cases r.defers c.toFlags <;> rfl
  rw [hopen]
  cases r.matchItems m with
  | false => exact ⟨rfl, rfl, fun h => absurd rfl h⟩
  | true =>
    -- the cache behind `evaluateGroups`
    have hr := h ⟨c.toFlags, opened (r.defers c.toFlags),
      c.ruleSetDomainMatched || matchAnyItem m r.destinationAddressItems⟩ rfl hc
    dsimp only at hr ⊢
    simp only [Bool.not_true, Bool.false_eq_true, if_false, if_true]
    generalize matchWithOuterGroups.getD _ _ _ = result at hr ⊢
    obtain ⟨matched, c'⟩ := result
    obtain ⟨hv, hm⟩ | ⟨hv, hm, hdef⟩ | ⟨hv, hm, hdef⟩ := hr.cases <;> simp only at hm <;> subst hm <;> rw [hv]
    · refine ⟨?_, hr.flags, fun h => absurd ?_ h⟩ <;> simp [settleIf]
    · simp only at hdef
      refine ⟨?_, hr.flags, fun _ => ?_⟩
      · cases (r.groups m c.toFlags).destinationAddress.any id <;> rfl
      · simp only [if_true, hdef, opened_clear_groups]
        cases (r.groups m c.toFlags).destinationAddress.any id <;> rfl
    · simp only at hdef
      refine ⟨?_, hr.flags, fun _ => ?_⟩
      · simp [settleIf]
      · simp [settleIf, hdef, opened_clear_groups]

end Default
end SingBox.Rules
