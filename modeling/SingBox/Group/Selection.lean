import SingBox.Group.Fallback

/-!
# What a fallback group selects

Over every interleaving of rebuilds, pins and health checks the health table follows the members,
and the selection, the pin and the order of dialing follow the table. A verdict in the table was
measured on the instance behind the tag as long as no check shares a test of another instance.
-/
namespace SingBox.Group

open Lib List Function Fallback

namespace Fallback

variable {f : Fallback}

/-- The member that the group is there to choose. -/
def choice (f : Fallback) : Option Candidate :=
  (f.candidates.find? fun candidate => candidate.tag == f.fixed && f.usable candidate).or
    ((f.candidates.find? f.usable).or f.candidates.head?)

/-- The last health check found the member down. -/
def KnownDown (f : Fallback) (candidate : Candidate) : Prop :=
  ∃ state, f.health candidate.tag = some state ∧ state.checked = true ∧ state.alive = false

/-- The members are told apart by their tags, and the table holds exactly them. -/
structure Members (f : Fallback) : Prop where
  distinct : (f.candidates.map Candidate.tag).Nodup
  tagged : ∀ c ∈ f.candidates, c.tag ≠ ""
  table : ∀ tag o, (∃ state, f.health tag = some state ∧ state.outbound = o) ↔
    ∃ c ∈ f.candidates, c.tag = tag ∧ c.outbound = o

/-- Every verdict in the table was measured on the instance it stands for. -/
def Measured (f : Fallback) : Prop :=
  ∀ tag state, f.health tag = some state → state.checked = true → state.measured = some state.outbound

theorem knownDown_of_not_usable {c : Candidate} (h : f.usable c = false) : f.KnownDown c := by
  unfold usable at h
  cases hstate : f.health c.tag with
  | none =>
    rw [hstate] at h
    cases h
  | some state =>
    rw [hstate] at h
    simpa [KnownDown, hstate] using h

theorem selectAvailable_kept (f : Fallback) :
    f.selectAvailable.candidates = f.candidates ∧ f.selectAvailable.health = f.health := by
  unfold selectAvailable
  split
  · split
    · exact ⟨rfl, rfl⟩
    · split <;> exact ⟨rfl, rfl⟩
  · exact ⟨rfl, rfl⟩

@[simp] theorem selectAvailable_candidates (f : Fallback) : f.selectAvailable.candidates = f.candidates :=
  f.selectAvailable_kept.1

@[simp] theorem selectAvailable_health (f : Fallback) : f.selectAvailable.health = f.health :=
  f.selectAvailable_kept.2

@[simp] theorem selectAvailable_usable (f : Fallback) : f.selectAvailable.usable = f.usable := by
  funext c
  simp only [usable, selectAvailable_health]

theorem Members.selectAvailable (h : f.Members) : f.selectAvailable.Members :=
  ⟨by simpa using h.distinct, by simpa using h.tagged, by simpa using h.table⟩

/-- The selection is the choice for the pin as it is left. -/
theorem selectAvailable_selected (htag : ∀ c ∈ f.candidates, c.tag ≠ "") :
    f.selectAvailable.selected = (f.selectAvailable.choice.map Candidate.tag).getD "" := by
  have unpinned : ∀ g : Fallback, g.candidates = f.candidates → g.usable = f.usable →
      (∀ c ∈ f.candidates, c.tag = g.fixed → f.usable c = false) →
      f.firstAvailable = (g.choice.map Candidate.tag).getD "" := by
    intro g hc hu hno
    have hnone : g.candidates.find? (fun c => c.tag == g.fixed && g.usable c) = none := by
      rw [List.find?_eq_none, hc, hu]
      intro c hmem hboth
      rw [Bool.and_eq_true, beq_iff_eq] at hboth
      rw [hno c hmem hboth.1] at hboth
      cases hboth.2
    rw [choice, hnone, Option.none_or, hc, hu, firstAvailable]
  unfold selectAvailable
  split
  next candidate hfind =>
    have hfixed : f.fixed ≠ "" := by
      intro he
      rw [if_neg (not_not_intro he)] at hfind
      cases hfind
    rw [if_pos hfixed] at hfind
    split
    next husable =>
      obtain ⟨htag, before, after, heq, hbefore⟩ := List.find?_eq_some_iff_append.mp hfind
      have hchoice : f.candidates.find? (fun c => c.tag == f.fixed && f.usable c) = some candidate := by
        refine List.find?_eq_some_iff_append.mpr ⟨by rw [htag, husable]; rfl, before, after, heq, fun c hc => ?_⟩
        rw [Bool.not_and, hbefore c hc, Bool.true_or]
      have : ({ f with selected := candidate.tag } : Fallback).choice = some candidate := by
        show Option.or (f.candidates.find? fun c => c.tag == f.fixed && f.usable c) _ = _
        rw [hchoice, Option.some_or]
      rw [this]
      rfl
    next hdown =>
      split
      · exact unpinned { f with fixed := "", selected := f.firstAvailable } rfl rfl
          fun c hc he => absurd he (htag c hc)
      next hnone =>
        refine unpinned { f with selected := f.firstAvailable } rfl rfl fun c hc _ => ?_
        rw [any_eq_true, not_exists] at hnone
        exact Bool.eq_false_iff.mpr fun hu => hnone c ⟨hc, hu⟩
  next hfind =>
    refine unpinned { f with selected := f.firstAvailable } rfl rfl fun c hc he => ?_
    have hfixed : f.fixed ≠ "" := by
      intro hempty
      exact htag c hc (he.trans hempty)
    rw [if_pos hfixed, List.find?_eq_none] at hfind
    exact absurd (beq_iff_eq.mpr he) (hfind c hc)

/-- A pin is given up only for a member that works. -/
theorem selectAvailable_fixed (h : f.selectAvailable.fixed ≠ f.fixed) :
    f.selectAvailable.fixed = "" ∧ ∃ c ∈ f.candidates, c.tag = f.fixed ∧ f.KnownDown c ∧
      ∃ d ∈ f.candidates, d ≠ c ∧ f.usable d = true := by
  revert h
  unfold selectAvailable
  split
  next candidate hfind =>
    split
    · exact fun h => absurd rfl h
    next hdown =>
      split
      next hany =>
        intro h
        rw [if_pos (fun he => h he.symm)] at hfind
        obtain ⟨d, hd, husable⟩ := any_eq_true.mp hany
        refine ⟨rfl, candidate, mem_of_find?_eq_some hfind, by simpa using List.find?_some hfind,
          knownDown_of_not_usable (Bool.eq_false_iff.mpr hdown), d, hd, ?_, husable⟩
        rintro rfl
        exact hdown husable
      · exact fun h => absurd rfl h
  · exact fun h => absurd rfl h

theorem selected_eq_empty_iff (htag : ∀ c ∈ f.candidates, c.tag ≠ "")
    (h : f.selected = (f.choice.map Candidate.tag).getD "") : f.selected = "" ↔ f.candidates = [] := by
  rw [h]
  cases hc : f.choice with
  | none =>
    simp only [choice, Option.or_eq_none_iff, List.head?_eq_none_iff] at hc
    simpa using hc.2.2
  | some c =>
    have hmem : c ∈ f.candidates := by
      simp only [choice, Option.or_eq_some_iff] at hc
      rcases hc with hc | ⟨_, hc | ⟨_, hc⟩⟩
      · exact mem_of_find?_eq_some hc
      · exact mem_of_find?_eq_some hc
      · exact mem_of_head? hc
    simp only [Option.map_some, Option.getD_some, htag c hmem, false_iff]
    exact ne_nil_of_mem hmem

/-- When all members support a network, it is dialed through the choice first. -/
theorem head_candidatesForNetwork (htag : ∀ c ∈ f.candidates, c.tag ≠ "") {network : String}
    (hall : ∀ c ∈ f.candidates, network ∈ c.outbound.network) :
    (f.candidatesForNetwork network).head? = f.choice := by
  have hable : (f.candidates.filter fun c => network ∈ c.outbound.network) = f.candidates :=
    filter_eq_self.mpr fun c hc => decide_eq_true (hall c hc)
  have hpinned : (f.candidates.filter fun c => f.usable c && f.fixed != "" && c.tag == f.fixed) =
      f.candidates.filter fun c => c.tag == f.fixed && f.usable c := by
    refine filter_congr fun c hc => ?_
    rw [Bool.eq_iff_iff]
    simp only [Bool.and_eq_true, bne_iff_ne, beq_iff_eq]
    constructor
    · rintro ⟨⟨hu, _⟩, ht⟩
      exact ⟨ht, hu⟩
    · rintro ⟨ht, hu⟩
      exact ⟨⟨hu, ht ▸ htag c hc⟩, ht⟩
  simp only [candidatesForNetwork, hable, hpinned, choice, List.head?_append, List.head?_filter]
  cases hp : f.candidates.find? fun c => c.tag == f.fixed && f.usable c with
  | some c => simp
  | none =>
    -- no usable member is pinned, so the others are all usable members
    have hrest : (f.candidates.filter fun c => f.usable c && !(f.fixed != "" && c.tag == f.fixed)) =
        f.candidates.filter f.usable := by
      refine filter_congr fun c hc => ?_
      have hno := List.find?_eq_none.mp hp c hc
      cases hu : f.usable c with
      | false => rfl
      | true =>
        have hne : c.tag ≠ f.fixed := by simpa [hu] using hno
        simp [hne]
    rw [Option.none_or, Option.none_or, ← List.head?_filter, hrest, List.head?_filter]
    cases hu : f.candidates.find? f.usable with
    | some c => simp
    | none =>
      rw [Option.none_or, Option.none_or]
      cases hf : f.candidates with
      | nil => rfl
      | cons c rest =>
        have hdown : f.usable c = false := by
          rw [hf] at hu
          exact Bool.eq_false_iff.mpr (List.find?_eq_none.mp hu c mem_cons_self)
        simp [hdown]

end Fallback

/-- The instance behind the tag of a member, as the managers had it when members were collected. -/
def Environment.Behind (env : Environment) (c : Candidate) : Prop :=
  env.outbound c.tag = some c.outbound ∨ ∃ providerTag, c.outbound ∈ env.provider providerTag ∧ c.outbound.tag = c.tag

/-- What the loops of `rebuildCandidates` keep of the members found so far. -/
structure Environment.Collected (env : Environment) (candidates : List Candidate) : Prop where
  distinct : (candidates.map Candidate.tag).Nodup
  tagged : ∀ c ∈ candidates, c.tag ≠ ""
  behind : ∀ c ∈ candidates, env.Behind c

section
variable {env : Environment} {candidates : List Candidate}

section
variable (h : env.Collected candidates)
include h

theorem Environment.Collected.append {c : Candidate} (hnew : c.tag ∉ candidates.map Candidate.tag) (htag : c.tag ≠ "")
    (hc : env.Behind c) :
    env.Collected (candidates ++ [c]) := by
  refine ⟨?_, ?_, ?_⟩
  · rw [map_append, map_singleton, nodup_append]
    refine ⟨h.distinct, by simp, fun t ht t' ht' heq => hnew ?_⟩
    rw [mem_singleton] at ht'
    exact ht' ▸ heq ▸ ht
  · exact forall_mem_append.mpr ⟨h.tagged, forall_mem_singleton.mpr htag⟩
  · exact forall_mem_append.mpr ⟨h.behind, forall_mem_singleton.mpr hc⟩

variable {result : List Candidate}

theorem collected_outbounds {group : Nat} {tags : List String}
    (hr : collectOutbounds env group tags candidates = .ok result) :
    env.Collected result := by
  induction tags generalizing candidates with
  | nil =>
    cases hr
    exact h
  | cons tag tags ih =>
    unfold collectOutbounds at hr
    split at hr
    · exact ih h hr
    next hnew =>
      split at hr
      · cases hr
      next detour hdetour =>
        exact ih (h.append hnew (env.outbound_ne_empty tag detour hdetour) (.inl hdetour)) hr

theorem collected_provider (options : GroupOptions) (group : Nat) (providerTag : String) :
    env.Collected (collectProvider env options group providerTag candidates) := by
  refine foldl_keep env.Collected (fun candidates detour hd h => ?_) h
  split
  · exact h
  next hnew =>
    rw [Bool.or_eq_true, not_or, decide_eq_true_eq] at hnew
    exact h.append hnew.1 (env.provider_ne_empty providerTag detour hd) (.inr ⟨providerTag, hd, rfl⟩)

theorem collected_groups {groups : List (GroupOptions × Nat)} (hr : collectGroups env groups candidates = .ok result) :
    env.Collected result := by
  induction groups generalizing candidates with
  | nil =>
    cases hr
    exact h
  | cons group groups ih =>
    unfold collectGroups at hr
    split at hr
    · cases hr
    next found hfound =>
      refine ih ?_ hr
      exact foldl_keep env.Collected (fun _ providerTag _ h => collected_provider h group.1 group.2 providerTag)
        (collected_outbounds h hfound)

end

end

namespace Fallback

variable {f : Fallback}

theorem carriedHealth_outbound (f : Fallback) (c : Candidate) : (f.carriedHealth c).outbound = c.outbound := by
  unfold carriedHealth
  split
  · split
    next heq => exact heq
    · rfl
  · rfl

theorem Measured.carriedHealth (h : f.Measured) (c : Candidate) (hchecked : (f.carriedHealth c).checked = true) :
    (f.carriedHealth c).measured = some (f.carriedHealth c).outbound := by
  revert hchecked
  unfold Fallback.carriedHealth
  split
  next state hstate =>
    split
    · exact h c.tag state hstate
    · exact nofun
  · exact nofun

/-- A rebuild changes nothing or is the selection over a table of the members found. -/
theorem rebuildCandidates_cases (f : Fallback) (groups : List GroupOptions) (env : Environment) :
    f.rebuildCandidates groups env = f ∨ ∃ g : Fallback, f.rebuildCandidates groups env = g.selectAvailable ∧
      g.fixed = f.fixed ∧ g.Members ∧ (∀ c ∈ g.candidates, env.Behind c) ∧ (f.Measured → g.Measured) := by
  unfold rebuildCandidates
  cases hcollect : collectGroups env groups.zipIdx [] with
  | error err => exact .inl rfl
  | ok candidates =>
    have hc : env.Collected candidates := collected_groups ⟨by simp, by simp, by simp⟩ hcollect
    refine .inr ⟨_, rfl, rfl, ⟨hc.distinct, hc.tagged, fun tag o => ?_⟩, hc.behind, fun hm tag state hstate => ?_⟩
    · simp only [foldl_update_iff Candidate.tag f.carriedHealth hc.distinct]
      constructor
      · rintro ⟨state, ⟨c, hmem, htag, rfl⟩ | ⟨_, hnone⟩, ho⟩
        · exact ⟨c, hmem, htag, (f.carriedHealth_outbound c).symm.trans ho⟩
        · cases hnone
      · rintro ⟨c, hmem, htag, ho⟩
        exact ⟨_, .inl ⟨c, hmem, htag, rfl⟩, (f.carriedHealth_outbound c).trans ho⟩
    · rcases (foldl_update_iff Candidate.tag f.carriedHealth hc.distinct).mp hstate with ⟨c, _, _, rfl⟩ | ⟨_, hnone⟩
      · exact hm.carriedHealth c
      · cases hnone

/-- A result touches only the verdict of a member that still has the instance it was asked for. -/
theorem recordResult_cases (f : Fallback) (canceled : Bool) (c : Candidate) (failed : Bool)
    (measured : Option Instance) :
    f.recordResult canceled (c, failed, measured) = f ∨
      ∃ state, f.health c.tag = some state ∧ state.outbound = c.outbound ∧ (failed && canceled) = false ∧
        f.recordResult canceled (c, failed, measured) = { f with
          health := update f.health c.tag (some ⟨state.outbound, true, !failed, measured⟩) } := by
  unfold recordResult
  dsimp only
  split
  · exact .inl rfl
  next hkept =>
    split
    · exact .inl rfl
    next state hstate =>
      split
      · exact .inl rfl
      next hsame => exact .inr ⟨state, hstate, not_not.mp hsame, Bool.eq_false_iff.mpr hkept, rfl⟩

/-- The results of a check, whoever asked for it, leave the members and the pin alone. -/
theorem recordResults_kept (f : Fallback) (canceled : Bool) (results : List (Candidate × Bool × Option Instance)) :
    (results.foldl (fun f result => f.recordResult canceled result) f).candidates = f.candidates ∧
    (results.foldl (fun f result => f.recordResult canceled result) f).fixed = f.fixed := by
  refine foldl_keep (fun g : Fallback => g.candidates = f.candidates ∧ g.fixed = f.fixed) ?_ ⟨rfl, rfl⟩
  rintro g ⟨c, failed, measured⟩ - h
  rcases g.recordResult_cases canceled c failed measured with heq | ⟨_, _, _, _, heq⟩
  · rw [heq]
    exact h
  · rw [heq]
    exact h

theorem Members.recordResult (h : f.Members) (canceled : Bool) (result : Candidate × Bool × Option Instance) :
    (f.recordResult canceled result).Members := by
  obtain ⟨c, failed, measured⟩ := result
  rcases f.recordResult_cases canceled c failed measured with heq | ⟨state, hstate, _, _, heq⟩
  · rw [heq]
    exact h
  rw [heq]
  refine ⟨h.distinct, h.tagged, fun tag o => ?_⟩
  rw [← h.table]
  dsimp only
  by_cases htag : tag = c.tag
  · subst htag
    simp [hstate]
  · simp [update_of_ne htag]

theorem Measured.recordResult (h : f.Measured) {canceled : Bool} {c : Candidate} {failed : Bool}
    {measured : Option Instance}
    (hresult : measured = some c.outbound ∨ (failed = true ∧ canceled = true)) :
    (f.recordResult canceled (c, failed, measured)).Measured := by
  rcases f.recordResult_cases canceled c failed measured with heq | ⟨state, hstate, hout, hkept, heq⟩
  · rw [heq]
    exact h
  rw [heq]
  intro tag new hnew hchecked
  dsimp only at hnew
  by_cases htag : tag = c.tag
  · subst htag
    rw [update_self, Option.some.injEq] at hnew
    subst hnew
    rcases hresult with rfl | ⟨rfl, rfl⟩
    · exact congrArg some hout.symm
    · cases hkept
  · rw [update_of_ne htag] at hnew
    exact h tag new hnew hchecked

end Fallback

namespace State

variable {groups : List GroupOptions} {s s' : State} {l : Label}

/-- A check that consults the coordinator finds no test of another instance to share. -/
def SharesOwn (s : State) : Label → Prop
  | .probe call member fresh =>
    ∀ c ∈ s.calls[call]?, c.canceled = false → ∀ entry ∈ c.members[member]?,
      ∀ shared ∈ s.shared entry.1.outbound.memberTag c.maxAge fresh, shared.2.outbound = entry.1.outbound
  | _ => True

instance (s : State) (l : Label) : Decidable (s.SharesOwn l) :=
  match l with
  | .probe call member fresh =>
    inferInstanceAs (Decidable (∀ c ∈ s.calls[call]?, c.canceled = false → ∀ entry ∈ c.members[member]?,
      ∀ shared ∈ s.shared entry.1.outbound.memberTag c.maxAge fresh, shared.2.outbound = entry.1.outbound))
  | .rebuild _ | .select _ | .begin _ _ | .cancel _ | .foreign _ | .finish _ _ _ | .forget _ | .collect _ _
  | .giveUp _ _ | .apply _ => isTrue trivial

/-- The pin that is asked for: that of an accepted request, or the one there was. -/
def asked (s : State) : Label → String
  | .select tag => if (s.fallback.selectOutbound tag).2 then tag else s.fallback.fixed
  | _ => s.fallback.fixed

/-- What a step does to the pin and to the members. -/
structure Follows (s : State) (l : Label) (s' : State) : Prop where
  pin : s'.fallback.fixed ≠ s.asked l → s'.fallback.fixed = "" ∧
    ∃ c ∈ s'.fallback.candidates, c.tag = s.asked l ∧ s'.fallback.KnownDown c ∧
      ∃ d ∈ s'.fallback.candidates, d ≠ c ∧ s'.fallback.usable d = true
  members : s'.fallback.candidates = s.fallback.candidates ∨
    ∃ env, l = .rebuild env ∧ ∀ c ∈ s'.fallback.candidates, env.Behind c

/-- What a step makes of the group before it selects. -/
structure Remade (s : State) (l : Label) (g : Fallback) : Prop where
  asked : s.asked l = g.fixed
  members : s.fallback.Members → g.Members
  found : g.candidates = s.fallback.candidates ∨ ∃ env, l = .rebuild env ∧ ∀ c ∈ g.candidates, env.Behind c
  measured : (∀ c ∈ s.calls, ∀ result ∈ c.results,
    result.2.2 = some result.1.outbound ∨ (result.2.1 = true ∧ c.canceled = true)) → s.fallback.Measured → g.Measured

/-- A step leaves the group alone or ends in a selection. -/
theorem step_fallback (h : s.step groups l = some s') :
    (s'.fallback = s.fallback ∧ s.asked l = s.fallback.fixed) ∨
      ∃ g : Fallback, s'.fallback = g.selectAvailable ∧ s.Remade l g := by
  cases l with
  | rebuild env =>
    cases h
    rcases s.fallback.rebuildCandidates_cases groups env with hsame | ⟨g, hg, hfixed, hm, hbehind, hmeasured⟩
    · exact .inl ⟨hsame, rfl⟩
    · exact .inr ⟨g, hg, hfixed.symm, fun _ => hm, .inr ⟨env, rfl, hbehind⟩, fun _ => hmeasured⟩
  | select tag =>
    cases h
    simp only [asked, selectOutbound]
    split
    · exact .inl ⟨rfl, rfl⟩
    · split
      next hsame => exact .inl ⟨rfl, hsame.symm⟩
      next haccepted hnew =>
        refine .inr ⟨_, rfl, ?_, fun hm => ⟨hm.distinct, hm.tagged, hm.table⟩, .inl rfl, fun _ hm => hm⟩
        simp only [asked, selectOutbound, if_neg haccepted, if_neg hnew, if_true]
  | apply call =>
    simp only [step, apply] at h
    split at h
    · cases h
    next c hc =>
      split at h
      · cases h
      · cases h
        obtain ⟨hcandidates, hfixed⟩ := s.fallback.recordResults_kept c.canceled c.results
        refine .inr ⟨_, rfl, hfixed.symm, fun hm => ?_, .inl hcandidates, fun hown hm => ?_⟩
        · exact foldl_keep Fallback.Members (fun f result _ hf => hf.recordResult c.canceled result) hm
        · exact foldl_keep Fallback.Measured (fun f result hr hf =>
            hf.recordResult (hown c (mem_of_getElem? hc) result hr)) hm
  | _ =>
    refine .inl ⟨?_, rfl⟩
    simp only [step, probe, foreign, finish, forget, collect, giveUp, setProbe,
      startTest] at h
    grind

theorem step_follows (h : s.step groups l = some s') : Follows s l s' := by
  rcases step_fallback h with ⟨heq, hasked⟩ | ⟨g, heq, hg⟩
  · exact ⟨fun hne => absurd (by rw [heq, hasked]) hne, .inl (congrArg candidates heq)⟩
  refine ⟨fun hne => ?_, ?_⟩
  · rw [heq, hg.asked] at hne
    rw [heq, hg.asked]
    simpa [Fallback.KnownDown] using selectAvailable_fixed hne
  · rw [heq, selectAvailable_candidates]
    exact hg.found

/-- The table and the selection are in step. -/
structure Settled (s : State) : Prop where
  members : s.fallback.Members
  selected : s.fallback.selected = (s.fallback.choice.map Candidate.tag).getD ""

theorem Settled.step (h : s.Settled) (hs : s.step groups l = some s') : s'.Settled := by
  rcases step_fallback hs with ⟨heq, _⟩ | ⟨g, heq, hg⟩
  · exact ⟨heq ▸ h.members, by rw [heq]; exact h.selected⟩
  · have hm := hg.members h.members
    refine ⟨heq ▸ hm.selectAvailable, ?_⟩
    rw [heq]
    exact selectAvailable_selected hm.tagged

end State

/-- Tests are added and finished; the instance of a test does not change. -/
def TestsKept (tests tests' : List Test) : Prop :=
  ∀ (t : Nat) (test : Test), tests[t]? = some test →
    ∃ test' : Test, tests'[t]? = some test' ∧ test'.outbound = test.outbound

theorem TestsKept.refl (tests : List Test) : TestsKept tests tests := fun _ test h => ⟨test, h, rfl⟩

/-- A probe answers for the instance it was asked about, or is cut off. -/
def Probe.Own (tests : List Test) (canceled : Bool) (c : Candidate) : Probe → Prop
  | .idle => True
  | .running t | .joined t => ∃ test : Test, tests[t]? = some test ∧ test.outbound = c.outbound
  | .done failed measured => measured = some c.outbound ∨ (failed = true ∧ canceled = true)

theorem Probe.Own.mono {tests tests' : List Test} {canceled canceled' : Bool} {c : Candidate} {probe : Probe}
    (h : probe.Own tests canceled c) (htests : TestsKept tests tests')
    (hcanceled : canceled = true → canceled' = true) :
    probe.Own tests' canceled' c := by
  have hkept : ∀ t : Nat, (∃ test : Test, tests[t]? = some test ∧ test.outbound = c.outbound) →
      ∃ test : Test, tests'[t]? = some test ∧ test.outbound = c.outbound := by
    rintro t ⟨test, ht, ho⟩
    obtain ⟨test', ht', ho'⟩ := htests t test ht
    exact ⟨test', ht', ho'.trans ho⟩
  cases probe with
  | idle => trivial
  | running t | joined t => exact hkept t h
  | done failed measured => exact h.imp_right fun hcut => ⟨hcut.1, hcanceled hcut.2⟩

def Call.Own (tests : List Test) (c : Call) : Prop :=
  ∀ entry ∈ c.members, entry.2.Own tests c.canceled entry.1

namespace State

variable {groups : List GroupOptions} {s s' : State} {l : Label}

def Own (s : State) : Prop := ∀ c ∈ s.calls, c.Own s.tests

theorem Own.of_kept (h : s.Own) (hcalls : s'.calls = s.calls) (htests : TestsKept s.tests s'.tests) : s'.Own := by
  intro c hc entry hentry
  exact (h c (hcalls ▸ hc) entry hentry).mono htests id

variable {call member : Nat}

theorem Own.setProbe (h : s.Own) {probe : Probe}
    (hp : ∀ c, s.calls[call]? = some c → ∀ entry, c.members[member]? = some entry →
      probe.Own s.tests c.canceled entry.1) :
    (s.setProbe call member probe).Own := by
  intro c' hc' entry hentry
  obtain ⟨i, hi⟩ := mem_iff_getElem?.mp hc'
  simp only [State.setProbe, List.getElem?_modify, Option.map_eq_map, Option.map_eq_some_iff] at hi
  obtain ⟨c, hc, rfl⟩ := hi
  split at hentry
  next heq =>
    subst heq
    rw [if_pos rfl]
    obtain ⟨j, hj⟩ := mem_iff_getElem?.mp hentry
    simp only [List.getElem?_modify, Option.map_eq_map, Option.map_eq_some_iff] at hj
    obtain ⟨old, hold, rfl⟩ := hj
    split
    next heq =>
      subst heq
      exact hp c hc old hold
    · exact h c (mem_of_getElem? hc) old (mem_of_getElem? hold)
  next hne =>
    rw [if_neg hne]
    exact h c (mem_of_getElem? hc) entry hentry

theorem testsKept_startTest (s : State) (o : Instance) : TestsKept s.tests (s.startTest o).tests := by
  intro t test ht
  refine ⟨test, ?_, rfl⟩
  simp only [startTest]
  rw [List.getElem?_append_left (List.getElem?_eq_some_iff.mp ht).1, ht]

variable {fresh failed : Bool} {t : Nat}

theorem shared_test {key : String} {maxAge : Bool} {test : Test} (h : s.shared key maxAge fresh = some (t, test)) :
    s.tests[t]? = some test := by
  unfold shared at h
  split at h
  · cases h
  split at h
  · cases h
  next htest =>
    split at h
    · cases h
      exact htest
    · cases h

theorem Own.probe (h : s.Own) (hown : s.SharesOwn (.probe call member fresh))
    (hs : s.probe call member fresh = some s') : s'.Own := by
  unfold State.probe at hs
  split at hs
  · cases hs
  next c hc =>
    split at hs
    next candidate hmember =>
      have honly : ∀ (probe : Probe) (tests : List Test), probe.Own tests c.canceled candidate →
          ∀ c', s.calls[call]? = some c' → ∀ entry, c'.members[member]? = some entry →
            probe.Own tests c'.canceled entry.1 := by
        intro probe tests hprobe c' hc' entry hentry
        cases hc.symm.trans hc'
        cases hmember.symm.trans hentry
        exact hprobe
      split at hs
      next hcanceled =>
        cases hs
        exact h.setProbe (honly _ _ (.inr ⟨rfl, hcanceled⟩))
      next hlive =>
        split at hs
        · cases hs
          have hnew : (s.startTest candidate.outbound).Own := h.of_kept rfl (s.testsKept_startTest _)
          refine hnew.setProbe (honly _ _ ⟨⟨candidate.outbound, none, false⟩, ?_, rfl⟩)
          simp [startTest]
        next t test hshared =>
          have hsame := hown c hc (Bool.eq_false_iff.mpr hlive) _ hmember _ hshared
          split at hs
          · cases hs
            exact h.setProbe (honly _ _ ⟨test, shared_test hshared, hsame⟩)
          · cases hs
            exact h.setProbe (honly _ _ (.inl (congrArg some hsame)))
    · cases hs

theorem Own.collect (h : s.Own) (hs : s.collect call member = some s') : s'.Own := by
  -- the verdict is that of the test, whose instance is the one that was asked about
  have hdone : ∀ (t : Nat) (probe : Probe) (candidate : Candidate) (o : Instance) (failed abandoned : Bool),
      ((s.calls[call]?).bind fun c => c.members[member]?) = some (candidate, probe) →
      (probe = .running t ∨ probe = .joined t) → s.tests[t]? = some ⟨o, some failed, abandoned⟩ →
      (s.setProbe call member (.done failed (some o))).Own := by
    intro t probe candidate o failed abandoned hentry hprobe htest
    refine h.setProbe fun c hc entry he => .inl (congrArg some ?_)
    rw [hc, Option.bind_some, he] at hentry
    cases hentry
    have hown := h c (mem_of_getElem? hc) _ (mem_of_getElem? he)
    rcases hprobe with rfl | rfl
    all_goals
      obtain ⟨test, ht, ho⟩ := hown
      cases htest.symm.trans ht
      exact ho
  unfold State.collect at hs
  split at hs
  next candidate t hentry =>
    split at hs
    next htest =>
      cases hs
      exact hdone t _ candidate _ _ _ hentry (.inl rfl) htest
    · cases hs
  next candidate t hentry =>
    split at hs
    next htest =>
      split at hs
      · cases hs
        exact h.setProbe fun _ _ _ _ => trivial
      · cases hs
        exact hdone t _ candidate _ _ _ hentry (.inr rfl) htest
    · cases hs
  · cases hs

theorem Own.giveUp (h : s.Own) (hs : s.giveUp call member = some s') : s'.Own := by
  unfold State.giveUp at hs
  split at hs
  · cases hs
  next c hc =>
    split at hs
    · split at hs
      next hcanceled =>
        cases hs
        refine h.setProbe fun c' hc' _ _ => .inr ⟨rfl, ?_⟩
        cases hc.symm.trans hc'
        exact hcanceled
      · cases hs
    · cases hs

theorem testsKept_finish {abandoned : Bool} (hs : s.finish t failed abandoned = some s') :
    s'.calls = s.calls ∧ TestsKept s.tests s'.tests := by
  unfold finish at hs
  split at hs
  next test htest =>
    split at hs
    · cases hs
      refine ⟨rfl, fun t' test' ht' => ?_⟩
      by_cases heq : t = t'
      · subst heq
        cases htest.symm.trans ht'
        exact ⟨_, List.getElem?_set_self (List.getElem?_eq_some_iff.mp htest).1, rfl⟩
      · exact ⟨test', (List.getElem?_set_ne heq).trans ht', rfl⟩
    · cases hs
  · cases hs

theorem Own.step (h : s.Own) (hown : s.SharesOwn l) (hs : s.step groups l = some s') : s'.Own := by
  cases l with
  | rebuild | select =>
    cases hs
    exact h.of_kept rfl (.refl _)
  | begin members maxAge =>
    simp only [step] at hs
    split at hs
    · cases hs
      refine forall_mem_append.mpr ⟨h, forall_mem_singleton.mpr fun entry hentry => ?_⟩
      obtain ⟨candidate, _, rfl⟩ := mem_map.mp hentry
      trivial
    · cases hs
  | cancel call =>
    cases hs
    intro c' hc' entry hentry
    obtain ⟨i, hi⟩ := mem_iff_getElem?.mp hc'
    simp only [List.getElem?_modify, Option.map_eq_map, Option.map_eq_some_iff] at hi
    obtain ⟨c, hc, rfl⟩ := hi
    have hmem : entry ∈ c.members := by
      split at hentry <;> exact hentry
    refine (h c (mem_of_getElem? hc) entry hmem).mono (.refl _) fun hcanceled => ?_
    split
    · rfl
    · exact hcanceled
  | probe call member fresh => exact h.probe hown hs
  | «foreign» o =>
    simp only [step, foreign] at hs
    split at hs
    · cases hs
    · cases hs
      exact h.of_kept rfl (s.testsKept_startTest o)
  | finish t failed abandoned =>
    obtain ⟨hcalls, htests⟩ := testsKept_finish hs
    exact h.of_kept hcalls htests
  | forget t =>
    simp only [step, forget] at hs
    split at hs
    · split at hs
      · cases hs
        exact h.of_kept rfl (.refl _)
      · cases hs
    · cases hs
  | collect call member => exact h.collect hs
  | giveUp call member => exact h.giveUp hs
  | apply call =>
    simp only [step, apply] at hs
    split at hs
    · cases hs
    next c hc =>
      split at hs
      · cases hs
      · cases hs
        intro c' hc'
        rcases mem_or_eq_of_mem_set hc' with hc' | rfl
        · exact h c' hc'
        · exact h c (mem_of_getElem? hc)

/-- The results of a call are of the instances it asked about. -/
theorem Own.results (h : s.Own) {c : Call} (hc : c ∈ s.calls) {candidate : Candidate} {measured : Option Instance}
    (hr : (candidate, failed, measured) ∈ c.results) :
    measured = some candidate.outbound ∨ (failed = true ∧ c.canceled = true) := by
  simp only [Call.results, mem_filterMap, Option.map_eq_some_iff] at hr
  obtain ⟨⟨candidate', probe⟩, hentry, ⟨failed', measured'⟩, hprobe, heq⟩ := hr
  cases heq
  have hown := h c hc _ hentry
  cases probe with
  | done failed measured =>
    cases hprobe
    exact hown
  | _ => cases hprobe

theorem measured_step (h : s.Own) (hm : s.fallback.Measured) (hs : s.step groups l = some s') :
    s'.fallback.Measured := by
  rcases step_fallback hs with ⟨heq, _⟩ | ⟨g, heq, hg⟩
  · rw [heq]
    exact hm
  · rw [heq]
    intro tag state hstate
    rw [selectAvailable_health] at hstate
    exact hg.measured (fun c hc result hr => h.results hc hr) hm tag state hstate

end State

section
variable {groups : List GroupOptions} {past : List (State × Label)} {s : State}

theorem settled_run (hrun : (machine groups).Run past s) : s.Settled := by
  refine hrun.always ?_ fun s s' l h hs => h.step hs
  rintro s ⟨hnone, hhealth, hselected, _⟩
  refine ⟨⟨?_, ?_, ?_⟩, ?_⟩
  · simp [hnone]
  · simp [hnone]
  · simp [hnone, hhealth]
  · simp [hselected, choice, hnone]

theorem measured_run (hrun : (machine groups).Run past s) (hown : System.Along State.SharesOwn past) :
    s.Own ∧ s.fallback.Measured := by
  refine hrun.invariant (I := fun s => s.Own ∧ s.fallback.Measured) ?_ ?_ hown
  · rintro s ⟨_, hhealth, _, _, _, hcalls⟩
    refine ⟨by simp [State.Own, hcalls], fun tag state hstate => ?_⟩
    simp [hhealth] at hstate
  · rintro s s' l ⟨h, hm⟩ hl hs
    exact ⟨h.step hl hs, State.measured_step h hm hs⟩

/-- In every run in which checks share only tests of their own instances, the table is exact, the
selection is the choice that the table and the pin leave, it is dialed first, and a pin goes only for
another member. -/
theorem selection_follows_health (hrun : (machine groups).Run past s) (hown : System.Along State.SharesOwn past) :
    (∀ tag o, (∃ state, s.fallback.health tag = some state ∧ state.outbound = o) ↔
      ∃ c ∈ s.fallback.candidates, c.tag = tag ∧ c.outbound = o) ∧
    s.fallback.Measured ∧
    s.fallback.selected = (s.fallback.choice.map Candidate.tag).getD "" ∧
    (s.fallback.selected = "" ↔ s.fallback.candidates = []) ∧
    (∀ network, (∀ c ∈ s.fallback.candidates, network ∈ c.outbound.network) →
      ((s.fallback.candidatesForNetwork network).head?.map Candidate.tag).getD "" = s.fallback.selected) ∧
    ∀ l s', (machine groups).step s l = some s' → s.Follows l s' := by
  have hs := settled_run hrun
  refine ⟨hs.members.table, (measured_run hrun hown).2, hs.selected,
    selected_eq_empty_iff hs.members.tagged hs.selected, fun network hall => ?_,
    fun l s' hstep => State.step_follows hstep⟩
  rw [head_candidatesForNetwork hs.members.tagged hall, hs.selected]

end

/-- The instance of the only member of a provider, before or after it is replaced. -/
def providerMember (id : Nat) : Instance := ⟨id, "p/x", "p/x", "direct", ["tcp"]⟩

def providerCandidate (id : Nat) : Candidate := ⟨"p/x", providerMember id, 0⟩

def providerGroup : GroupOptions where
  outboundTags := []
  providerTags := ["p"]
  exclude := none
  only := none
  excludeTypes _ := false

def providerEnvironment (id : Nat) : Environment where
  outbound _ := none
  provider tag := if tag = "p" then [providerMember id] else []
  outbound_ne_empty := nofun
  provider_ne_empty := by
    intro tag o ho
    split at ho
    · rw [mem_singleton.mp ho]
      exact of_decide_eq_true rfl
    · cases ho

def emptyState : State where
  fallback := ⟨[], fun _ => none, "", ""⟩
  tests := []
  checks _ := none
  calls := []

theorem emptyState_run : (machine [providerGroup]).Run [] emptyState :=
  .start _ ⟨rfl, fun _ => rfl, rfl, rfl, fun _ => rfl, rfl⟩

def checkedRun : List Label :=
  [.rebuild (providerEnvironment 1), .begin [providerCandidate 1] true, .probe 0 0 false, .finish 0 false false,
    .collect 0 0, .apply 0, .select "p/x"]

/-- The provider replaces the member while it is tested, and a check of the new one finds the test. -/
def replacedRun : List Label :=
  [.rebuild (providerEnvironment 1), .begin [providerCandidate 1] true, .probe 0 0 false,
    .rebuild (providerEnvironment 2), .begin [providerCandidate 2] false, .probe 1 0 false, .finish 0 false false,
    .collect 1 0, .apply 1]

theorem selection_follows_health_checked :
    ∃ past s, (machine [providerGroup]).Run past s ∧ System.Along State.SharesOwn past ∧
      s.fallback.candidates = [providerCandidate 1] ∧ s.fallback.fixed = "p/x" ∧ s.fallback.Measured := by
  obtain ⟨s, hs, hc, hf⟩ : ∃ s, (machine [providerGroup]).exec checkedRun emptyState = some s ∧
      s.fallback.candidates = [providerCandidate 1] ∧ s.fallback.fixed = "p/x" := ⟨_, rfl, rfl, rfl⟩
  have hrun := System.run_exec emptyState_run hs
  have hown : System.Along State.SharesOwn ((machine [providerGroup]).trace checkedRun emptyState []) :=
    System.along_exec (by decide +kernel)
  exact ⟨_, s, hrun, hown, hc, hf, (selection_follows_health hrun hown).2.1⟩

theorem replaced_member_takes_old_verdict :
    ∃ past s state, (machine [providerGroup]).Run past s ∧ s.fallback.candidates = [providerCandidate 2] ∧
      s.fallback.health "p/x" = some state ∧ state.outbound = providerMember 2 ∧ state.checked = true ∧
      state.measured = some (providerMember 1) ∧ ¬s.fallback.Measured := by
  obtain ⟨s, hs, hc, hh⟩ : ∃ s, (machine [providerGroup]).exec replacedRun emptyState = some s ∧
      s.fallback.candidates = [providerCandidate 2] ∧
      s.fallback.health "p/x" = some ⟨providerMember 2, true, true, some (providerMember 1)⟩ := ⟨_, rfl, rfl, rfl⟩
  refine ⟨_, s, _, System.run_exec emptyState_run hs, hc, hh, rfl, rfl, rfl, fun hmeasured => ?_⟩
  have hid := congrArg (Option.map Instance.id) (hmeasured "p/x" _ hh rfl)
  cases hid

end SingBox.Group
