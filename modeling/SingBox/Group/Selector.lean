import SingBox.Group.Fallback

/-!
# The selector

The choice of the user is the member in `selected` and the tag in the cache file. Provider
updates find the member to select from the cache file alone. `SelectOutbound` swaps the
member first and stores its tag afterwards, under a lock that other calls of it share.
-/
namespace SingBox.Group

open Lib Option Function List

/-- The options of a `Selector`; `cacheFile` says that there is one. -/
structure SelectorOptions where
  tag : String
  defaultTag : String
  cacheFile : Bool
  members : GroupOptions

/-- The cache file keeps the choice. -/
def SelectorOptions.persistent (o : SelectorOptions) : Bool := o.tag != "" && o.cacheFile

/-- `outboundSelect`, where the cache file holds `cache`. -/
def outboundSelect (o : SelectorOptions) (cache : String) (tags : List String) (outbounds : String → Option Instance) :
    Except String (Option Instance) :=
  match tags with
  | [] => .ok none
  | first :: _ =>
    match if o.persistent && cache != "" then outbounds cache else none with
    | some detour => .ok (some detour)
    | none =>
      if o.defaultTag ≠ "" then
        match outbounds o.defaultTag with
        | none => .error s!"default outbound not found: {o.defaultTag}"
        | some detour => .ok (some detour)
      else .ok (outbounds first)

/-- The member a provider update selects. -/
def reselect (o : SelectorOptions) (cache : String) (tags : List String) (outbounds : String → Option Instance) :
    Option Instance := (outboundSelect o cache tags outbounds).toOption.getD none

/-- The member that is to be selected where the user chose `chosen`: that one if it is there, or the
default, or the first. -/
def choice (o : SelectorOptions) (chosen : Option String) (tags : List String) (outbounds : String → Option Instance) :
    Option Instance :=
  match chosen.bind outbounds with
  | some detour => some detour
  | none => if o.defaultTag ≠ "" then outbounds o.defaultTag else tags.head?.bind outbounds

/-- The members a provider update adds to the static ones; the last of a tag wins. -/
def addDetours (static : String → Option Instance) (detours : List Instance) : String → Option Instance :=
  detours.foldl (fun outbounds detour => update outbounds detour.tag (some detour)) static

/-- A `Selector`, the managers and the cache file. `storing` are the calls of `SelectOutbound` that
have swapped the member and not stored its tag, and `chosen` is the tag of the last that succeeded. -/
structure Selector where
  tags : List String
  outbounds : String → Option Instance
  outboundsCache : String → List Instance
  selected : Option Instance
  cache : String
  storing : List String
  chosen : Option String
  env : Environment

namespace Selector

variable (o : SelectorOptions) (s : Selector)

/-- The members of one provider, which `onProviderUpdated` reads if it is the one updated or none
are remembered. -/
def providerMembers (updated providerTag : String) : List Instance :=
  if providerTag ≠ updated ∧ s.outboundsCache providerTag ≠ [] then s.outboundsCache providerTag
  else (s.env.provider providerTag).filter (o.members.accepts providerTag)

def onProviderUpdated (tag : String) : Selector :=
  if tag ∈ o.members.providerTags then
    let detours := o.members.providerTags.flatMap fun providerTag => s.providerMembers o tag providerTag
    let static : String → Option Instance := fun t => if t ∈ o.members.outboundTags then s.outbounds t else none
    let tags := o.members.outboundTags ++ detours.map Instance.tag
    let outbounds := addDetours static detours
    { s with
      tags := tags
      outbounds := outbounds
      outboundsCache := fun t => if t ∈ o.members.providerTags then s.providerMembers o tag t else s.outboundsCache t
      selected := reselect o s.cache tags outbounds }
  else s

/-- `SelectOutbound` up to the swap; a tag that is to be stored is left to its last part. -/
def selectOutbound (tag : String) : Selector :=
  match s.outbounds tag with
  | none => s
  | some detour =>
    { s with
      selected := some detour
      chosen := some tag
      storing := if s.selected ≠ some detour ∧ o.persistent then s.storing ++ [tag] else s.storing }

/-- A selector is made and started; nothing if that fails. -/
def start (cache : String) (chosen : Option String) (env : Environment) : Option Selector :=
  if o.members.outboundTags.all fun tag => (env.outbound tag).isSome then
    let outbounds := fun tag => if tag ∈ o.members.outboundTags then env.outbound tag else none
    match outboundSelect o cache o.members.outboundTags outbounds with
    | .error _ => none
    | .ok selected =>
      some
        { tags := o.members.outboundTags
          outbounds := outbounds
          outboundsCache := fun _ => []
          selected := selected
          cache := cache
          storing := []
          chosen := chosen
          env := env }
  else none

end Selector

inductive SelectorLabel where
  | provide (env : Environment)
  | update (tag : String)
  | select (tag : String)
  | store (call : Nat)
  | restart

/-- A provider update excludes the calls of `SelectOutbound`, which run side by side. -/
def Selector.step (o : SelectorOptions) (s : Selector) : SelectorLabel → Option Selector
  | .provide env => some { s with env := env }
  | .update tag => if s.storing = [] then some (s.onProviderUpdated o tag) else none
  | .select tag => some (s.selectOutbound o tag)
  | .store call => s.storing[call]?.map fun tag => { s with cache := tag, storing := s.storing.eraseIdx call }
  | .restart =>
    if s.storing = [] then Selector.start o s.cache (if o.persistent then s.chosen else none) s.env else none

/-- A selector over the life of its cache file: what an earlier run left there was chosen then. -/
def selectors (o : SelectorOptions) : System Selector SelectorLabel where
  init s := ∃ cache env,
    Selector.start o cache (if o.persistent && cache != "" then some cache else none) env = some s
  step s l := s.step o l

/-- The tag the cache file will hold once the calls in progress have stored theirs in turn. -/
def Selector.recorded (s : Selector) : String := s.storing.getLast?.getD s.cache

/-- Calls store in the order in which they swapped; the member that is selected already is chosen only
if the cache file has it; and without a cache file no provider is updated after a choice. A restart finds the static
members, and among them, if there are any, the one in the cache file or the default if one is set. -/
def Steady (o : SelectorOptions) (s : Selector) : SelectorLabel → Prop
  | .select tag => o.persistent → (s.outbounds tag).isSome → s.outbounds tag = s.selected → s.recorded = tag
  | .store call => call = 0
  | .update _ => o.persistent ∨ s.chosen = none
  | .restart =>
    (∀ tag ∈ o.members.outboundTags, (s.env.outbound tag).isSome) ∧
      (o.members.outboundTags = [] ∨ o.persistent ∧ s.cache ∈ o.members.outboundTags ∨
        o.defaultTag = "" ∨ o.defaultTag ∈ o.members.outboundTags)
  | .provide _ => True

instance (o : SelectorOptions) (s : Selector) (l : SelectorLabel) : Decidable (Steady o s l) := by
  cases l <;> unfold Steady <;> infer_instance

section
variable {o : SelectorOptions} {cache : String} {chosen : Option String} {tags : List String}
  {outbounds : String → Option Instance}

theorem reselect_eq_choice (htags : ∀ t, (outbounds t).isSome → t ∈ tags) (hne : outbounds "" = none)
    (hcache : o.persistent → cache = chosen.getD "") (hchosen : ¬ o.persistent → chosen = none) :
    reselect o cache tags outbounds = choice o chosen tags outbounds := by
  have hkept : (if o.persistent && cache != "" then outbounds cache else none) = chosen.bind outbounds := by
    cases hp : o.persistent with
    | false => simp [hchosen (by simp [hp])]
    | true =>
      cases chosen with
      | none => simp [hcache hp]
      | some tag =>
        by_cases htag : tag = ""
        · simp [hcache hp, htag, hne]
        · simp [hcache hp, htag]
  unfold reselect outboundSelect choice
  rw [hkept]
  cases tags with
  | nil =>
    have hnone : ∀ t, outbounds t = none := by simpa using htags
    cases chosen <;> simp [hnone, Except.toOption]
  | cons first rest =>
    cases chosen.bind outbounds with
    | some detour => rfl
    | none =>
      by_cases hd : o.defaultTag = ""
      · simp [hd, Except.toOption]
      · cases outbounds o.defaultTag <;> simp [hd, Except.toOption]

/-- The choice is the same member wherever the members have the same tags. -/
theorem choice_map_tag {outbounds' : String → Option Instance}
    (h : ∀ t, (outbounds' t).map Instance.tag = (outbounds t).map Instance.tag) :
    (choice o chosen tags outbounds').map Instance.tag = (choice o chosen tags outbounds).map Instance.tag := by
  have hbind : ∀ tag : Option String,
      (tag.bind outbounds').map Instance.tag = (tag.bind outbounds).map Instance.tag := by
    intro tag
    cases tag with
    | none => rfl
    | some tag => exact h tag
  unfold choice
  cases hnew : chosen.bind outbounds' with
  | some detour =>
    cases hold : chosen.bind outbounds with
    | some | none => simpa [hnew, hold] using hbind chosen
  | none =>
    cases hold : chosen.bind outbounds with
    | some old => simpa [hnew, hold] using hbind chosen
    | none =>
      by_cases hd : o.defaultTag = ""
      · simpa [hd] using hbind tags.head?
      · simpa [hd] using h o.defaultTag

end

theorem addDetours_isSome (detours : List Instance) (static : String → Option Instance) (t : String)
    (h : (addDetours static detours t).isSome) : (static t).isSome ∨ t ∈ detours.map Instance.tag := by
  induction detours generalizing static with
  | nil => exact .inl h
  | cons detour detours ih =>
    rcases ih (update static detour.tag (some detour)) h with hstatic | hmem
    · by_cases ht : t = detour.tag
      · exact .inr (by simp [ht])
      · rw [update_of_ne ht] at hstatic
        exact .inl hstatic
    · exact .inr (mem_cons_of_mem _ hmem)

/-- What a steady run keeps: the choice is selected and the cache file has it, or will. -/
structure Kept (o : SelectorOptions) (s : Selector) : Prop where
  selected : s.selected = choice o s.chosen s.tags s.outbounds
  recorded : o.persistent → s.recorded = s.chosen.getD ""
  transient : ¬ o.persistent → s.storing = []
  members : ∀ t, (s.outbounds t).isSome → t ∈ s.tags
  no_empty : s.outbounds "" = none
  cached_ne : ∀ t, ∀ detour ∈ s.outboundsCache t, detour.tag ≠ ""

variable {o : SelectorOptions} {s s' : Selector}

variable {tag : String} {ls : List SelectorLabel}

theorem Kept.outbounds_none (hs : Kept o s) (h : tag ∉ s.tags) : s.outbounds tag = none :=
  not_isSome_iff_eq_none.mp (mt (hs.members tag) h)

theorem Kept.start {cache : String} {chosen : Option String} {env : Environment}
    (hcache : o.persistent → cache = chosen.getD "") (hchosen : ¬ o.persistent → chosen = none)
    (h : Selector.start o cache chosen env = some s) : Kept o s ∧ s.chosen = chosen := by
  obtain ⟨_, h⟩ := ite_none_right_eq_some.mp h
  cases hsel : outboundSelect o cache o.members.outboundTags
      fun tag => if tag ∈ o.members.outboundTags then env.outbound tag else none with
  | error err => simp [hsel] at h
  | ok selected =>
    simp only [hsel, Option.some.injEq] at h
    subst h
    have htags : ∀ t, (if t ∈ o.members.outboundTags then env.outbound t else none).isSome →
        t ∈ o.members.outboundTags := by
      intro t ht
      by_contra hmem
      simp [hmem] at ht
    have hempty : (if "" ∈ o.members.outboundTags then env.outbound "" else none) = none := by
      split
      · cases hout : env.outbound "" with
        | none => rfl
        | some detour => exact absurd rfl (env.outbound_ne_empty "" detour hout)
      · rfl
    have hchoice := reselect_eq_choice (o := o) htags hempty hcache hchosen
    refine ⟨⟨?_, hcache, fun _ => rfl, htags, hempty, by simp⟩, rfl⟩
    rw [← hchoice, reselect, hsel]
    rfl

theorem Kept.update (hs : Kept o s) (hidle : s.storing = []) (hsteady : o.persistent ∨ s.chosen = none) :
    Kept o (s.onProviderUpdated o tag) := by
  unfold Selector.onProviderUpdated
  split
  · set detours := o.members.providerTags.flatMap fun providerTag => s.providerMembers o tag providerTag with hdetours
    have hne : ∀ t, ∀ detour ∈ s.providerMembers o tag t, detour.tag ≠ "" := by
      intro t detour hmem
      unfold Selector.providerMembers at hmem
      split at hmem
      · exact hs.cached_ne t detour hmem
      · exact s.env.provider_ne_empty t detour (mem_of_mem_filter hmem)
    have hsome : ∀ t,
        (addDetours (fun t => if t ∈ o.members.outboundTags then s.outbounds t else none) detours t).isSome →
        t ≠ "" ∧ t ∈ o.members.outboundTags ++ detours.map Instance.tag := by
      intro t ht
      rcases addDetours_isSome detours _ t ht with hstatic | hmem
      · by_cases hmem : t ∈ o.members.outboundTags
        · refine ⟨?_, mem_append_left _ hmem⟩
          rintro rfl
          simp [hs.no_empty] at hstatic
        · simp [hmem] at hstatic
      · refine ⟨?_, mem_append_right _ hmem⟩
        obtain ⟨detour, hdetour, rfl⟩ := mem_map.mp hmem
        obtain ⟨providerTag, _, hdetour⟩ := mem_flatMap.mp hdetour
        exact hne providerTag detour hdetour
    have hempty : addDetours (fun t => if t ∈ o.members.outboundTags then s.outbounds t else none) detours "" = none :=
      not_isSome_iff_eq_none.mp fun h => (hsome "" h).1 rfl
    have hcache : o.persistent → s.cache = s.chosen.getD "" := by
      simpa [Selector.recorded, hidle] using hs.recorded
    exact {
      selected := reselect_eq_choice (fun t ht => (hsome t ht).2) hempty hcache hsteady.resolve_left
      recorded := hs.recorded
      transient := hs.transient
      members := fun t ht => (hsome t ht).2
      no_empty := hempty
      cached_ne := by
        intro t detour hmem
        simp only at hmem
        split at hmem
        · exact hne t detour hmem
        · exact hs.cached_ne t detour hmem }
  · exact hs

theorem Kept.select (hs : Kept o s)
    (hsteady : o.persistent → (s.outbounds tag).isSome → s.outbounds tag = s.selected → s.recorded = tag) :
    Kept o (s.selectOutbound o tag) := by
  unfold Selector.selectOutbound
  cases hout : s.outbounds tag with
  | none => exact hs
  | some detour =>
    refine ⟨by simp [choice, hout], fun hp => ?_, fun hp => ?_, hs.members, hs.no_empty, hs.cached_ne⟩
    · by_cases hsel : s.selected = some detour
      · have := hsteady hp (by simp [hout]) (by rw [hout, hsel])
        simpa [Selector.recorded, hsel] using this
      · simp [Selector.recorded, hsel, hp]
    · simpa [hp] using hs.transient hp

theorem Kept.store (hs : Kept o s) (h : s.step o (.store 0) = some s') : Kept o s' := by
  cases hstoring : s.storing with
  | nil => simp [Selector.step, hstoring] at h
  | cons tag rest =>
    simp only [Selector.step, hstoring, getElem?_cons_zero, map_some, eraseIdx_cons_zero,
      Option.some.injEq] at h
    subst h
    refine ⟨hs.selected, fun hp => ?_, fun hp => ?_, hs.members, hs.no_empty, hs.cached_ne⟩
    · have hrec := hs.recorded hp
      rw [Selector.recorded, hstoring, getLast?_cons] at hrec
      exact hrec
    · simpa [hstoring] using hs.transient hp

theorem Kept.step_restart (hs : Kept o s) (h : s.step o .restart = some s') : Kept o s' := by
  obtain ⟨hidle, h⟩ := ite_none_right_eq_some.mp h
  refine (Kept.start (fun hp => ?_) (fun hp => by simp [hp]) h).1
  simpa [Selector.recorded, hidle, hp] using hs.recorded hp

theorem Kept.step {l : SelectorLabel} (hs : Kept o s) (hl : Steady o s l) (h : s.step o l = some s') :
    Kept o s' := by
  cases l with
  | provide env =>
    cases Option.some.inj h
    exact ⟨hs.selected, hs.recorded, hs.transient, hs.members, hs.no_empty, hs.cached_ne⟩
  | update tag =>
    obtain ⟨hidle, h⟩ := ite_none_right_eq_some.mp h
    cases Option.some.inj h
    exact hs.update hidle hl
  | select tag =>
    cases Option.some.inj h
    exact hs.select hl
  | store call =>
    cases hl
    exact hs.store h
  | restart => exact hs.step_restart h

theorem outboundSelect_static (hsteady : Steady o s .restart) :
    ∃ selected, outboundSelect o s.cache o.members.outboundTags
      (fun tag => if tag ∈ o.members.outboundTags then s.env.outbound tag else none) = .ok selected := by
  obtain ⟨hthere, hdefault⟩ := hsteady
  have hfound : ∀ tag ∈ o.members.outboundTags, ∃ detour,
      (if tag ∈ o.members.outboundTags then s.env.outbound tag else none) = some detour := by
    intro tag htag
    rw [if_pos htag]
    exact isSome_iff_exists.mp (hthere tag htag)
  unfold outboundSelect
  split
  · exact ⟨none, rfl⟩
  next first rest htags =>
    split
    · exact ⟨_, rfl⟩
    next hnone =>
      split_ifs with hset
      · rcases hdefault with hempty | ⟨hp, hcache⟩ | hunset | hstatic
        · cases htags.symm.trans hempty
        · obtain ⟨detour, hdetour⟩ := hfound s.cache hcache
          have hne : s.cache ≠ "" := by
            rw [if_pos hcache] at hdetour
            exact s.env.outbound_ne_empty s.cache detour hdetour
          simp [hp, hne, hdetour] at hnone
        · exact absurd hunset hset
        · obtain ⟨detour, hdetour⟩ := hfound o.defaultTag hstatic
          simp only [hdetour]
          exact ⟨_, rfl⟩
      · exact ⟨_, rfl⟩

theorem restart_isSome (hidle : s.storing = []) (hsteady : Steady o s .restart) :
    ∃ t, s.step o .restart = some t ∧ t.storing = [] := by
  obtain ⟨selected, hselected⟩ := outboundSelect_static hsteady
  have hthere : (o.members.outboundTags.all fun tag => (s.env.outbound tag).isSome) = true :=
    all_eq_true.mpr hsteady.1
  simp only [Selector.step, Selector.start, hidle, hthere, if_true, hselected]
  exact ⟨_, rfl, rfl⟩

/-- Nothing keeps providers from being updated while no choice is stored. -/
theorem exec_updates (hidle : s.storing = [])
    (hls : ∀ l ∈ ls, (∃ env, l = .provide env) ∨ ∃ tag, l = .update tag) :
    ∃ s', (selectors o).exec ls s = some s' := by
  induction ls generalizing s with
  | nil => exact ⟨s, rfl⟩
  | cons l ls ih =>
    obtain ⟨hl, hls⟩ := forall_mem_cons.mp hls
    have hstep : ∃ t, s.step o l = some t ∧ t.storing = [] := by
      rcases hl with ⟨env, rfl⟩ | ⟨tag, rfl⟩
      · exact ⟨_, rfl, hidle⟩
      · refine ⟨_, if_pos hidle, ?_⟩
        unfold Selector.onProviderUpdated
        split <;> exact hidle
    obtain ⟨t, ht, hidle'⟩ := hstep
    obtain ⟨s', hs'⟩ := ih hidle' hls
    exact ⟨s', bind_eq_some_iff.mpr ⟨t, ht, hs'⟩⟩

/-- A run up to the restart of a selector with a cache file and on, without another choice. -/
theorem Kept.restarted (hs : Kept o s) (hp : o.persistent)
    (hls : ∀ l ∈ ls, (∃ env, l = .provide env) ∨ (∃ tag, l = .update tag) ∨ l = .restart)
    (h : (selectors o).exec ls s = some s') : Kept o s' ∧ s'.chosen = s.chosen := by
  induction ls generalizing s with
  | nil =>
    cases Option.some.inj h
    exact ⟨hs, rfl⟩
  | cons l ls ih =>
    obtain ⟨t, ht, h⟩ := bind_eq_some_iff.mp h
    obtain ⟨hl, hls⟩ := forall_mem_cons.mp hls
    have hkept : Kept o t ∧ t.chosen = s.chosen := by
      rcases hl with ⟨env, rfl⟩ | ⟨tag, rfl⟩ | rfl
      · cases Option.some.inj ht
        exact ⟨hs.step (l := .provide env) trivial rfl, rfl⟩
      · refine ⟨hs.step (l := .update tag) (.inl hp) ht, ?_⟩
        obtain ⟨_, ht⟩ := ite_none_right_eq_some.mp ht
        cases Option.some.inj ht
        unfold Selector.onProviderUpdated
        split <;> rfl
      · refine ⟨hs.step_restart ht, ?_⟩
        obtain ⟨hidle, ht⟩ := ite_none_right_eq_some.mp ht
        have hrec := hs.recorded hp
        rw [(Kept.start (fun _ => by simpa [Selector.recorded, hidle, hp] using hrec) (absurd hp) ht).2, if_pos hp]
    obtain ⟨hkept', hchosen⟩ := ih hkept.1 hls h
    exact ⟨hkept', hchosen.trans hkept.2⟩

theorem Kept.of_run {past : List (Selector × SelectorLabel)} (hrun : (selectors o).Run past s)
    (hal : System.Along (Steady o) past) : Kept o s := by
  refine hrun.invariant ?_ ?_ hal
  · rintro s ⟨cache, env, h⟩
    refine (Kept.start (fun hp => ?_) (fun hp => by simp [hp]) h).1
    by_cases hc : cache = "" <;> simp [hp, hc]
  · intro s s' l hs hl h
    exact hs.step hl h

/-- In a steady run the choice of the user is selected while it is a member, and the default or the
first member otherwise. A selector with a cache file and no call in progress can be restarted and its providers
updated; and whenever it then has the same members again, it selects the member it had selected. -/
theorem selector_keeps_choice {past : List (Selector × SelectorLabel)} (hrun : (selectors o).Run past s)
    (hal : System.Along (Steady o) past) :
    s.selected = choice o s.chosen s.tags s.outbounds ∧
      (o.persistent → s.storing = [] → Steady o s .restart → ∃ t, s.step o .restart = some t ∧
        (∀ ls, (∀ l ∈ ls, (∃ env, l = .provide env) ∨ ∃ tag, l = .update tag) →
          ∃ s', (selectors o).exec ls t = some s') ∧
        ∀ ls s', (∀ l ∈ ls, (∃ env, l = .provide env) ∨ (∃ tag, l = .update tag) ∨ l = .restart) →
          (selectors o).exec ls t = some s' → s'.tags = s.tags →
          (∀ tag ∈ s.tags, (s'.outbounds tag).map Instance.tag = (s.outbounds tag).map Instance.tag) →
          s'.selected.map Instance.tag = s.selected.map Instance.tag) := by
  have hs := Kept.of_run hrun hal
  refine ⟨hs.selected, fun hp hidle hsteady => ?_⟩
  obtain ⟨t, ht, hidle'⟩ := restart_isSome hidle hsteady
  refine ⟨t, ht, fun ls => exec_updates hidle', fun ls s' hls h htags hout => ?_⟩
  have hexec : (selectors o).exec (.restart :: ls) s = some s' := by
    simpa [System.exec, selectors, ht] using h
  obtain ⟨hs', hchosen⟩ := hs.restarted hp
    (forall_mem_cons.mpr ⟨.inr (.inr rfl), hls⟩) hexec
  rw [hs'.selected, hs.selected, hchosen, htags]
  refine choice_map_tag fun tag => ?_
  by_cases htag : tag ∈ s.tags
  · exact hout tag htag
  · rw [hs.outbounds_none htag, hs'.outbounds_none (htags ▸ htag)]

/-- A selector of one static member and a provider. -/
def ownAndProvided (cacheFile : Bool) : SelectorOptions where
  tag := "selector"
  defaultTag := ""
  cacheFile := cacheFile
  members := ⟨["own"], ["provider"], none, none, fun _ => false⟩

def direct (tag : String) : Instance := ⟨0, tag, tag, "direct", ["tcp", "udp"]⟩

def providing (there : Bool) : Environment where
  outbound tag := if tag = "own" then some (direct "own") else none
  provider _ := if there then [direct "other"] else []
  outbound_ne_empty := by
    rintro tag o h rfl
    simp at h
  provider_ne_empty := by
    intro tag o h
    cases there with
    | false => simp at h
    | true =>
      rw [mem_singleton.mp h]
      decide

theorem started_isSome (cacheFile : Bool) :
    (Selector.start (ownAndProvided cacheFile) "" none (providing true)).isSome := by
  cases cacheFile <;> rfl

def started (cacheFile : Bool) : Selector :=
  (Selector.start (ownAndProvided cacheFile) "" none (providing true)).get (started_isSome cacheFile)

theorem started_run {cacheFile : Bool} {s : Selector}
    (h : (selectors (ownAndProvided cacheFile)).exec ls (started cacheFile) = some s) :
    (selectors (ownAndProvided cacheFile)).Run
      ((selectors (ownAndProvided cacheFile)).trace ls (started cacheFile) []) s :=
  System.run_exec (.start _ ⟨"", providing true, by simp [started]⟩) h

/-- The provided member is chosen, goes away and comes back. -/
def choiceReturns : List SelectorLabel :=
  [.update "provider", .select "other", .store 0, .provide (providing false), .update "provider",
    .provide (providing true), .update "provider"]

theorem selector_keeps_choice_returns :
    ∃ s, (selectors (ownAndProvided true)).exec choiceReturns (started true) = some s ∧ s.storing = [] ∧
      s.chosen = some "other" ∧ s.selected = choice (ownAndProvided true) s.chosen s.tags s.outbounds ∧
      ∃ t s', s.step (ownAndProvided true) .restart = some t ∧
        (selectors (ownAndProvided true)).exec [.update "provider"] t = some s' ∧
        s'.selected.map Instance.tag = s.selected.map Instance.tag := by
  let s := ((selectors (ownAndProvided true)).exec choiceReturns (started true)).get (by decide +kernel)
  have hs : (selectors (ownAndProvided true)).exec choiceReturns (started true) = some s := (some_get _).symm
  let t := (s.step (ownAndProvided true) .restart).get (by decide +kernel)
  have ht : s.step (ownAndProvided true) .restart = some t := (some_get _).symm
  let s' := ((selectors (ownAndProvided true)).exec [.update "provider"] t).get (by decide +kernel)
  have hs' : (selectors (ownAndProvided true)).exec [.update "provider"] t = some s' := (some_get _).symm
  obtain ⟨hsel, hrestart⟩ := selector_keeps_choice (started_run hs)
    (System.along_exec (by decide +kernel))
  have hidle : s.storing = [] := by decide +kernel
  obtain ⟨t', ht', -, hsame⟩ := hrestart (by decide) hidle (by decide +kernel)
  cases ht.symm.trans ht'
  refine ⟨s, hs, hidle, by decide +kernel, hsel, t, s', ht, hs', ?_⟩
  exact hsame [.update "provider"] s' (by simp) hs' (by decide +kernel) (by decide +kernel)

/-- The provided member is chosen, goes away, the one selected in its place is chosen, and it comes back. -/
def replacementChosen : List SelectorLabel :=
  [.update "provider", .select "other", .store 0, .provide (providing false), .update "provider", .select "own",
    .provide (providing true), .update "provider"]

/-- Without a cache file a provider update forgets the choice. With one, the choice of a member that is
selected already is not written, and an update goes back to the choice before it. -/
theorem choice_is_lost_on_update :
    (∃ past s, (selectors (ownAndProvided false)).Run past s ∧ s.storing = [] ∧ s.chosen = some "other" ∧
      (s.outbounds "other").isSome ∧ s.selected = some (direct "own")) ∧
    ∃ past s, (selectors (ownAndProvided true)).Run past s ∧ s.storing = [] ∧ s.chosen = some "own" ∧
      (s.outbounds "own").isSome ∧ s.selected = some (direct "other") := by
  let s := ((selectors (ownAndProvided false)).exec [.update "provider", .select "other", .update "provider"]
    (started false)).get (by decide +kernel)
  have hs := started_run (s := s) (some_get _).symm
  let s' := ((selectors (ownAndProvided true)).exec replacementChosen (started true)).get (by decide +kernel)
  have hs' := started_run (s := s') (some_get _).symm
  exact ⟨⟨_, s, hs, by decide +kernel, by decide +kernel, by decide +kernel, by decide +kernel⟩,
    _, s', hs', by decide +kernel, by decide +kernel, by decide +kernel, by decide +kernel⟩

end SingBox.Group
