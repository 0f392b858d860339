import SingBox.Lib.DepthFirst
import SingBox.Lib.Fold
import SingBox.Provider.Options
import Mathlib.Data.List.Nodup
import Mathlib.Data.String.Basic

/-!
# From imported outbounds to runtime outbounds

`prepareOutbounds` puts the tag of the provider before every tag, gives the default detour
to outbounds without one, lets the references follow, and sorts the outbounds so that a
dependency comes before what depends on it.
-/
namespace SingBox.Provider

open Lib List Function Option

variable {δ ω : Type}

structure PreparedOutbound (δ ω : Type) where
  source : Outbound δ ω
  runtime : Outbound δ ω
  tag : String
  dependencies : List String
  position : Nat

/-- The runtime tags, by imported tag. -/
def qualifiedTags (providerTag : String) (outbounds : List (Outbound δ ω)) : Tags :=
  outbounds.foldl (fun tags outbound =>
    if outbound.tag ≠ "" then update tags outbound.tag (some (providerTag ++ "/" ++ outbound.tag)) else tags)
    fun _ => none

def applyDefaultDetour (options : Options δ ω) (detour : String) : Options δ ω :=
  if detour = "" then options
  else
    match options.dialer with
    | none => options
    | some dialer =>
      if dialer.detour ≠ "" then options
      else { options with dialer := some { dialer with detour := detour } }

def runtimeTag (providerTag : String) (tags : Tags) (index : Nat) (source : Outbound δ ω) : String :=
  let tag := (tags source.tag).getD ""
  if tag = "" then s!"{providerTag}/Node #{index + 1}" else tag

def prepareOutbound (providerTag : String) (tags : Tags) (outboundDetour : String) (index : Nat)
    (source : Outbound δ ω) : PreparedOutbound δ ω :=
  let tag := runtimeTag providerTag tags index source
  let (options, dependencies) := rewriteOutboundReferences (applyDefaultDetour source.options outboundDetour) tags
  { source := source
    runtime := { source with tag := tag, options := options }
    tag := tag
    dependencies := dependencies
    position := index }

/-- The loop of `prepareOutbounds`. -/
def prepareEach (providerTag : String) (outbounds : List (Outbound δ ω)) (outboundDetour : String) :
    List (PreparedOutbound δ ω) :=
  let tags := qualifiedTags providerTag outbounds
  outbounds.zipIdx.map fun source => prepareOutbound providerTag tags outboundDetour source.2 source.1

def preparedByTag (outbounds : List (PreparedOutbound δ ω)) : String → Option (PreparedOutbound δ ω) :=
  outbounds.foldl (fun byTag outbound => update byTag outbound.tag (some outbound)) fun _ => none

open PreparedOutbound

/-- The dependencies `visit` goes to. -/
def internalDependencies (outbounds : List (PreparedOutbound δ ω)) (tag : String) : List String :=
  (((preparedByTag outbounds tag).map dependencies).getD []).filter fun dependency =>
    (preparedByTag outbounds dependency).isSome

def sortOutbounds (outbounds : List (PreparedOutbound δ ω)) : Except String (List (PreparedOutbound δ ω)) :=
  match DepthFirst.sort (internalDependencies outbounds) (outbounds.map tag) with
  | .error tag => .error s!"circular provider outbound dependency at {tag}"
  | .ok tags => .ok (tags.filterMap (preparedByTag outbounds))

def prepareOutbounds (providerTag : String) (outbounds : List (Outbound δ ω)) (outboundDetour : String) :
    Except String (List (PreparedOutbound δ ω)) :=
  sortOutbounds (prepareEach providerTag outbounds outboundDetour)

theorem prepareOutbound_runtime (providerTag : String) (tags : Tags) (outboundDetour : String) (index : Nat)
    (source : Outbound δ ω) :
    (prepareOutbound providerTag tags outboundDetour index source).runtime =
      { source with
        tag := runtimeTag providerTag tags index source
        options := (applyDefaultDetour source.options outboundDetour).mapReferences (qualify tags) } := by
  rw [← rewriteOutboundReferences_fst]
  rfl

theorem mem_prepareOutbound_dependencies {providerTag : String} {tags : Tags} {outboundDetour : String} {index : Nat}
    {source : Outbound δ ω} {d : String} :
    d ∈ (prepareOutbound providerTag tags outboundDetour index source).dependencies ↔
      ∃ t ∈ (applyDefaultDetour source.options outboundDetour).references, t ≠ "" ∧ tags t = some d :=
  mem_rewriteOutboundReferences_snd

section
variable {providerTag : String} {outbounds : List (Outbound δ ω)}

variable {t d : String} {source : Outbound δ ω}

theorem qualifiedTags_eq_some :
    qualifiedTags providerTag outbounds t = some d ↔
      t ≠ "" ∧ t ∈ outbounds.map Outbound.tag ∧ d = providerTag ++ "/" ++ t := by
  suffices h : ∀ start : Tags, outbounds.foldl (fun (tags : Tags) outbound => if outbound.tag ≠ "" then
      update tags outbound.tag (some (providerTag ++ "/" ++ outbound.tag)) else tags) start t = some d ↔
      (t ≠ "" ∧ t ∈ outbounds.map Outbound.tag ∧ d = providerTag ++ "/" ++ t) ∨
        (¬(t ≠ "" ∧ t ∈ outbounds.map Outbound.tag) ∧ start t = some d) by
    rw [qualifiedTags, h]
    simp
  induction outbounds with
  | nil => simp
  | cons o outbounds ih =>
    intro start
    rw [foldl_cons, ih, map_cons, mem_cons]
    by_cases hempty : o.tag = ""
    · rw [if_neg (not_not.mpr hempty), hempty]
      tauto
    rw [if_pos hempty]
    by_cases ht : t = o.tag
    · subst ht
      simp only [update_self, some.injEq]
      tauto
    · rw [update_of_ne ht]
      tauto

theorem qualifiedTags_of_mem (providerTag : String) (hne : t ≠ "") (h : t ∈ outbounds.map Outbound.tag) :
    qualifiedTags providerTag outbounds t = some (providerTag ++ "/" ++ t) :=
  qualifiedTags_eq_some.mpr ⟨hne, h, rfl⟩

theorem qualifiedTags_of_not_mem (h : t ∉ outbounds.map Outbound.tag) :
    qualifiedTags providerTag outbounds t = none := by
  rw [eq_none_iff_forall_ne_some]
  intro d hd
  exact h (qualifiedTags_eq_some.mp hd).2.1

theorem qualified_ne_self (providerTag t : String) : providerTag ++ "/" ++ t ≠ t := by
  intro h
  have := congrArg String.length h
  simp at this

theorem runtimeTag_of_ne_empty (hmem : source ∈ outbounds) (hne : source.tag ≠ "") (index : Nat) :
    runtimeTag providerTag (qualifiedTags providerTag outbounds) index source = providerTag ++ "/" ++ source.tag := by
  unfold runtimeTag
  rw [qualifiedTags_of_mem providerTag hne (mem_map_of_mem hmem)]
  exact if_neg (by simp)

variable {outboundDetour : String} {o : PreparedOutbound δ ω}

theorem mem_prepareEach :
    o ∈ prepareEach providerTag outbounds outboundDetour ↔ ∃ source index, outbounds[index]? = some source ∧
      o = prepareOutbound providerTag (qualifiedTags providerTag outbounds) outboundDetour index source := by
  simp only [prepareEach, List.mem_map, Prod.exists, mem_zipIdx_iff_getElem?]
  exact exists_congr fun source => exists_congr fun index => and_congr_right fun _ => eq_comm

theorem prepareOutbound_mem {index : Nat} (h : outbounds[index]? = some source) (providerTag outboundDetour : String) :
    prepareOutbound providerTag (qualifiedTags providerTag outbounds) outboundDetour index source ∈
      prepareEach providerTag outbounds outboundDetour :=
  mem_prepareEach.mpr ⟨source, index, h, rfl⟩

theorem dependency_mem (ho : o ∈ prepareEach providerTag outbounds outboundDetour) (hd : d ∈ o.dependencies) :
    d ∈ (prepareEach providerTag outbounds outboundDetour).map tag := by
  obtain ⟨source, index, _, rfl⟩ := mem_prepareEach.mp ho
  obtain ⟨t, _, hne, ht⟩ := mem_prepareOutbound_dependencies.mp hd
  obtain ⟨_, hmem, rfl⟩ := qualifiedTags_eq_some.mp ht
  obtain ⟨target, htarget, rfl⟩ := mem_map.mp hmem
  obtain ⟨i, hi⟩ := mem_iff_getElem?.mp htarget
  refine mem_map.mpr ⟨_, prepareOutbound_mem hi _ _, ?_⟩
  exact runtimeTag_of_ne_empty htarget hne i

end

section
variable {outbounds : List (PreparedOutbound δ ω)}

variable {o : PreparedOutbound δ ω} {t : String}

theorem preparedByTag_eq (outbounds : List (PreparedOutbound δ ω)) (t : String) :
    preparedByTag outbounds t = outbounds.reverse.find? fun o => o.tag = t := by
  unfold preparedByTag
  induction outbounds using List.reverseRecOn with
  | nil => rfl
  | append_singleton outbounds o ih =>
    rw [reverse_append, foldl_append, reverse_singleton, singleton_append, find?_cons, ← ih]
    by_cases h : o.tag = t
    · simp [h]
    · simp [h, update_of_ne (Ne.symm h)]

theorem preparedByTag_mem (h : preparedByTag outbounds t = some o) : o ∈ outbounds ∧ o.tag = t := by
  rw [preparedByTag_eq] at h
  exact ⟨mem_reverse.mp (mem_of_find?_eq_some h), by simpa using find?_some h⟩

theorem preparedByTag_isSome (t : String) : (preparedByTag outbounds t).isSome ↔ t ∈ outbounds.map tag := by
  rw [preparedByTag_eq, find?_isSome]
  simp

theorem preparedByTag_of_nodup (hnodup : (outbounds.map tag).Nodup) (ho : o ∈ outbounds) :
    preparedByTag outbounds o.tag = some o :=
  (foldl_update_eq tag hnodup).mpr (.inl ⟨ho, rfl⟩)

theorem mem_internalDependencies {d : String} (ho : preparedByTag outbounds t = some o) :
    d ∈ internalDependencies outbounds t ↔ d ∈ o.dependencies ∧ d ∈ outbounds.map tag := by
  rw [internalDependencies, ho, mem_filter, preparedByTag_isSome]
  rfl

theorem internalDependencies_closed :
    ∀ v ∈ outbounds.map tag, ∀ w ∈ internalDependencies outbounds v,
      w ∈ outbounds.map tag := by
  intro v _ w hw
  exact (preparedByTag_isSome w).mp (mem_filter.mp hw).2

end

/-- What `sortOutbounds` returns: one outbound for each tag, dependencies first. -/
structure Arranged (outbounds sorted : List (PreparedOutbound δ ω)) : Prop where
  nodup : (sorted.map tag).Nodup
  mem : ∀ o ∈ sorted, o ∈ outbounds
  tags : ∀ t, t ∈ sorted.map tag ↔ t ∈ outbounds.map tag
  first : ∀ before o after, sorted = before ++ o :: after →
    ∀ d ∈ o.dependencies, d ∈ outbounds.map tag → d ∈ before.map tag

variable {outbounds : List (PreparedOutbound δ ω)}

theorem map_tag_filterMap {tags : List String} (h : ∀ t ∈ tags, t ∈ outbounds.map tag) :
    (tags.filterMap (preparedByTag outbounds)).map tag = tags := by
  induction tags with
  | nil => rfl
  | cons t tags ih =>
    obtain ⟨ht, h⟩ := forall_mem_cons.mp h
    obtain ⟨o, ho⟩ := isSome_iff_exists.mp ((preparedByTag_isSome t).mpr ht)
    rw [filterMap_cons_some ho, map_cons, ih h, (preparedByTag_mem ho).2]

theorem sortOutbounds_ok {sorted : List (PreparedOutbound δ ω)} (h : sortOutbounds outbounds = .ok sorted) :
    Arranged outbounds sorted := by
  unfold sortOutbounds at h
  cases hsort : DepthFirst.sort (internalDependencies outbounds) (outbounds.map tag) with
  | error tag =>
    rw [hsort] at h
    cases h
  | ok tags =>
    rw [hsort] at h
    cases h
    obtain ⟨htags, hordered, _, _⟩ := DepthFirst.sort_ok hsort
    have hmem : ∀ t, t ∈ tags ↔ t ∈ outbounds.map tag := fun t =>
      DepthFirst.mem_of_sort_ok internalDependencies_closed hsort
    have hall := map_tag_filterMap fun t ht => (hmem t).mp ht
    refine ⟨hall.symm ▸ htags, fun o ho => ?_, fun t => by rw [hall, hmem], fun before o after heq d hd hint => ?_⟩
    · obtain ⟨t, _, ho⟩ := mem_filterMap.mp ho
      exact (preparedByTag_mem ho).1
    have ho : preparedByTag outbounds o.tag = some o := by
      have : o ∈ tags.filterMap (preparedByTag outbounds) := by
        rw [heq]
        simp
      obtain ⟨t, _, ho⟩ := mem_filterMap.mp this
      rw [(preparedByTag_mem ho).2, ho]
    rw [heq, map_append, map_cons] at hall
    exact hordered _ o.tag _ hall.symm d ((mem_internalDependencies ho).mpr ⟨hd, hint⟩)

end SingBox.Provider
