import SingBox.Provider.Normalize

/-!
# What becomes of a name

A detour of an imported outbound is followed through `FilterOutbounds` and
`prepareOutbounds`. Names of outbounds of the list arrive at the runtime tag of the first
outbound that had them. A name that is meant for something outside the list stays what it
is unless it coincides with a name that one of the two steps gives out.
-/
namespace SingBox.Provider

open Lib List Outbound Options

variable {δ ω : Type}

/-- What a detour refers to: an outbound of the list, or a text that is for something else. -/
inductive Origin where
  | named (index : Nat)
  | outside (text : String)

def importOrigin (opts : List (Outbound δ ω)) (detour : String) : Origin :=
  match firstIndex opts detour with
  | some index => .named index
  | none => .outside detour

/-- The dialer options of the override come first, and the default detour is for what has none. -/
def dialerOrigin (dialerOptions : Option (DialerOptions δ)) (outboundDetour : String) (opts : List (Outbound δ ω))
    (detour : String) : Origin :=
  match dialerOptions with
  | some dialer => .outside (if dialer.detour = "" then outboundDetour else dialer.detour)
  | none => if detour = "" then .outside outboundDetour else importOrigin opts detour

/-- The runtime detour is what the origin says. -/
def Origin.Reached (prepared : List (PreparedOutbound δ ω)) (detour : String) : Origin → Prop
  | .named index => ∃ r ∈ prepared, r.position = index ∧ detour = r.tag
  | .outside text => detour = text ∧ text ∉ prepared.map PreparedOutbound.tag

/-- A text for something outside is none of these tags, with or without the tag of the provider before it. -/
def Origin.Clear (providerTag : String) (tags : List String) : Origin → Prop
  | .named _ => True
  | .outside text => text = "" ∨ text ∉ tags ∧ text ∉ tags.map fun tag => providerTag ++ "/" ++ tag

section
variable (providerTag outboundDetour : String) (rename : String → String) (dialerOptions : Option (DialerOptions δ))
  (opts : List (Outbound δ ω))

/-- The tags are distinct, and every detour of every imported outbound is what its origin says. -/
structure NamesKept (prepared : List (PreparedOutbound δ ω)) : Prop where
  distinct : (prepared.map PreparedOutbound.tag).Nodup
  kept : ∀ (i : Nat) (o : Outbound δ ω), opts[i]? = some o → ∃ r ∈ prepared, r.position = i ∧
    (∀ d, o.options.dialer = some d → ∃ d', r.runtime.options.dialer = some d' ∧
      (dialerOrigin dialerOptions outboundDetour opts d.detour).Reached prepared d'.detour) ∧
    ∀ detour, o.options.download = some detour → ∃ detour', r.runtime.options.download = some detour' ∧
      (importOrigin opts detour).Reached prepared detour'

/-- The names of the outbound are not taken for those of others: no text for something outside coincides with one of
these tags, and the detour of the override is no imported tag. -/
def Apart (tags : List String) (o : Outbound δ ω) : Prop :=
  (∀ d, o.options.dialer = some d → (∀ dialer ∈ dialerOptions, firstIndex opts dialer.detour = none) ∧
    (dialerOrigin dialerOptions outboundDetour opts d.detour).Clear providerTag tags) ∧
  ∀ detour, o.options.download = some detour → (importOrigin opts detour).Clear providerTag tags

/-- The names for something outside are apart from those that the imported tags become. -/
def NamesApart : Prop :=
  ∀ o ∈ opts, Apart providerTag outboundDetour dialerOptions opts (givenTags rename (opts.map tag)) o

end

theorem Origin.clear_congr {providerTag : String} {tags tags' : List String} (h : ∀ t, t ∈ tags ↔ t ∈ tags')
    (origin : Origin) : origin.Clear providerTag tags ↔ origin.Clear providerTag tags' := by
  cases origin with
  | named index => rfl
  | outside text => simp only [Clear, h, mem_map]

theorem applyDefaultDetour_eq (options : Options δ ω) (outboundDetour : String) :
    applyDefaultDetour options outboundDetour =
      options.mapDialer fun detour => if detour = "" then outboundDetour else detour := by
  obtain ⟨dialer, download, rest⟩ := options
  unfold applyDefaultDetour mapDialer
  cases dialer with
  | none => simp
  | some dialer =>
    obtain ⟨detour, rest⟩ := dialer
    by_cases hdetour : detour = ""
    · by_cases hdefault : outboundDetour = ""
      · simp [hdetour, hdefault]
      · simp [hdetour, hdefault]
    · simp [hdetour]

section
variable {providerTag outboundDetour : String} {dialerOptions : Option (DialerOptions δ)}
  {opts list : List (Outbound δ ω)} {tags : Tags} (hf : Filtered dialerOptions opts list tags)
include hf

/-- The reference between the two steps. -/
def Origin.between (list : List (Outbound δ ω)) : Origin → String
  | .named index => ((list[index]?).map tag).getD ""
  | .outside text => text

variable {t : String} {o : Outbound δ ω} {i j : Nat} {prepared : List (PreparedOutbound δ ω)}

theorem Filtered.getElem? (ho : opts[i]? = some o) : ∃ f, list[i]? = some f := by
  have hlt := (List.getElem?_eq_some_iff.mp ho).1
  exact ⟨_, List.getElem?_eq_getElem (hf.length ▸ hlt)⟩

theorem Filtered.qualify_named (h : firstIndex opts t = some j) :
    ∃ f, list[j]? = some f ∧ qualify tags t = f.tag := by
  obtain ⟨hne, o, ho, _⟩ := firstIndex_eq_some h
  obtain ⟨f, hlist⟩ := hf.getElem? ho
  refine ⟨f, hlist, ?_⟩
  rw [qualify, if_neg hne, hf.tags, h, Option.bind_some, hlist]
  rfl

theorem Filtered.qualify_outside (h : firstIndex opts t = none) : qualify tags t = t := by
  rw [qualify, hf.tags, h]
  simp

theorem Filtered.qualify_import (t : String) : qualify tags t = (importOrigin opts t).between list := by
  unfold importOrigin
  cases h : firstIndex opts t with
  | none => exact hf.qualify_outside h
  | some j =>
    obtain ⟨f, hlist, heq⟩ := hf.qualify_named h
    simp [Origin.between, hlist, heq]

theorem Filtered.between_dialer (hover : ∀ dialer ∈ dialerOptions, firstIndex opts dialer.detour = none)
    (outboundDetour : String) (d : DialerOptions δ) :
    (if qualify tags (dialerOptions.getD d).detour = "" then outboundDetour
      else qualify tags (dialerOptions.getD d).detour) =
      (dialerOrigin dialerOptions outboundDetour opts d.detour).between list := by
  cases dialerOptions with
  | some dialer =>
    rw [Option.getD_some, hf.qualify_outside (hover dialer rfl)]
    rfl
  | none =>
    rw [Option.getD_none]
    unfold dialerOrigin
    by_cases hempty : d.detour = ""
    · rw [if_pos hempty, if_pos]
      · rfl
      · rw [qualify, if_pos hempty, hempty]
    rw [if_neg hempty, if_neg, hf.qualify_import]
    cases hfirst : firstIndex opts d.detour with
    | none => rwa [hf.qualify_outside hfirst]
    | some j =>
      obtain ⟨f, hlist, heq⟩ := hf.qualify_named hfirst
      rw [heq]
      exact hf.named f.tag (mem_map_of_mem (mem_of_getElem? hlist))

theorem Filtered.qualify_mem (providerTag : String) (h : t ∈ list.map tag) :
    qualify (qualifiedTags providerTag list) t = providerTag ++ "/" ++ t := by
  rw [qualify, if_neg (hf.named t h), qualifiedTags_of_mem _ (hf.named t h) h]
  rfl

theorem Filtered.prepareEach_tags (providerTag outboundDetour : String) :
    (prepareEach providerTag list outboundDetour).map PreparedOutbound.tag =
      (list.map tag).map fun tag => providerTag ++ "/" ++ tag := by
  unfold prepareEach
  rw [map_map, map_map]
  conv_rhs => rw [← zipIdx_map_fst 0 list, map_map]
  refine map_congr_left fun x hx => ?_
  have hmem : x.1 ∈ list := mem_of_getElem? (mem_zipIdx_iff_getElem?.mp hx)
  exact runtimeTag_of_ne_empty hmem (hf.named _ (mem_map_of_mem hmem)) x.2

theorem Filtered.prepareEach_nodup (providerTag outboundDetour : String) :
    ((prepareEach providerTag list outboundDetour).map PreparedOutbound.tag).Nodup := by
  rw [hf.prepareEach_tags]
  exact hf.nodup.map fun t t' heq => (String.append_right_inj _).mp heq

/-- A reference arrives at what its origin says exactly when the origin is clear. -/
theorem Filtered.reached_iff (hp : prepareOutbounds providerTag list outboundDetour = .ok prepared) {origin : Origin}
    (hnamed : ∀ j, origin = .named j → j < list.length) :
    origin.Reached prepared (qualify (qualifiedTags providerTag list) (origin.between list)) ↔
      origin.Clear providerTag (list.map tag) := by
  have harranged := sortOutbounds_ok hp
  have htags := hf.prepareEach_tags providerTag outboundDetour
  cases origin with
  | named j =>
    refine iff_of_true ?_ trivial
    obtain ⟨f, hj⟩ : ∃ f, list[j]? = some f := ⟨_, List.getElem?_eq_getElem (hnamed j rfl)⟩
    have hmem : f ∈ list := mem_of_getElem? hj
    have hentry := prepareOutbound_mem hj providerTag outboundDetour
    have htag : runtimeTag providerTag (qualifiedTags providerTag list) j f = _ :=
      runtimeTag_of_ne_empty hmem (hf.named _ (mem_map_of_mem hmem)) j
    obtain ⟨r, hr, heq⟩ := mem_map.mp ((harranged.tags _).mpr (mem_map_of_mem hentry))
    have hr' := inj_on_of_nodup_map (hf.prepareEach_nodup providerTag outboundDetour) (harranged.mem r hr) hentry heq
    refine ⟨r, hr, by rw [hr']; rfl, ?_⟩
    have hbetween : (Origin.named j).between list = f.tag := by
      simp [Origin.between, hj]
    rw [hbetween, hf.qualify_mem providerTag (mem_map_of_mem hmem), heq]
    exact htag.symm
  | outside text =>
    show _ ∧ _ ↔ _ ∨ _
    rw [harranged.tags, htags]
    by_cases hempty : text = ""
    · subst hempty
      refine iff_of_true ⟨by simp [qualify, Origin.between], ?_⟩ (.inl rfl)
      simp
    rw [or_iff_right hempty]
    refine and_congr_left fun _ => ?_
    constructor
    · intro heq hmem
      rw [Origin.between, hf.qualify_mem providerTag hmem] at heq
      exact qualified_ne_self _ _ heq
    · intro hmem
      rw [Origin.between, qualify, qualifiedTags_of_not_mem hmem]
      simp

theorem Filtered.runtime_options {f : Outbound δ ω} (ho : opts[i]? = some o) (hi : list[i]? = some f)
    (providerTag outboundDetour : String) :
    let options := (prepareOutbound providerTag (qualifiedTags providerTag list) outboundDetour i f).runtime.options
    (options.dialer = o.options.dialer.map fun d =>
      { dialerOptions.getD d with
        detour := qualify (qualifiedTags providerTag list) (if qualify tags (dialerOptions.getD d).detour = ""
          then outboundDetour else qualify tags (dialerOptions.getD d).detour) }) ∧
    options.download = o.options.download.map fun detour =>
      qualify (qualifiedTags providerTag list) (qualify tags detour) := by
  rw [prepareOutbound_runtime]
  dsimp only
  rw [hf.options i o f ho hi, applyDefaultDetour_eq]
  obtain ⟨type, tag, dialer, download, rest⟩ := o
  cases dialerOptions <;> cases dialer <;> cases download <;>
    simp [mapReferences, mapDialer, overrideDialerOptions]

theorem Filtered.importOrigin_lt (h : importOrigin opts t = .named j) :
    firstIndex opts t = some j ∧ j < list.length := by
  unfold importOrigin at h
  cases hfirst : firstIndex opts t with
  | none =>
    rw [hfirst] at h
    cases h
  | some k =>
    rw [hfirst] at h
    cases h
    obtain ⟨_, o, ho, _⟩ := firstIndex_eq_some hfirst
    exact ⟨rfl, hf.length ▸ (List.getElem?_eq_some_iff.mp ho).1⟩

theorem Filtered.dialerOrigin_lt (h : dialerOrigin dialerOptions outboundDetour opts t = .named j) :
    dialerOptions = none ∧ firstIndex opts t = some j ∧ j < list.length := by
  unfold dialerOrigin at h
  cases dialerOptions with
  | some dialer => cases h
  | none =>
    dsimp only at h
    split at h
    · cases h
    · exact ⟨rfl, hf.importOrigin_lt h⟩

/-- A dependency comes from an imported detour that names an outbound of the list. -/
theorem Filtered.dependency_imported {f : Outbound δ ω} (ho : opts[i]? = some o) (hi : list[i]? = some f)
    (hapart : Apart providerTag outboundDetour dialerOptions opts (list.map tag) o)
    (ht : t ∈ (prepareOutbound providerTag (qualifiedTags providerTag list) outboundDetour i f).dependencies) :
    ∃ j ∈ importedEdges opts i, ∃ f', list[j]? = some f' ∧ t = providerTag ++ "/" ++ f'.tag := by
  obtain ⟨x, hx, hne, hknown⟩ := mem_prepareOutbound_dependencies.mp ht
  obtain ⟨_, hmem, rfl⟩ := qualifiedTags_eq_some.mp hknown
  -- a reference between the two steps that is a tag of the list has a named origin
  have hcase : ∀ origin : Origin, origin.Clear providerTag (list.map tag) → x = origin.between list →
      ∃ j, origin = .named j := by
    intro origin hclear heq
    cases origin with
    | named j => exact ⟨j, rfl⟩
    | outside text =>
      have heq : x = text := heq
      rcases hclear with hempty | ⟨hnot, _⟩
      · exact absurd (heq.trans hempty) hne
      · exact absurd (heq ▸ hmem) hnot
  have hedge : ∀ detour ∈ o.options.references, ∀ j, firstIndex opts detour = some j → j < list.length →
      x = (Origin.named j).between list → ∃ j ∈ importedEdges opts i, ∃ f', list[j]? = some f' ∧
        providerTag ++ "/" ++ x = providerTag ++ "/" ++ f'.tag := by
    intro detour hdetour j hfirst hlt heq
    obtain ⟨f', hf'⟩ : ∃ f', list[j]? = some f' := ⟨_, List.getElem?_eq_getElem hlt⟩
    refine ⟨j, ?_, f', hf', ?_⟩
    · rw [importedEdges, ho]
      exact mem_filterMap.mpr ⟨detour, hdetour, hfirst⟩
    · rw [heq]
      simp [Origin.between, hf']
  rw [hf.options i o f ho hi, applyDefaultDetour_eq, references, mem_append] at hx
  rcases hx with hx | hx
  · cases hd : o.options.dialer with
    | none =>
      cases dialerOptions <;> simp [mapDialer, mapReferences, overrideDialerOptions, hd] at hx
    | some d =>
      have hx : x = if qualify tags (dialerOptions.getD d).detour = "" then outboundDetour
          else qualify tags (dialerOptions.getD d).detour := by
        cases dialerOptions <;>
          simpa [mapDialer, mapReferences, overrideDialerOptions, hd] using hx
      obtain ⟨hover, hclear⟩ := hapart.1 d hd
      rw [hf.between_dialer hover] at hx
      obtain ⟨j, hj⟩ := hcase _ hclear hx
      obtain ⟨_, hfirst, hlt⟩ := hf.dialerOrigin_lt hj
      exact hedge d.detour (by simp [references, hd]) j hfirst hlt (hj ▸ hx)
  · cases hd : o.options.download with
    | none =>
      cases dialerOptions <;> simp [mapDialer, mapReferences, overrideDialerOptions, hd] at hx
    | some detour =>
      have hx : x = qualify tags detour := by
        cases dialerOptions <;>
          simpa [mapDialer, mapReferences, overrideDialerOptions, hd] using hx
      rw [hf.qualify_import] at hx
      obtain ⟨j, hj⟩ := hcase _ (hapart.2 detour hd) hx
      obtain ⟨hfirst, hlt⟩ := hf.importOrigin_lt hj
      exact hedge detour (by simp [references, hd]) j hfirst hlt (hj ▸ hx)

section
variable (hp : prepareOutbounds providerTag list outboundDetour = .ok prepared)
include hp

theorem Filtered.entry (ho : opts[i]? = some o) :
    ∃ f, list[i]? = some f ∧ ∀ r, r ∈ prepared ∧ r.position = i ↔
      r = prepareOutbound providerTag (qualifiedTags providerTag list) outboundDetour i f := by
  have harranged := sortOutbounds_ok hp
  obtain ⟨f, hi⟩ := hf.getElem? ho
  refine ⟨f, hi, fun r => ⟨?_, ?_⟩⟩
  · rintro ⟨hr, hposition⟩
    obtain ⟨source, index, hsource, rfl⟩ := mem_prepareEach.mp (harranged.mem r hr)
    cases (show index = i from hposition)
    rw [hi] at hsource
    cases hsource
    rfl
  · rintro rfl
    have hentry := prepareOutbound_mem hi providerTag outboundDetour
    obtain ⟨r, hr, heq⟩ := mem_map.mp ((harranged.tags _).mpr (mem_map_of_mem hentry))
    have := inj_on_of_nodup_map (hf.prepareEach_nodup providerTag outboundDetour) (harranged.mem r hr) hentry heq
    exact ⟨this ▸ hr, rfl⟩

/-- An override detour that is an imported tag ends as the runtime tag of that outbound. -/
theorem Filtered.override_captured {dialer : DialerOptions δ} (hfirst : firstIndex opts dialer.detour = some j) :
    ¬(Origin.outside (if dialer.detour = "" then outboundDetour else dialer.detour)).Reached prepared
      (qualify (qualifiedTags providerTag list) (if qualify tags dialer.detour = "" then outboundDetour
        else qualify tags dialer.detour)) := by
  obtain ⟨f, hj, heq⟩ := hf.qualify_named hfirst
  have hmem : f.tag ∈ list.map tag := mem_map_of_mem (mem_of_getElem? hj)
  rw [heq, if_neg (hf.named _ hmem), hf.qualify_mem providerTag hmem]
  rintro ⟨htext, hnot⟩
  rw [← htext, (sortOutbounds_ok hp).tags, hf.prepareEach_tags] at hnot
  exact hnot (mem_map_of_mem hmem)

end

theorem Filtered.apart_of_kept (hp : prepareOutbounds providerTag list outboundDetour = .ok prepared)
    (hkept : NamesKept outboundDetour dialerOptions opts prepared) (ho : o ∈ opts) :
    Apart providerTag outboundDetour dialerOptions opts (list.map tag) o := by
  obtain ⟨i, hi⟩ := mem_iff_getElem?.mp ho
  obtain ⟨f, hf', hentry⟩ := hf.entry hp hi
  obtain ⟨r, hr, hposition, hdialer, hdownload⟩ := hkept.kept i o hi
  cases (hentry r).mp ⟨hr, hposition⟩
  obtain ⟨hdialer', hdownload'⟩ := hf.runtime_options hi hf' providerTag outboundDetour
  refine ⟨fun d hd => ?_, fun detour hd => ?_⟩
  · obtain ⟨d', hd', hreached⟩ := hdialer d hd
    rw [hdialer', hd, Option.map_some] at hd'
    cases hd'
    have hover : ∀ dialer ∈ dialerOptions, firstIndex opts dialer.detour = none := by
      rintro dialer hdialer
      cases (show dialerOptions = some dialer from hdialer)
      cases hfirst : firstIndex opts dialer.detour with
      | none => rfl
      | some j => exact absurd hreached (hf.override_captured hp hfirst)
    rw [hf.between_dialer hover] at hreached
    exact ⟨hover, (hf.reached_iff hp fun j hj => (hf.dialerOrigin_lt hj).2.2).mp hreached⟩
  · obtain ⟨detour', hd', hreached⟩ := hdownload detour hd
    rw [hdownload', hd, Option.map_some] at hd'
    cases hd'
    rw [hf.qualify_import] at hreached
    exact (hf.reached_iff hp fun j hj => (hf.importOrigin_lt hj).2).mp hreached

section
variable (hapart : ∀ o ∈ opts, Apart providerTag outboundDetour dialerOptions opts (list.map tag) o)
include hapart

/-- The runtime graph is a part of the imported one. -/
theorem Filtered.acyclic (h : DepthFirst.Acyclic (importedEdges opts)) :
    DepthFirst.Acyclic (internalDependencies (prepareEach providerTag list outboundDetour)) := by
  intro v hv
  refine h _ (hv.lift (fun t => ((list.map tag).map fun tag => providerTag ++ "/" ++ tag).idxOf t) ?_)
  intro a b hab
  have hnodup := hf.prepareEach_nodup providerTag outboundDetour
  rw [hf.prepareEach_tags] at hnodup
  -- the runtime tag of the outbound at an index has that index
  have hindex : ∀ (j : Nat) (f : Outbound δ ω), list[j]? = some f →
      ((list.map tag).map fun tag => providerTag ++ "/" ++ tag).idxOf (providerTag ++ "/" ++ f.tag) = j := by
    intro j f hj
    have hget : ((list.map tag).map fun tag => providerTag ++ "/" ++ tag)[j]? =
        some (providerTag ++ "/" ++ f.tag) := by
      rw [List.getElem?_map, List.getElem?_map, hj]
      rfl
    obtain ⟨hlt, heq⟩ := List.getElem?_eq_some_iff.mp hget
    rw [← heq]
    exact hnodup.idxOf_getElem j hlt
  obtain ⟨o, ho⟩ : ∃ o, preparedByTag (prepareEach providerTag list outboundDetour) a = some o := by
    cases ho : preparedByTag (prepareEach providerTag list outboundDetour) a with
    | some o => exact ⟨o, rfl⟩
    | none =>
      simp [DepthFirst.Edge, internalDependencies, ho] at hab
  obtain ⟨hb, _⟩ := (mem_internalDependencies ho).mp hab
  obtain ⟨hmem, rfl⟩ := preparedByTag_mem ho
  obtain ⟨f, i, hi, rfl⟩ := mem_prepareEach.mp hmem
  obtain ⟨o, hoi⟩ : ∃ o, opts[i]? = some o :=
    ⟨_, List.getElem?_eq_getElem (hf.length ▸ (List.getElem?_eq_some_iff.mp hi).1)⟩
  obtain ⟨j, hj, f', hf', rfl⟩ := hf.dependency_imported hoi hi (hapart o (mem_of_getElem? hoi)) hb
  have hfmem := mem_of_getElem? hi
  have htag : (prepareOutbound providerTag (qualifiedTags providerTag list) outboundDetour i f).tag = _ :=
    runtimeTag_of_ne_empty hfmem (hf.named _ (mem_map_of_mem hfmem)) i
  show _ ∈ importedEdges opts _
  dsimp only
  rw [htag, hindex i f hi, hindex j f' hf']
  exact hj

theorem Filtered.kept_of_apart {prepared : List (PreparedOutbound δ ω)}
    (hp : prepareOutbounds providerTag list outboundDetour = .ok prepared) :
    NamesKept outboundDetour dialerOptions opts prepared := by
  refine ⟨(sortOutbounds_ok hp).nodup, fun i o ho => ?_⟩
  obtain ⟨f, hi, hentry⟩ := hf.entry hp ho
  obtain ⟨hr, hposition⟩ := (hentry _).mpr rfl
  obtain ⟨hdialer, hdownload⟩ := hf.runtime_options ho hi providerTag outboundDetour
  obtain ⟨hapartDialer, hapartDownload⟩ := hapart o (mem_of_getElem? ho)
  refine ⟨_, hr, hposition, fun d hd => ?_, fun detour hd => ?_⟩
  · obtain ⟨hover, hclear⟩ := hapartDialer d hd
    refine ⟨_, by rw [hdialer, hd, Option.map_some], ?_⟩
    dsimp only
    rw [hf.between_dialer hover]
    exact (hf.reached_iff hp fun j hj => (hf.dialerOrigin_lt hj).2.2).mpr hclear
  · refine ⟨_, by rw [hdownload, hd, Option.map_some], ?_⟩
    rw [hf.qualify_import]
    exact (hf.reached_iff hp fun j hj => (hf.importOrigin_lt hj).2).mpr (hapartDownload detour hd)

end

end

/-- Names keep their meaning through `FilterOutbounds` and `prepareOutbounds` exactly when those for
something outside the list are apart from those that the imported tags become. -/
theorem names_kept_iff_apart (providerTag outboundDetour : String) (rename : String → String)
    (dialerOptions : Option (DialerOptions δ)) (opts : List (Outbound δ ω))
    (hacyclic : DepthFirst.Acyclic (importedEdges opts)) :
    (∃ prepared, prepareOutbounds providerTag (filterOutbounds rename dialerOptions opts) outboundDetour =
        .ok prepared ∧ NamesKept outboundDetour dialerOptions opts prepared) ↔
      NamesApart providerTag outboundDetour rename dialerOptions opts := by
  obtain ⟨tags, hf⟩ := filtered rename dialerOptions hacyclic
  simp only [NamesApart, Apart, ← Origin.clear_congr (mem_filterOutbounds_tags rename dialerOptions hacyclic)]
  constructor
  · rintro ⟨prepared, hp, hkept⟩ o ho
    exact hf.apart_of_kept hp hkept ho
  intro hapart
  have hruntime : DepthFirst.Acyclic (internalDependencies (prepareEach providerTag
      (filterOutbounds rename dialerOptions opts) outboundDetour)) := hf.acyclic hapart hacyclic
  obtain ⟨order, horder⟩ := DepthFirst.sort_of_acyclic internalDependencies_closed hruntime
  refine ⟨order.filterMap (preparedByTag (prepareEach providerTag (filterOutbounds rename dialerOptions opts)
    outboundDetour)), ?_, hf.kept_of_apart hapart ?_⟩
  · rw [prepareOutbounds, sortOutbounds, horder]
  · rw [prepareOutbounds, sortOutbounds, horder]

def single : List (Outbound Unit Unit) :=
  [{ type := "socks", tag := "a",
     options := { dialer := some { detour := "", rest := () }, download := none, rest := () } }]

theorem single_acyclic : DepthFirst.Acyclic (importedEdges single) := by
  intro v hv
  obtain ⟨w, hw, _⟩ := Relation.TransGen.head'_iff.mp hv
  cases v with
  | zero | succ => cases hw

theorem names_kept_iff_apart_single :
    ∃ prepared, prepareOutbounds "p" (filterOutbounds id (some { detour := "b", rest := () }) single) "" =
      .ok prepared ∧ NamesKept "" (some { detour := "b", rest := () }) single prepared := by
  refine (names_kept_iff_apart "p" "" id (some { detour := "b", rest := () }) single single_acyclic).mpr ?_
  intro o ho
  cases mem_singleton.mp ho
  refine ⟨fun d _ => ⟨?_, .inr ⟨by decide +kernel, by decide +kernel⟩⟩, nofun⟩
  rintro dialer ⟨⟩
  rfl

/-- The override names an outbound `a` that is not in the list, and the list has one: it dials
through itself. -/
theorem override_detour_captured :
    DepthFirst.Acyclic (importedEdges single) ∧
      prepareOutbounds "p" (filterOutbounds id (some { detour := "a", rest := () }) single) "" =
        .error "circular provider outbound dependency at p/a" :=
  ⟨single_acyclic, rfl⟩

end SingBox.Provider
