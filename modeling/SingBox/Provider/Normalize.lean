import SingBox.Lib.Fresh
import SingBox.Provider.Valid

/-!
# What `FilterOutbounds` makes of a list

Without cycles nothing is dropped. Every outbound gets a tag that no other has, and the map
that the detours go through knows, for every imported tag, the new tag of the first outbound
that had it.
-/
namespace SingBox.Provider

open Lib List Function Outbound

variable {δ ω : Type}

section
variable {opts : List (Outbound δ ω)}

/-- The outbounds `isValid` goes to are those that the references name. -/
theorem importedEdges_of_dialsThrough {i j : Nat} (h : DialsThrough opts i j) : j ∈ importedEdges opts i := by
  obtain ⟨o, ho, t, ht, hmeans⟩ := h
  simp only [importedEdges, ho, Option.map_some, Option.getD_some]
  exact mem_filterMap.mpr ⟨t, ht, firstIndex_eq_some_iff.mpr hmeans⟩

theorem filterInvalidOutbounds_of_acyclic (h : DepthFirst.Acyclic (importedEdges opts)) :
    filterInvalidOutbounds opts [] = opts := by
  have hintact : ∀ i, IntactOf opts [] i := fun i => intactOf_iff.mpr fun j _ =>
    ⟨fun _ _ _ _ _ => not_mem_nil, fun hcycle => h j (.mono (fun _ _ => importedEdges_of_dialsThrough) _ _ hcycle)⟩
  simp [filterInvalidOutbounds, filterInvalidOutboundsWithSkipped_eq, hintact]

end

section
variable {used : List String} {base : String}

theorem numberTag_eq (used : List String) (base : String) (fuel index : Nat) :
    numberTag used base fuel index = firstFree (fun n : Nat => s!"{base} #{n}") used fuel index := by
  induction fuel generalizing index with
  | zero => rfl
  | succ fuel ih => rw [numberTag, firstFree, ih]

theorem numberTag_not_mem (index : Nat) : numberTag used base used.length index ∉ used := by
  rw [numberTag_eq]
  exact firstFree_not_mem (numbered_injective (base ++ " #")) used index

theorem freeTag_not_mem (used : List String) (tag : String) : freeTag used tag ∉ used := by
  unfold freeTag
  split
  · exact numberTag_not_mem 2
  · assumption

theorem freeTag_ne_empty (used : List String) {tag : String} (h : tag ≠ "") : freeTag used tag ≠ "" := by
  unfold freeTag
  split
  · obtain ⟨n, heq, _⟩ := firstFree_eq (fun n : Nat => s!"{tag} #{n}") used used.length 2
    rw [numberTag_eq, heq]
    intro hempty
    have := congrArg String.length hempty
    simp at this
  · exact h

end

theorem firstIndex_concat (l : List (Outbound δ ω)) (o : Outbound δ ω) (t : String) :
    firstIndex (l ++ [o]) t = (firstIndex l t).or (if t ≠ "" ∧ o.tag = t then some l.length else none) := by
  unfold firstIndex
  by_cases hne : t = ""
  · simp [hne]
  · by_cases ht : o.tag = t
    · simp [hne, ht, List.findIdx?_append]
    · simp [hne, ht, List.findIdx?_append]

/-- What the first loop of `normalizeOutboundTags` has built from the outbounds it has seen. -/
structure Normalized (seen : List (Outbound δ ω × Nat)) (s : Normalizing δ ω) : Prop where
  used : ∀ t, t ∈ s.used ↔ t ∈ s.opts.map tag
  nodup : (s.opts.map tag).Nodup
  named : ∀ t ∈ s.opts.map tag, t ≠ ""
  options : s.opts.map options = seen.map fun opt => opt.1.options
  tags : ∀ t, s.tags t = (firstIndex (seen.map Prod.fst) t).bind fun j => (s.opts[j]?).map tag

variable {seen : List (Outbound δ ω × Nat)} {s : Normalizing δ ω}

theorem Normalized.length (h : Normalized seen s) :
    s.opts.length = seen.length := by
  have := congrArg List.length h.options
  simpa using this

theorem Normalized.next {rename : String → String} (h : Normalized seen s) (opt : Outbound δ ω × Nat) :
    Normalized (seen ++ [opt]) (s.next rename opt) := by
  obtain ⟨tag, htag⟩ : ∃ tag, (s.next rename opt).used = tag :: s.used := ⟨_, rfl⟩
  have hopts : (s.next rename opt).opts = s.opts ++ [{ opt.1 with tag := tag }] := by
    rw [← (List.cons.inj htag).1]
    rfl
  have htags : (s.next rename opt).tags = if opt.1.tag ≠ "" ∧ s.tags opt.1.tag = none then
      update s.tags opt.1.tag (some tag) else s.tags := by
    rw [← (List.cons.inj htag).1]
    rfl
  have hfree : tag ∉ s.used := by
    rw [← (List.cons.inj htag).1]
    exact freeTag_not_mem _ _
  have hne : tag ≠ "" := by
    rw [← (List.cons.inj htag).1]
    refine freeTag_ne_empty _ ?_
    split
    · intro hempty
      have := congrArg String.length hempty
      simp at this
    · assumption
  refine ⟨fun t => ?_, ?_, ?_, ?_, fun t => ?_⟩
  · rw [htag, hopts, mem_cons, h.used]
    simp [or_comm]
  · rw [hopts, map_append, nodup_append]
    refine ⟨h.nodup, by simp, fun t ht t' ht' => ?_⟩
    rintro rfl
    have heq : t = tag := mem_singleton.mp ht'
    exact hfree ((h.used tag).mpr (heq ▸ ht))
  · intro t ht
    rw [hopts, map_append, mem_append] at ht
    rcases ht with ht | ht
    · exact h.named t ht
    · rw [mem_singleton.mp ht]
      exact hne
  · rw [hopts]
    simp [h.options]
  · rw [htags, hopts, map_append, map_singleton, firstIndex_concat, length_map, ← h.length]
    have hold := h.tags t
    cases hfirst : firstIndex (seen.map Prod.fst) t with
    | some j =>
      -- the name was given before
      obtain ⟨_, o, ho, _⟩ := firstIndex_eq_some hfirst
      have hlt : j < s.opts.length := by
        have := (List.getElem?_eq_some_iff.mp ho).1
        rwa [length_map, ← h.length] at this
      rw [hfirst, Option.bind_some, List.getElem?_eq_getElem hlt] at hold
      have hkept : (if opt.1.tag ≠ "" ∧ s.tags opt.1.tag = none then update s.tags opt.1.tag (some tag)
          else s.tags) t = s.tags t := by
        split
        next hnew =>
          refine update_of_ne ?_ _ _
          rintro rfl
          rw [hold] at hnew
          cases hnew.2
        next => rfl
      rw [hkept, hold, Option.some_or, Option.bind_some, List.getElem?_append_left hlt, List.getElem?_eq_getElem hlt]
    | none =>
      rw [hfirst, Option.bind_none] at hold
      rw [Option.none_or]
      by_cases ht : t ≠ "" ∧ opt.1.tag = t
      · obtain ⟨hne', rfl⟩ := ht
        rw [if_pos ⟨hne', hold⟩, if_pos ⟨hne', rfl⟩, update_self]
        simp
      rw [if_neg ht, Option.bind_none]
      split
      next hnew =>
        rw [update_of_ne, hold]
        rintro rfl
        exact ht ⟨hnew.1, rfl⟩
      next => exact hold

theorem normalized (rename : String → String) (opts : List (Outbound δ ω)) :
    Normalized opts.zipIdx (normalizing rename opts) := by
  refine foldl_seen (fun s seen => Normalized seen s) (fun s seen opt h => h.next opt) opts.zipIdx ?_
  exact ⟨by simp, by simp, by simp, rfl, fun t => by simp [firstIndex]⟩

/-- The names that tags become, the last first: what the renaming leaves of a tag, or the number of its place where
nothing is left, numbered again where the name is taken. -/
def givenTags (rename : String → String) (tags : List String) : List String :=
  tags.zipIdx.foldl (fun given tag =>
    freeTag given (if rename tag.1 = "" then s!"Node #{tag.2 + 1}" else rename tag.1) :: given) []

theorem normalizing_used (rename : String → String) (opts : List (Outbound δ ω)) :
    (normalizing rename opts).used = givenTags rename (opts.map tag) := by
  rw [givenTags, zipIdx_map, foldl_map, normalizing]
  exact (foldl_hom Normalizing.used fun _ _ => rfl).symm

theorem mem_filterOutbounds_tags (rename : String → String) (dialerOptions : Option (DialerOptions δ))
    {opts : List (Outbound δ ω)} (h : DepthFirst.Acyclic (importedEdges opts)) (t : String) :
    t ∈ (filterOutbounds rename dialerOptions opts).map tag ↔ t ∈ givenTags rename (opts.map tag) := by
  have htags : (opts.map (overrideDialerOptions dialerOptions)).map tag = opts.map tag := by
    rw [map_map]
    cases dialerOptions <;> rfl
  rw [filterOutbounds, filterInvalidOutbounds_of_acyclic h, normalizeOutboundTags, map_map, ← htags,
    ← normalizing_used, (normalized rename _).used]
  rfl

/-- What `FilterOutbounds` makes of an imported list, with the map its detours went through. -/
structure Filtered (dialerOptions : Option (DialerOptions δ)) (opts filtered : List (Outbound δ ω)) (tags : Tags) :
    Prop where
  nodup : (filtered.map tag).Nodup
  named : ∀ t ∈ filtered.map tag, t ≠ ""
  length : filtered.length = opts.length
  options : ∀ (i : Nat) (o f : Outbound δ ω), opts[i]? = some o → filtered[i]? = some f →
    f.options = (overrideDialerOptions dialerOptions o).options.mapReferences (qualify tags)
  tags : ∀ t, tags t = (firstIndex opts t).bind fun j => (filtered[j]?).map tag

theorem filtered (rename : String → String) (dialerOptions : Option (DialerOptions δ)) {opts : List (Outbound δ ω)}
    (h : DepthFirst.Acyclic (importedEdges opts)) :
    ∃ tags, Filtered dialerOptions opts (filterOutbounds rename dialerOptions opts) tags := by
  unfold filterOutbounds
  rw [filterInvalidOutbounds_of_acyclic h]
  generalize hopts : opts.map (overrideDialerOptions dialerOptions) = overridden
  have hn := normalized rename overridden
  have htags : (normalizeOutboundTags rename overridden).map tag =
      (normalizing rename overridden).opts.map tag := by
    rw [normalizeOutboundTags, map_map]
    rfl
  refine ⟨(normalizing rename overridden).tags, htags ▸ hn.nodup, htags ▸ hn.named, ?_, fun i o f ho hf => ?_,
    fun t => ?_⟩
  · rw [normalizeOutboundTags, length_map, hn.length, length_zipIdx, ← hopts, length_map]
  · rw [normalizeOutboundTags, List.getElem?_map, Option.map_eq_some_iff] at hf
    obtain ⟨f', hf', rfl⟩ := hf
    have hover : overridden[i]? = some (overrideDialerOptions dialerOptions o) := by
      rw [← hopts, List.getElem?_map, ho]
      rfl
    have hoptions := congrArg (fun l : List (Options δ ω) => l[i]?) hn.options
    simp only [List.getElem?_map, hf', List.getElem?_zipIdx, hover, Option.map_some, Option.some.injEq] at hoptions
    rw [rewriteOutboundReferences_fst, hoptions]
  · have hfirst : firstIndex overridden t = firstIndex opts t := by
      rw [firstIndex, ← hopts, List.findIdx?_map]
      cases dialerOptions <;> rfl
    rw [hn.tags, zipIdx_map_fst, hfirst]
    refine Option.bind_congr fun j _ => ?_
    rw [normalizeOutboundTags, List.getElem?_map, Option.map_map]
    rfl

end SingBox.Provider
