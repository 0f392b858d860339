import SingBox.Provider.Prepare

/-!
# Imported outbounds under the provider's override

`FilterOutbounds` without name filters and patches: chains through broken entries are
dropped, the dialer options of the override replace those that were imported, and
`normalizeOutboundTags` renames every outbound, numbers what is taken, and lets the
detours follow.
-/
namespace SingBox.Provider

open Lib Function

variable {δ ω : Type}

/-- `knownTags` of `FilterInvalidOutboundsWithSkipped`. -/
def knownTags (outbounds : List (Outbound δ ω)) (invalidTags : List String) : Tags := fun tag =>
  if tag ∈ invalidTags ∨ tag ≠ "" ∧ tag ∈ outbounds.map Outbound.tag then some tag else none

/-- `byTag`: the first outbound with the tag. -/
def firstIndex (outbounds : List (Outbound δ ω)) (tag : String) : Option Nat :=
  if tag = "" then none else outbounds.findIdx? fun outbound => outbound.tag == tag

section
variable {opts : List (Outbound δ ω)} {tag : String}

/-- The name means the outbound: it is the first with this tag. -/
def Means (outbounds : List (Outbound δ ω)) (tag : String) (index : Nat) : Prop :=
  tag ≠ "" ∧ (∃ o, outbounds[index]? = some o ∧ o.tag = tag) ∧ ∀ i < index, ∀ o, outbounds[i]? = some o → o.tag ≠ tag

theorem firstIndex_eq_some_iff {index : Nat} : firstIndex opts tag = some index ↔ Means opts tag index := by
  unfold firstIndex Means
  by_cases hne : tag = ""
  · simp [hne]
  rw [if_neg hne, List.findIdx?_eq_some_iff_getElem]
  constructor
  · rintro ⟨hlt, htag, hfirst⟩
    refine ⟨hne, ⟨opts[index], List.getElem?_eq_getElem hlt, by simpa using htag⟩, fun i hi o ho => ?_⟩
    obtain ⟨_, rfl⟩ := List.getElem?_eq_some_iff.mp ho
    simpa using hfirst i hi
  · rintro ⟨_, ⟨o, ho, rfl⟩, hfirst⟩
    obtain ⟨hlt, rfl⟩ := List.getElem?_eq_some_iff.mp ho
    exact ⟨hlt, by simp, fun i hi => by simpa using hfirst i hi _ (List.getElem?_eq_getElem (hi.trans hlt))⟩

theorem firstIndex_eq_some {index : Nat} (h : firstIndex opts tag = some index) :
    tag ≠ "" ∧ ∃ o, opts[index]? = some o ∧ o.tag = tag :=
  ⟨(firstIndex_eq_some_iff.mp h).1, (firstIndex_eq_some_iff.mp h).2.1⟩

theorem firstIndex_eq_none : firstIndex opts tag = none ↔ tag = "" ∨ tag ∉ opts.map Outbound.tag := by
  unfold firstIndex
  by_cases hne : tag = ""
  · simp [hne]
  · rw [if_neg hne, List.findIdx?_eq_none_iff]
    simp [hne]

end

inductive Validity where
  | unknown
  | visiting
  | valid
  | invalid
  deriving DecidableEq

section
variable (dependencies : Nat → List String) (invalidTags : List String) (byTag : String → Option Nat)

/-- The loop of `isValid` over the dependencies of one outbound, up to the first that is not valid. -/
def allValid (isValid : Nat → (Nat → Validity) → Bool × (Nat → Validity)) :
    List String → (Nat → Validity) → Bool × (Nat → Validity)
  | [], states => (true, states)
  | dependency :: rest, states =>
    if dependency ∈ invalidTags then (false, states)
    else
      match byTag dependency with
      | none => allValid isValid rest states
      | some index =>
        match isValid index states with
        | (false, states) => (false, states)
        | (true, states) => allValid isValid rest states

def isValid : Nat → Nat → (Nat → Validity) → Bool × (Nat → Validity)
  | 0, _, states => (false, states)
  | fuel + 1, index, states =>
    match states index with
    | .visiting => (false, states)
    | .invalid => (false, states)
    | .valid => (true, states)
    | .unknown =>
      match allValid invalidTags byTag (isValid fuel) (dependencies index)
        (update states index .visiting) with
      | (false, states) => (false, update states index .invalid)
      | (true, states) => (true, update states index .valid)

end

/-- The loop of `FilterInvalidOutboundsWithSkipped` over the outbounds. -/
def keepValid (check : Nat → (Nat → Validity) → Bool × (Nat → Validity))
    (acc : (List (Outbound δ ω) × List (Outbound δ ω)) × (Nat → Validity)) (outbound : Outbound δ ω × Nat) :
    (List (Outbound δ ω) × List (Outbound δ ω)) × (Nat → Validity) :=
  match check outbound.2 acc.2 with
  | (true, states) => ((acc.1.1 ++ [outbound.1], acc.1.2), states)
  | (false, states) => ((acc.1.1, acc.1.2 ++ [outbound.1]), states)

/-- `dependencies`, by index. -/
def knownDependencies (outbounds : List (Outbound δ ω)) (invalidTags : List String) (index : Nat) : List String :=
  ((outbounds[index]?).map fun outbound =>
    (rewriteOutboundReferences outbound.options (knownTags outbounds invalidTags)).2).getD []

def filterInvalidOutboundsWithSkipped (outbounds : List (Outbound δ ω)) (invalidTags : List String) :
    List (Outbound δ ω) × List (Outbound δ ω) :=
  let check := isValid (knownDependencies outbounds invalidTags) invalidTags (firstIndex outbounds)
    (outbounds.length + 1)
  (outbounds.zipIdx.foldl (keepValid check) (([], []), fun _ => .unknown)).1

def filterInvalidOutbounds (outbounds : List (Outbound δ ω)) (invalidTags : List String) : List (Outbound δ ω) :=
  (filterInvalidOutboundsWithSkipped outbounds invalidTags).1

/-- The loop over `index`, which is left at the first name that is free. -/
def numberTag (used : List String) (base : String) : Nat → Nat → String
  | 0, index => s!"{base} #{index}"
  | fuel + 1, index =>
    let tag := s!"{base} #{index}"
    if tag ∈ used then numberTag used base fuel (index + 1) else tag

def freeTag (used : List String) (tag : String) : String :=
  if tag ∈ used then numberTag used tag used.length 2 else tag

/-- The variables of the first loop of `normalizeOutboundTags`. -/
structure Normalizing (δ ω : Type) where
  used : List String
  tags : Tags
  opts : List (Outbound δ ω)

/-- The body of the loop; `rename` is what emoji removal and the override make of a tag. -/
def Normalizing.next (rename : String → String) (s : Normalizing δ ω) (opt : Outbound δ ω × Nat) :
    Normalizing δ ω :=
  let renamed := rename opt.1.tag
  let named := if renamed = "" then s!"Node #{opt.2 + 1}" else renamed
  let tag := freeTag s.used named
  { used := tag :: s.used
    tags := if opt.1.tag ≠ "" ∧ s.tags opt.1.tag = none then update s.tags opt.1.tag (some tag) else s.tags
    opts := s.opts ++ [{ opt.1 with tag := tag }] }

def normalizing (rename : String → String) (opts : List (Outbound δ ω)) : Normalizing δ ω :=
  opts.zipIdx.foldl (Normalizing.next rename) { used := [], tags := fun _ => none, opts := [] }

def normalizeOutboundTags (rename : String → String) (opts : List (Outbound δ ω)) : List (Outbound δ ω) :=
  let s := normalizing rename opts
  s.opts.map fun outbound => { outbound with options := (rewriteOutboundReferences outbound.options s.tags).1 }

/-- `override_dialer_options` replaces the dialer options of what has some. -/
def overrideDialerOptions (dialerOptions : Option (DialerOptions δ)) (outbound : Outbound δ ω) : Outbound δ ω :=
  match dialerOptions with
  | none => outbound
  | some dialer =>
    { outbound with options := { outbound.options with dialer := outbound.options.dialer.map fun _ => dialer } }

/-- `FilterOutbounds` without excluded types, name filters and a patch; nothing can fail then. -/
def filterOutbounds (rename : String → String) (dialerOptions : Option (DialerOptions δ))
    (opts : List (Outbound δ ω)) : List (Outbound δ ω) :=
  normalizeOutboundTags rename ((filterInvalidOutbounds opts []).map (overrideDialerOptions dialerOptions))

/-- The outbounds of an imported list that an outbound dials through. -/
def importedEdges (opts : List (Outbound δ ω)) (index : Nat) : List Nat :=
  ((opts[index]?).map fun outbound => outbound.options.references.filterMap (firstIndex opts)).getD []

end SingBox.Provider
