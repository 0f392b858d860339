import Mathlib.Logic.Function.Basic
import Mathlib.Data.List.Basic

/-!
# Outbound options and the outbounds they name

Options name other outbounds in two places: the detour of the dialer options, and the
detour of the XHTTP download. `rewriteOutboundReferences` passes both through a map of
tags and collects what the map knows. The rest of the options is opaque.
-/
namespace SingBox.Provider

structure DialerOptions (δ : Type) where
  detour : String
  rest : δ
  deriving DecidableEq

/-- `dialer` is there for options that wrap dialer options, `download` is the detour of the download
of a VLESS, VMess or Trojan outbound with an XHTTP transport. -/
structure Options (δ ω : Type) where
  dialer : Option (DialerOptions δ)
  download : Option String
  rest : ω
  deriving DecidableEq

structure Outbound (δ ω : Type) where
  type : String
  tag : String
  options : Options δ ω
  deriving DecidableEq

/-- A `map[string]string`. -/
abbrev Tags := String → Option String

variable {δ ω : Type}

def addDependency (tags : Tags) (dependencies : List String) (tag : String) : String × List String :=
  match tags tag with
  | none => (tag, dependencies)
  | some qualified =>
    if tag = "" then (tag, dependencies)
    else if qualified ∈ dependencies then (qualified, dependencies)
    else (qualified, dependencies ++ [qualified])

def rewriteOutboundReferences (options : Options δ ω) (tags : Tags) : Options δ ω × List String :=
  let (dialer, dependencies) := match options.dialer with
    | none => (none, [])
    | some dialer =>
      let (detour, dependencies) := addDependency tags [] dialer.detour
      (some { dialer with detour := detour }, dependencies)
  let (download, dependencies) := match options.download with
    | none => (none, dependencies)
    | some detour =>
      let (detour, dependencies) := addDependency tags dependencies detour
      (some detour, dependencies)
  ({ options with dialer := dialer, download := download }, dependencies)

/-- The name a reference gets. -/
def qualify (tags : Tags) (tag : String) : String := if tag = "" then tag else (tags tag).getD tag

namespace Options

def references (options : Options δ ω) : List String :=
  (options.dialer.map DialerOptions.detour).toList ++ options.download.toList

def mapDialer (f : String → String) (options : Options δ ω) : Options δ ω :=
  { options with dialer := options.dialer.map fun dialer => { dialer with detour := f dialer.detour } }

def mapReferences (f : String → String) (options : Options δ ω) : Options δ ω :=
  { options.mapDialer f with download := options.download.map f }

end Options

theorem addDependency_fst (tags : Tags) (dependencies : List String) (tag : String) :
    (addDependency tags dependencies tag).1 = qualify tags tag := by
  unfold addDependency qualify
  cases tags tag with
  | none => simp
  | some qualified =>
    dsimp only [Option.getD_some]
    split
    · rfl
    · split <;> rfl

theorem mem_addDependency {tags : Tags} {dependencies : List String} {tag d : String} :
    d ∈ (addDependency tags dependencies tag).2 ↔ d ∈ dependencies ∨ (tag ≠ "" ∧ tags tag = some d) := by
  unfold addDependency
  cases htag : tags tag with
  | none => simp
  | some qualified =>
    dsimp only
    split
    next hempty => simp [hempty]
    next hempty =>
      rw [Option.some.injEq]
      split
      next hknown =>
        refine ⟨.inl, fun h => h.elim id ?_⟩
        rintro ⟨_, rfl⟩
        exact hknown
      next => simp [hempty, eq_comm]

theorem rewriteOutboundReferences_fst (options : Options δ ω) (tags : Tags) :
    (rewriteOutboundReferences options tags).1 = options.mapReferences (qualify tags) := by
  obtain ⟨dialer, download, rest⟩ := options
  cases dialer <;> cases download <;>
    simp [rewriteOutboundReferences, Options.mapReferences, Options.mapDialer, addDependency_fst]

/-- The dependencies are the references that the map knows. -/
theorem mem_rewriteOutboundReferences_snd {options : Options δ ω} {tags : Tags} {d : String} :
    d ∈ (rewriteOutboundReferences options tags).2 ↔ ∃ t ∈ options.references, t ≠ "" ∧ tags t = some d := by
  obtain ⟨dialer, download, rest⟩ := options
  cases dialer <;> cases download <;>
    simp [rewriteOutboundReferences, Options.references, mem_addDependency]

end SingBox.Provider
