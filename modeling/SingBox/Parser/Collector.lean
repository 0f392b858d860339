import Mathlib.Data.List.Basic

/-!
# The collector of a subscription's servers

What every parser of a subscription hands its entries to. Names are of an arbitrary type `τ`, outbounds of a
type `ω` with a detour that may be replaced.
-/
namespace SingBox.Parser

structure Skipped (τ : Type) where
  label : τ
  reason : τ
  deriving DecidableEq

structure Result (τ ω : Type) where
  outbounds : List ω
  skipped : List (Skipped τ)
  refused : List τ
  deriving DecidableEq

structure Collector (τ ω : Type) where
  outbounds : List ω
  skipped : List (Skipped τ)
  refused : List τ
  direct : List τ
  taken : List τ
  deriving DecidableEq

namespace Collector

variable {τ ω : Type}

def new : Collector τ ω := ⟨[], [], [], [], []⟩

def add (c : Collector τ ω) (outbound : ω) : Collector τ ω := { c with outbounds := c.outbounds ++ [outbound] }

/-- `Skip`; an entry without a tag is `none`. -/
def skip (c : Collector τ ω) (tag : Option τ) (label reason : τ) : Collector τ ω :=
  { c with refused := tag.toList ++ c.refused, skipped := c.skipped ++ [⟨label, reason⟩] }

@[simp] theorem outbounds_add (c : Collector τ ω) (outbound : ω) :
    (c.add outbound).outbounds = c.outbounds ++ [outbound] := rfl

@[simp] theorem outbounds_skip (c : Collector τ ω) (tag : Option τ) (label reason : τ) :
    (c.skip tag label reason).outbounds = c.outbounds := rfl

/-- `Result`: dialling through a plain connection is dialling directly. -/
def result [DecidableEq τ] (detour : ω → Option τ) (dropDetour : ω → ω) (c : Collector τ ω) : Result τ ω where
  outbounds := c.outbounds.map fun outbound =>
    match detour outbound with
    | none => outbound
    | some tag => if tag ∈ c.direct then dropDetour outbound else outbound
  skipped := c.skipped
  refused := c.refused

end Collector

end SingBox.Parser
