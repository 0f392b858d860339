import SingBox.DNS.Sequential

/-!
# What the walk has bound

The futures of a walk, seen as the exchanges a scene consists of. Callbacks and
`settleDNSFutures` change flags of futures only; a settled future has put its response
under its tag.
-/
namespace SingBox.DNS

open List Function Option Evaluated

variable {τ ε ρ ι : Type}

def Future.evaluated (f : Future τ ε ρ) : Evaluated τ ε ρ := ⟨f.transport, f.outcome⟩

namespace Walk

variable (w : Walk τ ε ρ ι)

def evaluated (i : Nat) : Option (Evaluated τ ε ρ) := w.futures[i]?.map Future.evaluated

def tagOf (i : Nat) : Option String := w.futures[i]?.map Future.tag

def settledAt (i : Nat) : Bool := w.futures[i]?.any Future.settled

/-- The options and exchanges bound so far, complete or not. -/
def scene : Scene τ ε ρ where
  options := w.effectiveOptions
  anonymous := w.anonymousFuture.bind w.evaluated
  named t := (w.namedFutures t).bind w.evaluated

/-- The references of a walk are right, and so are the responses filed under tags. -/
structure Bound : Prop where
  tagged : ∀ i t, w.tagOf i = some t → t ≠ "" → w.namedFutures t = some i
  named : ∀ t i, w.namedFutures t = some i → w.tagOf i = some t ∧ t ≠ ""
  anonymous : ∀ i, w.anonymousFuture = some i → i < w.futures.length
  responses : ∀ t i, w.namedFutures t = some i →
    w.namedResponses t = if w.settledAt i then (w.evaluated i).bind response else none
  transports : ∀ t i, w.namedFutures t = some i → w.settledAt i = true →
    w.namedTransports t = (w.evaluated i).map transport
  absent : ∀ t, w.namedFutures t = none → w.namedResponses t = none
  done : ∀ i, w.settledAt i = true → w.resolved i = true

theorem Bound.same {w w' : Walk τ ε ρ ι} (h : w.Bound) (hfutures : w'.futures = w.futures)
    (hnamed : w'.namedFutures = w.namedFutures) (hanonymous : w'.anonymousFuture = w.anonymousFuture)
    (hresponses : w'.namedResponses = w.namedResponses) (htransports : w'.namedTransports = w.namedTransports) :
    w'.Bound := by
  obtain ⟨h₁, h₂, h₃, h₄, h₅, h₆, h₇⟩ := h
  constructor <;>
    simp only [tagOf, settledAt, evaluated, resolved, hfutures, hnamed, hanonymous, hresponses, htransports] <;>
    assumption

/-- All that happened since is that exchanges completed and were filed. -/
structure Later (w' : Walk τ ε ρ ι) : Prop where
  ruleIndex : w'.ruleIndex = w.ruleIndex
  effectiveOptions : w'.effectiveOptions = w.effectiveOptions
  anonymousFuture : w'.anonymousFuture = w.anonymousFuture
  namedFutures : w'.namedFutures = w.namedFutures
  armedRules : w'.armedRules = w.armedRules
  terminalFuture : w'.terminalFuture = w.terminalFuture
  terminalIndex : w'.terminalIndex = w.terminalIndex
  length : w'.futures.length = w.futures.length
  evaluated : ∀ i, w'.evaluated i = w.evaluated i
  tagOf : ∀ i, w'.tagOf i = w.tagOf i
  resolved : ∀ i, w.resolved i = true → w'.resolved i = true
  settledAt : ∀ i, w.settledAt i = true → w'.settledAt i = true
  woken : (∀ f ∈ w.futures, f.woken = true → f.done = true) → ∀ f ∈ w'.futures, f.woken = true → f.done = true

variable {w} {w' : Walk τ ε ρ ι}

theorem Later.scene (h : w.Later w') : w'.scene = w.scene := by
  have hevaluated : w'.evaluated = w.evaluated := funext h.evaluated
  simp only [Walk.scene, h.effectiveOptions, h.anonymousFuture, h.namedFutures, hevaluated]

section
variable {k : Nat} {f : Future τ ε ρ} (f' : Future τ ε ρ)

section
variable (hf : w.futures[k]? = some f)
include hf

theorem getElem?_setFuture (i : Nat) :
    (w.futures.set k f')[i]? = if i = k then some f' else w.futures[i]? := by
  have hk : k < w.futures.length := (List.getElem?_eq_some_iff.mp hf).1
  by_cases h : i = k
  · simp [h, hk]
  · simp [h, List.getElem?_set_ne (Ne.symm h)]

theorem map_setFuture {β : Type} {g : Future τ ε ρ → β} (hg : g f' = g f) (i : Nat) :
    (w.futures.set k f')[i]?.map g = w.futures[i]?.map g := by
  rw [getElem?_setFuture _ hf]
  by_cases h : i = k
  · simp [h, hf, hg]
  · simp [h]

theorem any_setFuture {p : Future τ ε ρ → Bool} (hp : p f = true → p f' = true) (i : Nat)
    (hi : w.futures[i]?.any p = true) : (w.futures.set k f')[i]?.any p = true := by
  rw [getElem?_setFuture _ hf]
  by_cases h : i = k
  · subst h
    rw [hf] at hi
    simpa using hp hi
  · simpa [h] using hi

theorem later_setFuture (hevaluated : f'.evaluated = f.evaluated) (htag : f'.tag = f.tag) (hdone : f'.done = true)
    (hsettled : f.settled = true → f'.settled = true) (wake : Bool) :
    w.Later { w with futures := w.futures.set k f', wake := wake } where
  ruleIndex := rfl
  effectiveOptions := rfl
  anonymousFuture := rfl
  namedFutures := rfl
  armedRules := rfl
  terminalFuture := rfl
  terminalIndex := rfl
  length := length_set
  evaluated := map_setFuture f' hf hevaluated
  tagOf := map_setFuture f' hf htag
  resolved := any_setFuture f' hf fun _ => hdone
  settledAt := any_setFuture f' hf hsettled
  woken h g hg hwoken := by
    rcases mem_or_eq_of_mem_set hg with hg | rfl
    · exact h g hg hwoken
    · exact hdone

end

theorem Bound.setFuture (h : w.Bound) (hf : w.futures[k]? = some f) (hevaluated : f'.evaluated = f.evaluated)
    (htag : f'.tag = f.tag) (hdone : f'.done = true) (hsettled : f'.settled = f.settled) (wake : Bool) :
    Bound { w with futures := w.futures.set k f', wake := wake } := by
  have hl := later_setFuture f' hf hevaluated htag hdone (fun hs => hsettled.trans hs) wake
  have hsame : ∀ i, settledAt { w with futures := w.futures.set k f', wake := wake } i = w.settledAt i := by
    intro i
    unfold settledAt
    rw [getElem?_setFuture _ hf]
    by_cases hi : i = k
    · simp [hi, hf, hsettled]
    · simp [hi]
  constructor
  · intro i t ht
    rw [hl.tagOf] at ht
    exact h.tagged i t ht
  · intro t i ht
    rw [hl.tagOf]
    exact h.named t i ht
  · intro i hi
    rw [hl.length]
    exact h.anonymous i hi
  · intro t i ht
    rw [hsame, hl.evaluated]
    exact h.responses t i ht
  · intro t i ht hs
    rw [hl.evaluated]
    exact h.transports t i ht ((hsame i).symm.trans hs)
  · exact h.absent
  · exact fun i hs => hl.resolved i (h.done i ((hsame i).symm.trans hs))

/-- Filing a future changes nothing, or it marks the future and files its response. -/
theorem settle_cases (w : Walk τ ε ρ ι) (k : Nat) :
    (w.settle k = w ∧ (w.resolved k = true → w.settledAt k = true)) ∨
      ∃ f, w.futures[k]? = some f ∧ f.done = true ∧ f.settled = false ∧
        w.settle k = { w with
          futures := w.futures.set k { f with settled := true }
          namedResponses :=
            if f.tag = "" then w.namedResponses
            else update w.namedResponses f.tag (response f.evaluated)
          namedTransports :=
            if f.tag = "" then w.namedTransports else update w.namedTransports f.tag (some f.transport) } := by
  unfold settle
  cases hf : w.futures[k]? with
  | none =>
    left
    simp [resolved, hf]
  | some f =>
    by_cases hskip : (f.settled || !f.done) = true
    · left
      simp only [hskip, if_true, true_and, resolved, settledAt, hf, any_some]
      intro hdone
      simpa [hdone] using hskip
    · right
      simp only [Bool.or_eq_true, Bool.not_eq_true', not_or, Bool.not_eq_true, Bool.not_eq_false] at hskip
      refine ⟨f, rfl, hskip.2, hskip.1, ?_⟩
      have hview : f.view = response f.evaluated := by
        simp [Future.view, hskip.2, response, Future.evaluated]
      simp only [hskip.1, hskip.2, Bool.not_true, Bool.or_self, Bool.false_eq_true, if_false, hview]
      by_cases htag : f.tag = "" <;> simp [htag]

theorem later_wake (w : Walk τ ε ρ ι) (wake : Bool) : w.Later { w with wake := wake } :=
  ⟨rfl, rfl, rfl, rfl, rfl, rfl, rfl, rfl, fun _ => rfl, fun _ => rfl, fun _ h => h, fun _ h => h, id⟩

theorem later_settle (w : Walk τ ε ρ ι) (k : Nat) : w.Later (w.settle k) := by
  rcases settle_cases w k with ⟨heq, _⟩ | ⟨f, hf, hdone, _, heq⟩
  · rw [heq]
    exact w.later_wake w.wake
  · rw [heq]
    have hl := later_setFuture { f with settled := true } hf rfl rfl hdone (fun _ => rfl) w.wake
    exact ⟨rfl, rfl, rfl, rfl, rfl, rfl, rfl, hl.length, hl.evaluated, hl.tagOf, hl.resolved, hl.settledAt, hl.woken⟩

/-- A future that was looked at is settled if it is done. -/
theorem settle_settled {w : Walk τ ε ρ ι} {k : Nat} (h : (w.settle k).resolved k = true) :
    (w.settle k).settledAt k = true := by
  rcases settle_cases w k with ⟨heq, hdone⟩ | ⟨f, hf, hdone, _, heq⟩
  · rw [heq] at h ⊢
    exact hdone h
  · rw [heq]
    simp [settledAt, getElem?_setFuture _ hf]

theorem settle_resolved (w : Walk τ ε ρ ι) (k i : Nat) : (w.settle k).resolved i = w.resolved i := by
  rcases settle_cases w k with ⟨heq, _⟩ | ⟨f, hf, hdone, _, heq⟩
  · rw [heq]
  rw [heq]
  unfold resolved
  rw [getElem?_setFuture _ hf]
  by_cases hi : i = k
  · simp [hi, hf, hdone]
  · simp [hi]

theorem Bound.settle (h : w.Bound) (k : Nat) : (w.settle k).Bound := by
  have hl := later_settle w k
  rcases settle_cases w k with ⟨heq, _⟩ | ⟨f, hf, hdone, _, heq⟩
  · rw [heq]
    exact h
  have htag : w.tagOf k = some f.tag := by simp [tagOf, hf]
  have hevaluated : w.evaluated k = some f.evaluated := by simp [evaluated, hf]
  have hother : ∀ i, i ≠ k → (w.settle k).settledAt i = w.settledAt i := by
    intro i hi
    rw [heq]
    simp [settledAt, getElem?_setFuture _ hf, hi]
  have hsettled : (w.settle k).settledAt k = true := by
    rw [heq]
    simp [settledAt, getElem?_setFuture _ hf]
  -- the tag of another future is another one
  have hne : ∀ t i, w.namedFutures t = some i → i ≠ k → t ≠ f.tag := by
    intro t i ht hi he
    have hnamed := h.named t i ht
    rw [he] at ht hnamed
    exact hi (some.inj (ht.symm.trans (h.tagged k f.tag htag hnamed.2)))
  have hsame : ∀ t i, w.namedFutures t = some i → i = k → t = f.tag := by
    intro t i ht hi
    have hnamed := (h.named t i ht).1
    rw [hi, htag] at hnamed
    exact (some.inj hnamed).symm
  constructor
  · intro i t ht
    rw [hl.tagOf] at ht
    rw [hl.namedFutures]
    exact h.tagged i t ht
  · intro t i ht
    rw [hl.namedFutures] at ht
    rw [hl.tagOf]
    exact h.named t i ht
  · intro i hi
    rw [hl.anonymousFuture] at hi
    rw [hl.length]
    exact h.anonymous i hi
  · intro t i ht
    rw [hl.namedFutures] at ht
    rw [hl.evaluated]
    by_cases hi : i = k
    · have he := hsame t i ht hi
      subst he
      rw [hi, hsettled, heq]
      simp [(h.named f.tag i ht).2, hevaluated]
    · rw [hother i hi, ← h.responses t i ht, heq]
      by_cases hempty : f.tag = "" <;> simp [hempty, update_of_ne (hne t i ht hi)]
  · intro t i ht hs
    rw [hl.namedFutures] at ht
    rw [hl.evaluated]
    by_cases hi : i = k
    · have he := hsame t i ht hi
      subst he
      rw [hi, heq]
      simp [(h.named f.tag i ht).2, hevaluated, Future.evaluated]
    · rw [hother i hi] at hs
      rw [← h.transports t i ht hs, heq]
      by_cases hempty : f.tag = "" <;> simp [hempty, update_of_ne (hne t i ht hi)]
  · intro t ht
    rw [hl.namedFutures] at ht
    have hne : f.tag ≠ "" → t ≠ f.tag := by
      intro hnonempty he
      rw [he, h.tagged k f.tag htag hnonempty] at ht
      cases ht
    rw [← h.absent t ht, heq]
    by_cases hempty : f.tag = ""
    · simp [hempty]
    · simp [hempty, update_of_ne (hne hempty)]
  · intro i hs
    by_cases hi : i = k
    · exact hl.resolved i (by simp [resolved, hi, hf, hdone])
    · exact hl.resolved i (h.done i ((hother i hi).symm.trans hs))

end

theorem lt_of_resolved {i : Nat} (h : w.resolved i = true) : i < w.futures.length := by
  by_contra hge
  simp [resolved, List.getElem?_eq_none (Nat.le_of_not_lt hge)] at h

/-! ### A launch -/

/-- `w'` is behind the launch of the exchange `f`, which is filed under its tag if it has one. -/
structure Launched (w : Walk τ ε ρ ι) (f : Future τ ε ρ) (w' : Walk τ ε ρ ι) : Prop where
  futures : w'.futures = w.futures ++ [f]
  fresh : f.done = false ∧ f.settled = false
  namedFutures : w'.namedFutures =
    if f.tag = "" then w.namedFutures else update w.namedFutures f.tag (some w.futures.length)
  anonymous : ∀ i, w'.anonymousFuture = some i → i < w'.futures.length
  namedResponses : w'.namedResponses = w.namedResponses
  namedTransports : w'.namedTransports = w.namedTransports

namespace Launched

variable {f : Future τ ε ρ} {i : Nat}

section
variable (h : Launched w f w')
include h

theorem getElem? (hi : i < w.futures.length) : w'.futures[i]? = w.futures[i]? := by
  rw [h.futures, List.getElem?_append_left hi]

theorem getElem?_last : w'.futures[w.futures.length]? = some f := by
  rw [h.futures]
  simp

theorem evaluated (hi : i < w.futures.length) : w'.evaluated i = w.evaluated i := by
  rw [Walk.evaluated, h.getElem? hi, Walk.evaluated]

theorem resolved (hr : w.resolved i = true) : w'.resolved i = true := by
  rwa [Walk.resolved, h.getElem? (lt_of_resolved hr)]

theorem cases {g : Future τ ε ρ} (hg : w'.futures[i]? = some g) :
    (i < w.futures.length ∧ w.futures[i]? = some g) ∨ (i = w.futures.length ∧ g = f) := by
  rcases Nat.lt_or_ge i w.futures.length with hi | hi
  · exact .inl ⟨hi, (h.getElem? hi).symm.trans hg⟩
  have hlen : i < w.futures.length + 1 := by
    have := (List.getElem?_eq_some_iff.mp hg).1
    simpa [h.futures] using this
  have heq : i = w.futures.length := by omega
  rw [heq, h.getElem?_last] at hg
  exact .inr ⟨heq, (some.inj hg).symm⟩

/-- A tag refers to an old future or to the new one. -/
theorem named {t : String} (ht : w'.namedFutures t = some i) :
    w.namedFutures t = some i ∨ (t = f.tag ∧ t ≠ "" ∧ i = w.futures.length) := by
  rw [h.namedFutures] at ht
  by_cases htag : f.tag = ""
  · exact .inl (by simpa [htag] using ht)
  · by_cases he : t = f.tag
    · subst he
      simp only [htag, if_false, update_self, some.injEq] at ht
      exact .inr ⟨rfl, htag, ht.symm⟩
    · exact .inl (by simpa [htag, update_of_ne he] using ht)

theorem settledAt (i : Nat) : w'.settledAt i = w.settledAt i := by
  unfold Walk.settledAt
  cases hg : w'.futures[i]? with
  | some g =>
    rcases h.cases hg with ⟨_, hold⟩ | ⟨rfl, rfl⟩
    · rw [hold]
    · rw [List.getElem?_eq_none (Nat.le_refl _)]
      simp [h.fresh.2]
  | none =>
    have hlen := List.getElem?_eq_none_iff.mp hg
    rw [h.futures, length_append] at hlen
    rw [List.getElem?_eq_none (by omega)]

end

end Launched

theorem Bound.lt (h : w.Bound) {t : String} {i : Nat} (ht : w.namedFutures t = some i) : i < w.futures.length := by
  have hnamed := (h.named t i ht).1
  by_contra hge
  simp [tagOf, List.getElem?_eq_none (Nat.le_of_not_lt hge)] at hnamed

theorem Bound.launched (h : w.Bound) {f : Future τ ε ρ} (hl : Launched w f w')
    (hfresh : f.tag ≠ "" → w.namedFutures f.tag = none) : w'.Bound := by
  constructor
  · intro i t ht hne
    obtain ⟨g, hg, rfl⟩ := map_eq_some_iff.mp ht
    rw [hl.namedFutures]
    rcases hl.cases hg with ⟨hi, hold⟩ | ⟨rfl, rfl⟩
    · have hnamed := h.tagged i g.tag (by simp [tagOf, hold]) hne
      have hother : f.tag ≠ "" → g.tag ≠ f.tag := by
        intro hf he
        rw [he, hfresh hf] at hnamed
        cases hnamed
      by_cases htag : f.tag = ""
      · simpa [htag] using hnamed
      · simpa [htag, update_of_ne (hother htag)] using hnamed
    · simp [hne]
  · intro t i ht
    rcases hl.named ht with hold | ⟨rfl, hne, rfl⟩
    · have := h.named t i hold
      rwa [tagOf, hl.getElem? (h.lt hold)]
    · simp [tagOf, hl.getElem?_last, hne]
  · exact hl.anonymous
  · intro t i ht
    rw [hl.namedResponses, hl.settledAt]
    rcases hl.named ht with hold | ⟨rfl, hne, rfl⟩
    · rw [hl.evaluated (h.lt hold)]
      exact h.responses t i hold
    · simp [h.absent f.tag (hfresh hne), settledAt]
  · intro t i ht hs
    rw [hl.settledAt] at hs
    rcases hl.named ht with hold | ⟨rfl, hne, rfl⟩
    · rw [hl.namedTransports, hl.evaluated (h.lt hold)]
      exact h.transports t i hold hs
    · simp [settledAt] at hs
  · intro t ht
    rw [hl.namedResponses]
    refine h.absent t ?_
    rw [hl.namedFutures] at ht
    by_cases htag : f.tag = ""
    · simpa [htag] using ht
    · by_cases he : t = f.tag
      · rw [he]
        exact hfresh htag
      · simpa [htag, update_of_ne he] using ht
  · intro i hs
    rw [hl.settledAt] at hs
    exact hl.resolved (h.done i hs)

section
variable (h : ∀ i, w.anonymousFuture = some i → i < w.futures.length)
  (R : Router τ ε ρ ι) (name : ι) (tag : String) (transport : τ) (options : QueryOptions)
include h

theorem launched_evaluate : Launched w ⟨tag, transport, R.exchange (some name) transport
    (R.finalizeExchangeOptions options), false, false, false⟩ (w.launchEvaluate R name tag transport options) where
  futures := rfl
  fresh := ⟨rfl, rfl⟩
  namedFutures := rfl
  anonymous := by
    intro i hi
    have hlen : (w.launchEvaluate R name tag transport options).futures.length = w.futures.length + 1 := by
      simp [launchEvaluate, launchDNSEvaluate]
    rw [hlen]
    change (if tag = "" then some w.futures.length else w.anonymousFuture) = some i at hi
    split at hi
    · cases some.inj hi
      omega
    · have := h i hi
      omega
  namedResponses := rfl
  namedTransports := rfl

theorem launched_route : Launched w ⟨"", transport, R.exchange (some name) transport
    (R.finalizeExchangeOptions options), false, false, false⟩ (w.launchRoute R name transport options) where
  futures := rfl
  fresh := ⟨rfl, rfl⟩
  namedFutures := rfl
  anonymous := by
    intro i hi
    have hlen : (w.launchRoute R name transport options).futures.length = w.futures.length + 1 := by
      simp [launchRoute, launchDNSEvaluate]
    have := h i hi
    omega
  namedResponses := rfl
  namedTransports := rfl

end

variable {f : Future τ ε ρ} {r : Rule ρ ι} {t : String}

theorem Bound.scene_bind (h : w.Bound) (hl : Launched w f w') (hoptions : w'.effectiveOptions = w.effectiveOptions)
    (hanonymous : w'.anonymousFuture = if f.tag = "" then some w.futures.length else w.anonymousFuture) :
    w'.scene = w.scene.bind f.tag f.evaluated := by
  have hlast : w'.evaluated w.futures.length = some f.evaluated := by simp [evaluated, hl.getElem?_last]
  have hnamed : ∀ t, ((w.namedFutures t).bind w'.evaluated) = (w.namedFutures t).bind w.evaluated := by
    intro t
    cases ht : w.namedFutures t with
    | none => rfl
    | some i => exact hl.evaluated (h.lt ht)
  have hold : w.anonymousFuture.bind w'.evaluated = w.anonymousFuture.bind w.evaluated := by
    cases ha : w.anonymousFuture with
    | none => rfl
    | some i => exact hl.evaluated (h.anonymous i ha)
  unfold scene Scene.bind
  rw [hoptions, hanonymous, hl.namedFutures]
  by_cases htag : f.tag = ""
  · simp only [htag, if_true, bind_some, hlast]
    congr 1
    exact funext hnamed
  simp only [htag, if_false, hold]
  congr 1
  funext t
  by_cases ht : t = f.tag
  · subst ht
    simp [hlast]
  · simp [update_of_ne ht, hnamed]

/-- A launch that binds nothing leaves the scene as it is. -/
theorem Bound.scene_launched (h : w.Bound) (hl : Launched w f w') (htag : f.tag = "")
    (hoptions : w'.effectiveOptions = w.effectiveOptions) (hanonymous : w'.anonymousFuture = w.anonymousFuture) :
    w'.scene = w.scene := by
  unfold scene
  rw [hoptions, hanonymous, hl.namedFutures, htag, if_pos rfl]
  congr 1
  · cases ha : w.anonymousFuture with
    | none => rfl
    | some i => exact hl.evaluated (h.anonymous i ha)
  · funext t
    cases ht : w.namedFutures t with
    | none => rfl
    | some i => exact hl.evaluated (h.lt ht)

/-! ### A rule whose responses are in -/

/-- The responses the rule is bound to are in, and filed if they have a tag. -/
structure Seen (w : Walk τ ε ρ ι) (r : Rule ρ ι) : Prop where
  tags : ∀ t ∈ r.matchResponseTags, ∀ i, w.namedFutures t = some i → w.settledAt i = true
  anonymous : r.matchResponseAnonymous = true → ∀ i, w.anonymousFuture = some i → w.resolved i = true

theorem Seen.later (h : w.Seen r) (hl : w.Later w') : w'.Seen r where
  tags t ht i hi := hl.settledAt i (h.tags t ht i (hl.namedFutures ▸ hi))
  anonymous hr i hi := hl.resolved i (h.anonymous hr i (hl.anonymousFuture ▸ hi))

theorem view_of_resolved {i : Nat} (h : w.resolved i = true) : w.view i = (w.evaluated i).bind response := by
  cases hf : w.futures[i]? with
  | none => simp [view, evaluated, hf]
  | some f =>
    have hdone : f.done = true := by simpa [resolved, hf] using h
    simp [view, evaluated, hf, Future.view, hdone, response, Future.evaluated]

theorem anonymousResponse_eq (h : ∀ i, w.anonymousFuture = some i → w.resolved i = true) :
    w.anonymousResponse = w.scene.anonymousResponse := by
  unfold anonymousResponse Scene.anonymousResponse scene
  cases ha : w.anonymousFuture with
  | none => rfl
  | some i => exact view_of_resolved (h i ha)

theorem Bound.namedResponse_eq (hb : w.Bound) (h : ∀ i, w.namedFutures t = some i → w.settledAt i = true) :
    w.namedResponses t = w.scene.namedResponse t := by
  change w.namedResponses t = ((w.namedFutures t).bind w.evaluated).bind response
  cases ht : w.namedFutures t with
  | none => exact hb.absent t ht
  | some i =>
    rw [hb.responses t i ht, h i ht, if_pos rfl]
    rfl

theorem responding_future {future : Option Nat} (h : ∀ i, future = some i → w.resolved i = true) :
    Result.responding (ε := ε) (future.bind w.view) (future.bind w.transportOf) =
      .responding ((future.bind w.evaluated).bind response)
        ((future.bind w.evaluated).map transport) := by
  cases future with
  | none => rfl
  | some i =>
    simp only [Option.bind_some, view_of_resolved (h i rfl), transportOf, evaluated, Option.map_map]
    rfl

theorem Bound.responding_named (hb : w.Bound) (h : ∀ i, w.namedFutures t = some i → w.settledAt i = true) :
    Result.responding (ε := ε) (w.namedResponses t) (w.namedTransports t) =
      .responding ((w.scene.named t).bind response) ((w.scene.named t).map transport) := by
  rw [hb.namedResponse_eq h]
  change Result.responding (w.scene.namedResponse t) _ = .responding (w.scene.namedResponse t) _
  have hnamed : w.scene.named t = (w.namedFutures t).bind w.evaluated := rfl
  cases ht : w.namedFutures t with
  | none => simp [Scene.namedResponse, hnamed, ht, Result.responding]
  | some i => rw [hb.transports t i ht (h i ht), hnamed, ht, bind_some]

theorem Seen.matchOn_eq (h : w.Seen r) (hb : w.Bound) :
    r.matchOn w.anonymousResponse w.namedResponses = r.holds w.scene :=
  r.matchOn_bound _ _ _ _ (fun hr => anonymousResponse_eq (h.anonymous hr))
    (fun t ht => hb.namedResponse_eq (h.tags t ht))

end Walk

/-! ### A sweep -/

section
variable {R : Router τ ε ρ ι} {w : Walk τ ε ρ ι} {armed kept : List (Armed ρ ι)}

/-- Without a rule that commits, the rules that are not ready stay armed. -/
theorem sweepArmed_none (h : sweepArmed R w armed = (kept, none)) :
    kept = armed.filter (fun a => !a.ready w) ∧ ∀ a ∈ armed, a.ready w = true → a.judge R w = none := by
  induction armed generalizing kept with
  | nil =>
    cases h
    exact ⟨rfl, fun a ha => absurd ha not_mem_nil⟩
  | cons a armed ih =>
    rw [sweepArmed] at h
    cases hready : a.ready w with
    | true =>
      rw [hready, if_pos rfl] at h
      cases hjudge : a.judge R w with
      | some commit =>
        rw [hjudge] at h
        cases h
      | none =>
        rw [hjudge] at h
        obtain ⟨hkept, hrest⟩ := ih h
        exact ⟨by simp [hkept, hready], forall_mem_cons.mpr ⟨fun _ => hjudge, hrest⟩⟩
    | false =>
      rw [hready, if_neg nofun] at h
      rcases hrest : sweepArmed R w armed with ⟨kept', committed⟩
      rw [hrest] at h
      cases h
      obtain ⟨hkept, hrest⟩ := ih hrest
      refine ⟨by simp [hkept, hready], forall_mem_cons.mpr ⟨fun ht => ?_, hrest⟩⟩
      rw [hready] at ht
      cases ht

variable {a : Armed ρ ι} {commit : Commit τ ε ρ ι}

/-- The first rule that is ready, matches and can be taken commits. -/
theorem sweepArmed_some (h : sweepArmed R w armed = (kept, some (a, commit))) :
    ∃ before behind, armed = before ++ a :: behind ∧
      kept = before.filter (fun b => !b.ready w) ++ behind ∧
      (∀ b ∈ before, b.ready w = true → b.judge R w = none) ∧ a.ready w = true ∧ a.judge R w = some commit := by
  induction armed generalizing kept with
  | nil => cases h
  | cons b armed ih =>
    rw [sweepArmed] at h
    cases hready : b.ready w with
    | true =>
      rw [hready, if_pos rfl] at h
      cases hjudge : b.judge R w with
      | some commit =>
        rw [hjudge] at h
        cases h
        exact ⟨[], armed, rfl, rfl, fun c hc => absurd hc not_mem_nil, hready, hjudge⟩
      | none =>
        rw [hjudge] at h
        obtain ⟨before, behind, rfl, hkept, hbefore, ha⟩ := ih h
        exact ⟨b :: before, behind, rfl, by simp [hkept, hready],
          forall_mem_cons.mpr ⟨fun _ => hjudge, hbefore⟩, ha⟩
    | false =>
      rw [hready, if_neg nofun] at h
      rcases hrest : sweepArmed R w armed with ⟨kept', committed⟩
      rw [hrest] at h
      cases h
      obtain ⟨before, behind, rfl, hkept, hbefore, ha⟩ := ih hrest
      refine ⟨b :: before, behind, rfl, by simp [hkept, hready], forall_mem_cons.mpr ⟨fun ht => ?_, hbefore⟩, ha⟩
      rw [hready] at ht
      cases ht

theorem sweepArmed_mem {committed : Option (Armed ρ ι × Commit τ ε ρ ι)}
    (h : sweepArmed R w armed = (kept, committed)) : ∀ a ∈ kept, a ∈ armed := by
  intro a ha
  cases committed with
  | none =>
    rw [(sweepArmed_none h).1] at ha
    exact (mem_filter.mp ha).1
  | some p =>
    obtain ⟨before, behind, rfl, rfl, _⟩ := sweepArmed_some h
    rcases mem_append.mp ha with ha | ha
    · exact mem_append_left _ (mem_filter.mp ha).1
    · exact mem_append_right _ (mem_cons_of_mem _ ha)

theorem sweepArmed_commits (h : sweepArmed R w armed = (kept, some (a, commit))) :
    a ∈ armed ∧ a.ready w = true ∧ a.judge R w = some commit := by
  obtain ⟨before, behind, rfl, _, _, hready, hjudge⟩ := sweepArmed_some h
  exact ⟨mem_append_right _ mem_cons_self, hready, hjudge⟩

/-- The exchange of a rule that commits is that rule's, and it is not launched yet. -/
theorem Armed.judge_pending {p : Pending τ ρ ι} (h : a.judge R w = some (.pending p)) :
    p.origin = some (a.ruleIndex, a.rule) ∧ p.future = none := by
  unfold judge at h
  split at h
  · unfold commit at h
    split at h
    · dsimp only at h
      split at h <;> cases h
    · obtain ⟨q, _, hq⟩ := map_eq_some_iff.mp h
      cases hq
      exact ⟨rfl, rfl⟩
    all_goals cases h
  · cases h

end

variable {x x' : Sys τ ε ρ ι} {i : Nat} {R : Router τ ε ρ ι} {rules : List (Rule ρ ι)}

/-- A race rule waits for what it is bound to and is not complete. -/
theorem Sys.mem_pendingFutures {r : Rule ρ ι} :
    i ∈ x.pendingFutures r ↔
      ((∃ t ∈ r.matchResponseTags, x.walk.namedFutures t = some i) ∨
        r.matchResponseAnonymous = true ∧ x.walk.anonymousFuture = some i) ∧ x.walk.resolved i = false := by
  have hunresolved : ∀ future, x.walk.unresolved future = some i ↔ future = some i ∧ x.walk.resolved i = false := by
    simp [Walk.unresolved, filter_eq_some_iff]
  cases hr : r.matchResponseAnonymous <;>
    simp only [pendingFutures, hr, hunresolved, mem_append, mem_filterMap, mem_toList,
      if_true, if_false, Bool.false_eq_true, not_mem_nil, or_and_right, ← and_assoc, exists_and_right, true_and,
      false_and]

/-- Where a suspension leads: to the loop that resumes the walk, or straight to the exchange. -/
theorem Sys.suspend_cases (x : Sys τ ε ρ ι) (s : Suspension τ ρ ι) :
    x.suspend s = ⟨x.walk, .resuming 0 s, false⟩ ∨
      ∃ p, s = .pending p ∧ p.future = none ∧ x.suspend s = ⟨x.walk, .finishing p, false⟩ := by
  cases s with
  | pending p =>
    cases hfuture : p.future with
    | none =>
      cases hasync : x.async with
      | true =>
        right
        exact ⟨p, rfl, hfuture, by simp [suspend, hasync, hfuture]⟩
      | false =>
        left
        simp [suspend, hasync]
    | some i =>
      left
      simp [suspend, hfuture]
  | await | drain => exact .inl rfl

/-- The loop that is suspended waits for the exchange. -/
def Walk.Awaits (w : Walk τ ε ρ ι) (s : Suspension τ ρ ι) (i : Nat) : Prop :=
  match s with
  | .await j => i = j
  | .drain => ∃ a ∈ w.armedRules, i ∈ a.futures
  | .pending _ => False

/-- Where the loop goes: to the exchange, back to the rules, or to wait for an exchange that has not completed. -/
theorem Sys.resume_cases (s : Suspension τ ρ ι) (hready : ∀ a ∈ x.walk.armedRules, a.ready x.walk = false) :
    (∃ p, s = .pending p ∧ x.resume s = { x with phase := .finishing p }) ∨ x.resume s = { x with phase := .visiting } ∨
      x.resume s = { x with phase := .waiting s } ∧ ∃ i, x.walk.Awaits s i ∧ x.walk.resolved i = false := by
  cases s with
  | pending p => exact .inl ⟨p, rfl, rfl⟩
  | await i => cases hresolved : x.walk.resolved i <;> simp [resume, Walk.Awaits, hresolved]
  | drain =>
    cases harmed : x.walk.armedRules with
    | nil => simp [resume, harmed]
    | cons a armed =>
      have ha : a ∈ x.walk.armedRules := harmed ▸ mem_cons_self
      have hnot := hready a ha
      rw [Armed.ready, List.all_eq_false] at hnot
      obtain ⟨i, hi, hunresolved⟩ := hnot
      exact .inr (.inr ⟨by simp [resume, harmed], i, ⟨a, ha, hi⟩, by simpa using hunresolved⟩)

theorem Sys.step_complete (h : x.step R rules (.complete i) = some x') :
    ∃ f, x.walk.futures[i]? = some f ∧ f.done = false ∧ x' = x.setFuture i { f with done := true } := by
  simp only [Sys.step] at h
  split at h
  next f hf =>
    split at h
    · cases h
    next hdone =>
      cases h
      exact ⟨f, hf, by simpa using hdone, rfl⟩
  · cases h

theorem Sys.step_wake (h : x.step R rules (.wake i) = some x') :
    ∃ f, x.walk.futures[i]? = some f ∧ f.done = true ∧ f.woken = false ∧
      x' = { x.setFuture i { f with woken := true } with walk.wake := true } := by
  simp only [Sys.step] at h
  split at h
  next f hf =>
    split at h
    next hwoken =>
      rw [Bool.and_eq_true, Bool.not_eq_true'] at hwoken
      cases h
      exact ⟨f, hf, hwoken.1, hwoken.2, rfl⟩
    · cases h
  · cases h

/-! ### What an action does -/

theorem Walk.unresolved_eq_some {w : Walk τ ε ρ ι} {future : Option Nat} (h : w.unresolved future = some i) :
    future = some i ∧ w.resolved i = false := by
  rw [unresolved, filter_eq_some_iff] at h
  simpa using h

/-- The ways the action of a rule can go on. -/
inductive Sys.Acts (R : Router τ ε ρ ι) (x : Sys τ ε ρ ι) (r : Rule ρ ι) : Sys τ ε ρ ι → Prop
  | next (options : QueryOptions) (anonymous : Option Nat)
      (hanonymous : ∀ i, anonymous = some i → x.walk.anonymousFuture = some i) :
      Acts R x r { x with walk.effectiveOptions := options, walk.anonymousFuture := anonymous }.next
  | await (i : Nat) (hi : x.walk.anonymousFuture = some i) (hresolved : x.walk.resolved i = false) :
      Acts R x r (x.suspend (.await i))
  | drain (harmed : x.walk.armedRules.isEmpty = false) : Acts R x r (x.suspend .drain)
  | exchange (p : Pending τ ρ ι) (harmed : x.walk.armedRules = []) (horigin : p.origin = some (x.walk.ruleIndex, r))
      (hfuture : ∀ i, p.future = some i → x.walk.terminalFuture = some i) :
      Acts R x r (x.suspend (.pending p))
  | answer (result : Result τ ε ρ) (harmed : x.walk.armedRules = []) :
      Acts R x r { x with phase := .returned (some (x.walk.ruleIndex, r)) result }
  | evaluate (tag : String) (transport : τ) (options : QueryOptions) (htag : r.action.evaluateTag = some tag) :
      Acts R x r { x with walk := x.walk.launchEvaluate R r.name tag transport options, phase := .launching false }
  | speculate (transport : τ) (options : QueryOptions) (hnone : x.walk.terminalFuture.isNone = true) :
      Acts R x r { x with walk := x.walk.launchRoute R r.name transport options, phase := .launching true }

theorem Sys.acts_next (r : Rule ρ ι) (options : QueryOptions) :
    x.Acts R r { x with walk.effectiveOptions := options }.next :=
  .next options x.walk.anonymousFuture fun _ hi => hi

theorem Sys.acts_final {r : Rule ρ ι} (result : Result τ ε ρ) : x.Acts R r (x.final r result) := by
  unfold final
  split
  next harmed => exact .answer result (isEmpty_iff.mp harmed)
  next harmed => exact .drain (by simpa using harmed)

theorem Sys.acts (x : Sys τ ε ρ ι) (r : Rule ρ ι) : x.Acts R r (x.act R r) := by
  unfold act
  split
  · exact acts_next r _
  next haction =>
    unfold evaluate
    split
    · split
      · exact .next x.walk.effectiveOptions none nofun
      · exact acts_next r _
    · split
      next harmed => exact .drain (by simpa using (Bool.and_eq_true_iff.mp harmed).2)
      · exact .evaluate _ _ _ (by rw [haction]; rfl)
  · unfold respond
    split
    next harmed => exact .drain (by simpa using harmed)
    split
    · split
      · exact acts_final _
      · exact acts_final _
    · split
      next i hi =>
        obtain ⟨hi, hresolved⟩ := Walk.unresolved_eq_some (ite_none_left_eq_some.mp hi).2
        exact .await i hi hresolved
      · split
        · exact acts_final _
        · exact acts_final _
  · unfold route
    split
    · exact acts_next r _
    dsimp only
    split
    next harmed =>
      split
      next hlaunch => exact .speculate _ _ (Bool.and_eq_true_iff.mp hlaunch).2
      · exact .drain (by simpa using harmed)
    next harmed =>
      have harmed : x.walk.armedRules = [] := by simpa using harmed
      split
      · exact .exchange _ harmed rfl fun _ hi => hi
      · exact .exchange _ harmed rfl nofun
  · exact acts_final _
  · exact acts_final _
  · split
    · exact acts_next r _
    next harmed => exact .drain (by simpa using harmed)
  · exact acts_final _

end SingBox.DNS
