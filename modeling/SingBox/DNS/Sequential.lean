import SingBox.DNS.Walk

/-!
# The sequential meaning of a list of DNS rules

Every evaluate exchange is complete before the next rule is looked at, so a rule sees
the outcomes themselves. Race rules are left out. This is what a run of the machine
has to come to, whatever the timing.
-/
namespace SingBox.DNS

variable {τ ε ρ ι : Type}

/-- An exchange an `evaluate` action has made. -/
structure Evaluated (τ ε ρ : Type) where
  transport : τ
  outcome : Except ε ρ

def Evaluated.response (e : Evaluated τ ε ρ) : Option ρ := e.outcome.toOption

/-- The answer of a `respond` action. -/
def Result.responding (response : Option ρ) (transport : Option τ) : Result τ ε ρ :=
  match response with
  | none => .missingResponse
  | some response => ⟨some response, transport, none, none⟩

/-- What a rule finds: the options so far and the exchanges made so far. -/
structure Scene (τ ε ρ : Type) where
  options : QueryOptions
  anonymous : Option (Evaluated τ ε ρ)
  named : String → Option (Evaluated τ ε ρ)

namespace Scene

variable (sc : Scene τ ε ρ)

def start (options : QueryOptions) : Scene τ ε ρ := ⟨options, none, fun _ => none⟩

def anonymousResponse : Option ρ := sc.anonymous.bind Evaluated.response

def namedResponse (t : String) : Option ρ := (sc.named t).bind Evaluated.response

def bind (tag : String) (e : Evaluated τ ε ρ) : Scene τ ε ρ :=
  if tag = "" then { sc with anonymous := some e }
  else { sc with named := Function.update sc.named tag (some e) }

end Scene

namespace Rule

variable (R : Router τ ε ρ ι) (r : Rule ρ ι) (sc : Scene τ ε ρ)

def holds : Bool := r.matchOn sc.anonymousResponse sc.namedResponse

/-- The exchange of a rule. -/
def exchanged (transport : τ) (options : QueryOptions) : Evaluated τ ε ρ :=
  ⟨transport, R.exchange (some r.name) transport (R.finalizeExchangeOptions options)⟩

/-- The response a `respond` action answers with. -/
def responded : Option (Evaluated τ ε ρ) :=
  if r.matchResponseTag ≠ "" then sc.named r.matchResponseTag else sc.anonymous

/-- The result of a final action; nothing for the others, and for a route whose server is
missing or skipped. -/
def final : Option (Result τ ε ρ) :=
  match r.action with
  | .respond =>
    match r.responded sc with
    | some ⟨transport, .ok response⟩ => some ⟨some response, some transport, none, none⟩
    | _ => some .missingResponse
  | .route server _ options =>
    (R.resolveDNSRoute server options sc.options).map fun (transport, options) =>
      .ofOutcome transport (r.exchanged R transport options).outcome
  | .reject .default => some ⟨some R.refused, none, some .default, none⟩
  | .reject .drop => some ⟨none, none, some .drop, some .drop⟩
  | .predefined response => some ⟨some response, none, none, none⟩
  | _ => none

theorem final_respond (h : r.action = .respond) : r.final R sc =
    some (.responding ((r.responded sc).bind Evaluated.response) ((r.responded sc).map Evaluated.transport)) := by
  simp only [final, h]
  rcases r.responded sc with _ | ⟨transport, _ | response⟩ <;> rfl

def ends : Option (Result τ ε ρ) := if !r.race && r.holds sc then r.final R sc else none

/-- What the next rule finds. -/
def pass : Scene τ ε ρ :=
  if !r.race && r.holds sc then
    match r.action with
    | .routeOptions options => { sc with options := applyDNSRouteOptions sc.options options }
    | .evaluate server tag _ options =>
      match R.transport server with
      | none => if tag = "" then { sc with anonymous := none } else sc
      | some transport => sc.bind tag (r.exchanged R transport (applyDNSRouteOptions sc.options options))
    | _ => sc
  else sc

end Rule

variable (R : Router τ ε ρ ι)

/-- The result of the rules one after another. -/
def sequential : List (Rule ρ ι) → Scene τ ε ρ → Result τ ε ρ
  | [], sc => Pending.exchanged R ⟨none, R.default, sc.options, none⟩
  | r :: rules, sc =>
    match r.ends R sc with
    | some result => result
    | none => sequential rules (r.pass R sc)

/-- The race rules do not count. -/
theorem sequential_filter (rules : List (Rule ρ ι)) (sc : Scene τ ε ρ) :
    sequential R rules sc = sequential R (rules.filter fun r => !r.race) sc := by
  induction rules generalizing sc with
  | nil => rfl
  | cons r rules ih =>
    cases hrace : r.race with
    | true =>
      have hends : r.ends R sc = none := by simp [Rule.ends, hrace]
      have hpass : r.pass R sc = sc := by simp [Rule.pass, hrace]
      rw [List.filter_cons_of_neg (by simp [hrace]), sequential, hends, hpass]
      exact ih sc
    | false =>
      rw [List.filter_cons_of_pos (by simp [hrace]), sequential, sequential]
      cases r.ends R sc with
      | some result => rfl
      | none => exact ih _

/-- The walk comes to rule `i`, which finds `sc`. -/
inductive Reaches (rules : List (Rule ρ ι)) (first : Scene τ ε ρ) : Nat → Scene τ ε ρ → Prop
  | first : Reaches rules first 0 first
  | next {i : Nat} {sc : Scene τ ε ρ} {r : Rule ρ ι} (h : Reaches rules first i sc) (hr : rules[i]? = some r)
      (hends : r.ends R sc = none) : Reaches rules first (i + 1) (r.pass R sc)

section
variable {R} {rules : List (Rule ρ ι)} {first sc sc' : Scene τ ε ρ} {i j : Nat}

section
variable (h : Reaches R rules first i sc)
include h

theorem Reaches.unique (h' : Reaches R rules first i sc') : sc = sc' := by
  induction h generalizing sc' with
  | first =>
    cases h'
    rfl
  | next _ hr _ ih =>
    cases h' with
    | next h' hr' _ =>
      cases ih h'
      cases Option.some.inj (hr.symm.trans hr')
      rfl

theorem Reaches.sequential :
    sequential R rules first = sequential R (rules.drop i) sc := by
  induction h with
  | first => rfl
  | @next i sc r _ hr hends ih =>
    have hdrop : rules.drop i = r :: rules.drop (i + 1) := by
      obtain ⟨hi, hget⟩ := List.getElem?_eq_some_iff.mp hr
      rw [List.drop_eq_getElem_cons hi, hget]
    rw [ih, hdrop, DNS.sequential, hends]

/-- The result of the rule at which the walk ends. -/
theorem Reaches.ends {r : Rule ρ ι} (hr : rules[i]? = some r) {result : Result τ ε ρ}
    (hends : r.ends R sc = some result) : DNS.sequential R rules first = result := by
  obtain ⟨hi, hget⟩ := List.getElem?_eq_some_iff.mp hr
  rw [h.sequential, List.drop_eq_getElem_cons hi, hget, DNS.sequential, hends]

/-- A tag is bound only behind the rule that evaluates it. -/
theorem Reaches.evaluated {t : String} (hfirst : first.named t = none) (hsome : sc.named t ≠ none) :
    ∃ (k : Nat) (r : Rule ρ ι), k < i ∧ rules[k]? = some r ∧ r.action.evaluateTag = some t := by
  induction h with
  | first => exact absurd hfirst hsome
  | @next i sc r h hr hends ih =>
    by_cases hbefore : sc.named t = none
    · refine ⟨i, r, Nat.lt_succ_self i, hr, ?_⟩
      unfold Rule.pass at hsome
      split at hsome
      · split at hsome
        · exact absurd hbefore hsome
        next server tag _ options haction =>
          rw [haction, Action.evaluateTag]
          by_contra hne
          have hne : tag ≠ t := fun he => hne (he ▸ rfl)
          split at hsome
          · split at hsome <;> exact absurd hbefore hsome
          · unfold Scene.bind at hsome
            split at hsome
            · exact absurd hbefore hsome
            · exact hsome (by simp [Function.update_of_ne (Ne.symm hne), hbefore])
        · exact absurd hbefore hsome
      · exact absurd hbefore hsome
    · obtain ⟨k, r', hk, hr', htag⟩ := ih hbefore
      exact ⟨k, r', Nat.lt_succ_of_lt hk, hr', htag⟩

end

end
end SingBox.DNS
