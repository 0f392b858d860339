import Mathlib.Data.List.Basic

/-!
# DNS rules

The actions of the DNS rules, the options they accumulate, and the validation of a
list of rules. A rule matches on the responses it is bound to and on nothing else of
what the exchanges bring in.
-/
namespace SingBox.DNS

open Option List

inductive DomainStrategy where
  | asIS
  | preferIPv4
  | preferIPv6
  | ipv4Only
  | ipv6Only
  deriving DecidableEq

/-- `adapter.DNSQueryOptions`, as far as the walk over the rules uses it. -/
structure QueryOptions where
  strategy : DomainStrategy
  disableCache : Bool
  disableOptimisticCache : Bool
  rewriteTTL : Option UInt32
  timeout : Int
  clientSubnet : Option String
  removeClientSubnet : Bool
  deriving DecidableEq

/-- `RuleActionDNSRouteOptions`. -/
structure RouteOptions where
  disableCache : Bool
  disableOptimisticCache : Bool
  rewriteTTL : Option UInt32
  timeout : Int
  clientSubnet : Option String
  removeClientSubnet : Bool
  deriving DecidableEq

def applyDNSRouteOptions (options : QueryOptions) (routeOptions : RouteOptions) : QueryOptions :=
  let options := if routeOptions.disableCache then { options with disableCache := true } else options
  let options :=
    if routeOptions.disableOptimisticCache then { options with disableOptimisticCache := true } else options
  let options :=
    if routeOptions.rewriteTTL.isSome then { options with rewriteTTL := routeOptions.rewriteTTL } else options
  let options := if routeOptions.timeout > 0 then { options with timeout := routeOptions.timeout } else options
  let options :=
    if routeOptions.clientSubnet.isSome then
      { options with clientSubnet := routeOptions.clientSubnet, removeClientSubnet := false }
    else options
  if routeOptions.removeClientSubnet then
    { options with clientSubnet := none, removeClientSubnet := true }
  else options

inductive RejectMethod where
  | default
  | drop
  | reply
  deriving DecidableEq

inductive Action (ρ : Type) where
  | routeOptions (options : RouteOptions)
  | evaluate (server tag : String) (speculative : Bool) (options : RouteOptions)
  | respond
  | route (server : String) (speculative : Bool) (options : RouteOptions)
  | reject (method : RejectMethod)
  | predefined (response : ρ)

namespace Action

variable {ρ : Type}

/-- A final action ends the walk. -/
def isFinal : Action ρ → Bool
  | .routeOptions _ | .evaluate .. => false
  | _ => true

def isRespond : Action ρ → Bool
  | .respond => true
  | _ => false

/-- The tag of an `evaluate` action. -/
def evaluateTag : Action ρ → Option String
  | .evaluate _ tag _ _ => some tag
  | _ => none

end Action

/-- `adapter.DNSRule`. `matchOn` is `Match` in dependence of the untagged and the tagged
responses; the last fields are what the constructors of DNS rules guarantee. -/
structure Rule (ρ ι : Type) where
  name : ι
  matchResponseTag : String
  matchResponseTags : List String
  matchResponseAnonymous : Bool
  race : Bool
  action : Action ρ
  matchOn : Option ρ → (String → Option ρ) → Bool
  matchOn_bound : ∀ a a' named named', (matchResponseAnonymous = true → a = a') →
    (∀ t ∈ matchResponseTags, named t = named' t) → matchOn a named = matchOn a' named'
  tag_mem : matchResponseTag ≠ "" → matchResponseTag ∈ matchResponseTags
  tag_ne : ∀ t ∈ matchResponseTags, t ≠ ""
  race_bound : race = true → matchResponseTags ≠ [] ∨ matchResponseAnonymous = true
  race_final : race = true → action.isFinal = true
  not_reply : action ≠ .reject .reply

namespace Rule

variable {ρ ι : Type}

def hasBindings (r : Rule ρ ι) : Bool := !r.matchResponseTags.isEmpty || r.matchResponseAnonymous

def needsAnonymous (r : Rule ρ ι) : Bool :=
  r.matchResponseAnonymous || r.action.isRespond && r.matchResponseTag == ""

end Rule

/-- `validateLegacyDNSModeDisabledRules` from rule `i` on, without the warnings and without
the conditions on the items of a rule, which `Rule.matchOn_bound` stands for. -/
def validateRules {ρ ι : Type} (i : Nat) (seenAnonymousEvaluate : Bool) (definedTags : List String) :
    List (Rule ρ ι) → Except String Unit
  | [] => .ok ()
  | rule :: rules =>
    if rule.action.isRespond && rule.matchResponseTag == "" && !rule.matchResponseTags.isEmpty then
      .error (s!"validate dns rule[{i}]: respond on a logical rule cannot bind a `match_response` tag " ++
        "from its sub rules; use a non-logical rule")
    else if rule.needsAnonymous && !seenAnonymousEvaluate then
      if !definedTags.isEmpty then
        .error (s!"dns rule[{i}]: response-based matching requires a preceding evaluate action without `tag`; " ++
          "use `match_response` with an evaluate tag to reference a tagged result")
      else .error s!"dns rule[{i}]: response-based matching requires a preceding evaluate action"
    else
      match rule.matchResponseTags.find? fun tag => !definedTags.contains tag with
      | some tag => .error s!"dns rule[{i}]: undefined evaluate tag: {tag}"
      | none =>
        match rule.action.evaluateTag with
        | none => validateRules (i + 1) seenAnonymousEvaluate definedTags rules
        | some tag =>
          if tag = "" then validateRules (i + 1) true definedTags rules
          else if definedTags.contains tag then .error s!"dns rule[{i}]: duplicate evaluate tag: {tag}"
          else validateRules (i + 1) seenAnonymousEvaluate (definedTags ++ [tag]) rules

def Valid {ρ ι : Type} (rules : List (Rule ρ ι)) : Prop := validateRules 0 false [] rules = .ok ()

/-- What an accepted list guarantees, behind rules that define the tags `defined`. -/
structure Ordered {ρ ι : Type} (defined : List String) (rules : List (Rule ρ ι)) : Prop where
  respond : ∀ r ∈ rules, r.action.isRespond = true → r.matchResponseTag = "" → r.matchResponseTags = []
  bound : ∀ (j : Nat) (r : Rule ρ ι), rules[j]? = some r → ∀ t ∈ r.matchResponseTags,
    t ∈ defined ∨ ∃ (k : Nat) (r' : Rule ρ ι), k < j ∧ rules[k]? = some r' ∧ r'.action.evaluateTag = some t
  unique : ∀ (j : Nat) (r : Rule ρ ι) (t : String), rules[j]? = some r → r.action.evaluateTag = some t → t ≠ "" →
    t ∉ defined ∧ ∀ (k : Nat) (r' : Rule ρ ι), k < j → rules[k]? = some r' → r'.action.evaluateTag ≠ some t

section
variable {ρ ι : Type} {rule : Rule ρ ι} {rules : List (Rule ρ ι)} {defined : List String}

theorem Ordered.cons {next : List String} (h : Ordered next rules)
    (hrespond : rule.action.isRespond = true → rule.matchResponseTag = "" → rule.matchResponseTags = [])
    (hbound : ∀ t ∈ rule.matchResponseTags, t ∈ defined)
    (hnext : ∀ t, t ∈ next ↔ t ∈ defined ∨ t ≠ "" ∧ rule.action.evaluateTag = some t)
    (hunique : ∀ t, rule.action.evaluateTag = some t → t ≠ "" → t ∉ defined) : Ordered defined (rule :: rules) where
  respond := forall_mem_cons.mpr ⟨hrespond, h.respond⟩
  bound := by
    intro j r hr t ht
    cases j with
    | zero =>
      cases some.inj hr
      exact .inl (hbound t ht)
    | succ j =>
      rcases h.bound j r hr t ht with hmem | ⟨k, r', hk, hr', htag⟩
      · rcases (hnext t).mp hmem with hdef | ⟨_, htag⟩
        · exact .inl hdef
        · exact .inr ⟨0, rule, Nat.succ_pos j, rfl, htag⟩
      · exact .inr ⟨k + 1, r', Nat.succ_lt_succ hk, hr', htag⟩
  unique := by
    intro j r t hr htag hne
    cases j with
    | zero =>
      cases some.inj hr
      exact ⟨hunique t htag hne, fun k r' hk => absurd hk (Nat.not_lt_zero k)⟩
    | succ j =>
      obtain ⟨hmem, hother⟩ := h.unique j r t hr htag hne
      refine ⟨fun hdef => hmem ((hnext t).mpr (.inl hdef)), fun k r' hk hr' heq => ?_⟩
      cases k with
      | zero =>
        cases some.inj hr'
        exact hmem ((hnext t).mpr (.inr ⟨hne, heq⟩))
      | succ k => exact hother k r' (Nat.lt_of_succ_lt_succ hk) hr' heq

theorem validateRules_ordered {i : Nat} {seen : Bool} (h : validateRules i seen defined rules = .ok ()) :
    Ordered defined rules := by
  induction rules generalizing i seen defined with
  | nil =>
    refine ⟨fun r hr => ?_, fun j r hr => ?_, fun j r t hr => ?_⟩
    · cases hr
    · simp at hr
    · simp at hr
  | cons rule rules ih =>
    rw [validateRules] at h
    split at h
    · cases h
    next hrespond =>
      have hrespond' : rule.action.isRespond = true → rule.matchResponseTag = "" → rule.matchResponseTags = [] := by
        simpa using hrespond
      split at h
      · split at h <;> cases h
      split at h
      · cases h
      next hfind =>
        have hbound : ∀ t ∈ rule.matchResponseTags, t ∈ defined := by
          simpa using find?_eq_none.mp hfind
        split at h
        next hnone => exact (ih h).cons hrespond' hbound (by simp [hnone]) (by simp [hnone])
        next tag htag =>
          split at h
          next hempty => exact (ih h).cons hrespond' hbound (by simp [htag, hempty]) (by simp [htag, hempty])
          · split at h
            · cases h
            next hne hdup =>
              refine (ih h).cons hrespond' hbound (fun t => ?_) (fun t ht _ => ?_)
              · simp only [mem_append, mem_singleton, htag, some.injEq]
                constructor
                · rintro (hdef | rfl)
                  · exact .inl hdef
                  · exact .inr ⟨hne, rfl⟩
                · rintro (hdef | ⟨_, rfl⟩)
                  · exact .inl hdef
                  · exact .inr rfl
              · cases some.inj (htag.symm.trans ht)
                simpa using hdup

/-- A race rule ends the walk, so it defines no tag and the list is accepted without it. -/
theorem validateRules_filter {i k : Nat} {seen : Bool} (h : validateRules i seen defined rules = .ok ()) :
    validateRules k seen defined (rules.filter fun r => !r.race) = .ok () := by
  induction rules generalizing i k seen defined with
  | nil => rfl
  | cons rule rules ih =>
    rw [validateRules] at h
    split at h
    · cases h
    next hrespond =>
      split at h
      · split at h <;> cases h
      next hanonymous =>
        split at h
        · cases h
        next hfind =>
          cases hrace : rule.race with
          | true =>
            rw [filter_cons_of_neg (by simp [hrace])]
            have hfinal := rule.race_final hrace
            split at h
            · exact ih h
            next htag =>
              cases haction : rule.action <;> simp [haction, Action.evaluateTag, Action.isFinal] at htag hfinal
          | false =>
            rw [filter_cons_of_pos (by simp [hrace]), validateRules, if_neg hrespond, if_neg hanonymous]
            simp only [hfind]
            cases htag : rule.action.evaluateTag with
            | none =>
              simp only [htag] at h
              exact ih h
            | some tag =>
              simp only [htag] at h
              split at h
              next hempty =>
                simp only [if_pos hempty]
                exact ih h
              next hne =>
                simp only [if_neg hne]
                split at h
                · cases h
                next hdup =>
                  rw [if_neg hdup]
                  exact ih h

theorem Valid.ordered (h : Valid rules) : Ordered [] rules := validateRules_ordered h

end
end SingBox.DNS
