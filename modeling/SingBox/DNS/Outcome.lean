import SingBox.DNS.Timing
import SingBox.DNS.Returns

/-!
# The outcome of an exchange without race rules

Every exchange returns, and it returns the sequential result if no callback ran between
a look of `settleDNSFutures` and the test behind it. Where one did, the rule is matched
as if the response were missing.
-/
namespace SingBox.DNS

open SingBox.Lib

/-- Without race rules and without a callback between a look and the test behind it, the
exchange comes to the sequential result, synchronous or not. -/
theorem outcome_sequential {τ ε ρ ι : Type} (R : Router τ ε ρ ι) (rules : List (Rule ρ ι)) (options : QueryOptions)
    (hvalid : Valid rules) (hrace : ∀ r ∈ rules, r.race = false) (past : List (Sys τ ε ρ ι × Label))
    (x : Sys τ ε ρ ι) (hrun : (machine R rules options).Run past x)
    (hcalm : System.Along (fun x l => x.calm l = true) past) :
    (∀ origin result, x.phase = .returned origin result → result = sequential R rules (.start options)) ∧
      (machine R rules options).Inevitable (fun x => ∃ origin result, x.phase = .returned origin result) x := by
  refine ⟨fun origin result hphase => ?_, (live_run hrun).returns options⟩
  have hstands := (sound_run hvalid hrun hcalm).stands
  rw [hphase] at hstands
  obtain ⟨hknown, hresult⟩ := hstands
  refine hresult fun p hp => ?_
  exact hrace p.2 (List.mem_of_getElem? (hknown p hp))

/-- One server, whose answer to the rule and whose answer to the default differ. -/
def twoAnswers : Router Nat String String Nat where
  transport server := if server = "s" then some 1 else none
  isFakeIP _ := false
  default := 0
  defaultDomainStrategy := .asIS
  allowFakeIP := true
  refused := "refused"
  exchange name _ _ := .ok (if name.isSome then "from the rule" else "from the default")

def plainQuery : QueryOptions := ⟨.asIS, false, false, none, 0, none, false⟩

/-- Evaluate with the tag `t`, then respond with it. -/
def evaluateRespond : List (Rule String Nat) :=
  [{ name := 0, matchResponseTag := "", matchResponseTags := [], matchResponseAnonymous := false, race := false,
     action := .evaluate "s" "t" false ⟨false, false, none, 0, none, false⟩, matchOn := fun _ _ => true,
     matchOn_bound := by simp, tag_mem := by simp, tag_ne := by simp, race_bound := by simp, race_final := by simp,
     not_reply := by simp },
   { name := 1, matchResponseTag := "t", matchResponseTags := ["t"], matchResponseAnonymous := false, race := false,
     action := .respond, matchOn := fun _ named => (named "t").isSome,
     matchOn_bound := by
       intro a a' named named' _ h
       rw [h "t" (by simp)]
     tag_mem := by simp, tag_ne := by simp, race_bound := by simp, race_final := by simp,
     not_reply := by simp }]

theorem evaluateRespond_valid : Valid evaluateRespond := by rfl

def evaluateRun (ls : List Label) : Option (Sys Nat String String Nat) :=
  (machine twoAnswers evaluateRespond plainQuery).exec ls ⟨.start plainQuery, .visiting, false⟩

theorem evaluateRun_run {ls : List Label} {x : Sys Nat String String Nat} (h : evaluateRun ls = some x) :
    (machine twoAnswers evaluateRespond plainQuery).Run
      ((machine twoAnswers evaluateRespond plainQuery).trace ls ⟨.start plainQuery, .visiting, false⟩ []) x :=
  System.run_exec (.start _ ⟨_, rfl⟩) h

/-- The response the exchange returned, if it has. -/
def Sys.answer {τ ε ρ ι : Type} (x : Sys τ ε ρ ι) : Option ρ :=
  match x.phase with
  | .returned _ result => result.response
  | _ => none

theorem Sys.answer_eq_some {τ ε ρ ι : Type} {x : Sys τ ε ρ ι} {response : ρ} (h : x.answer = some response) :
    ∃ origin result, x.phase = .returned origin result ∧ result.response = some response := by
  unfold answer at h
  split at h
  next origin result hphase => exact ⟨origin, result, hphase, h⟩
  · cases h

/-- The callback runs while the walk waits. -/
def suspendedCallback : List Label :=
  List.replicate 11 .advance ++ [.complete 0, .wake 0] ++ List.replicate 11 .advance

theorem outcome_sequential_suspended :
    ∃ x origin result, evaluateRun suspendedCallback = some x ∧ x.phase = .returned origin result ∧
      result.response = some "from the rule" ∧
      result = sequential twoAnswers evaluateRespond (.start plainQuery) := by
  let x := (evaluateRun suspendedCallback).get (by decide +kernel)
  have hx : evaluateRun suspendedCallback = some x := (Option.some_get _).symm
  have hanswer : x.answer = some "from the rule" := by decide +kernel
  obtain ⟨origin, result, hphase, hresponse⟩ := Sys.answer_eq_some hanswer
  refine ⟨x, origin, result, hx, hphase, hresponse, ?_⟩
  exact (outcome_sequential twoAnswers evaluateRespond plainQuery evaluateRespond_valid (by decide +kernel) _ x
    (evaluateRun_run hx) (System.along_exec (by decide +kernel))).1 origin result hphase

/-- The callback runs behind the look at its future and before the test. -/
def lateCallback : List Label := List.replicate 6 .advance ++ [.complete 0] ++ List.replicate 9 .advance

/-- The rule finds its exchange complete and no response filed, so the default server answers. -/
theorem late_callback_loses_response :
    Valid evaluateRespond ∧ (∀ r ∈ evaluateRespond, r.race = false) ∧
      ∃ past x origin result, (machine twoAnswers evaluateRespond plainQuery).Run past x ∧
        x.phase = .returned origin result ∧
        result ≠ sequential twoAnswers evaluateRespond (.start plainQuery) := by
  refine ⟨evaluateRespond_valid, by decide +kernel, ?_⟩
  let x := (evaluateRun lateCallback).get (by decide +kernel)
  have hx : evaluateRun lateCallback = some x := (Option.some_get _).symm
  have hanswer : x.answer = some "from the default" := by decide +kernel
  obtain ⟨origin, result, hphase, hresponse⟩ := Sys.answer_eq_some hanswer
  refine ⟨_, x, origin, result, evaluateRun_run hx, hphase, fun heq => ?_⟩
  have hsequential : (sequential twoAnswers evaluateRespond (.start plainQuery)).response = some "from the rule" := by
    decide +kernel
  rw [heq, hsequential] at hresponse
  exact absurd hresponse (by decide)

end SingBox.DNS
