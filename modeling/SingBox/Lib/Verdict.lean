import Mathlib.Data.List.Basic
import Mathlib.Tactic.Tauto

/-!
# Three-valued verdicts

A condition that cannot be evaluated yet is neither true nor false. Conjunction,
disjunction and negation are the strong Kleene ones.
-/
namespace SingBox.Lib

inductive Verdict where
  | no
  | maybe
  | yes
  deriving DecidableEq, Repr

namespace Verdict

def ofBool : Bool → Verdict
  | true => yes
  | false => no

def not : Verdict → Verdict
  | no => yes
  | maybe => maybe
  | yes => no

def notIf (invert : Bool) (v : Verdict) : Verdict := if invert then v.not else v

/-- A condition that holds once what is open about it is left aside. -/
def pending (holds isOpen : Bool) : Verdict := if holds then if isOpen then maybe else yes else no

/-- What was open is decided in favour. -/
def settleIf (settled : Bool) (v : Verdict) : Verdict := if settled && v = maybe then yes else v

def and : Verdict → Verdict → Verdict
  | no, _ => no
  | _, no => no
  | maybe, _ => maybe
  | _, maybe => maybe
  | yes, yes => yes

def or : Verdict → Verdict → Verdict
  | yes, _ => yes
  | _, yes => yes
  | maybe, _ => maybe
  | _, maybe => maybe
  | no, no => no

def all : List Verdict → Verdict := List.foldr and yes

def any : List Verdict → Verdict := List.foldr or no

variable {v w : Verdict} {l : List Verdict} {holds isOpen : Bool}

@[simp] theorem all_nil : all [] = yes := rfl
@[simp] theorem all_cons (v : Verdict) (l : List Verdict) : all (v :: l) = v.and (all l) := rfl
@[simp] theorem any_nil : any [] = no := rfl
@[simp] theorem any_cons (v : Verdict) (l : List Verdict) : any (v :: l) = v.or (any l) := rfl

theorem pending_eq_no : pending holds isOpen = no ↔ holds = false := by
  cases holds <;> cases isOpen <;> decide

theorem pending_eq_maybe :
    pending holds isOpen = maybe ↔ holds = true ∧ isOpen = true := by
  cases holds <;> cases isOpen <;> decide

theorem pending_eq_yes :
    pending holds isOpen = yes ↔ holds = true ∧ isOpen = false := by
  cases holds <;> cases isOpen <;> decide

theorem settleIf_eq_yes {settled : Bool} :
    settleIf settled v = yes ↔ v = yes ∨ settled = true ∧ v = maybe := by
  cases settled <;> cases v <;> decide

theorem settleIf_eq_no {settled : Bool} : settleIf settled v = no ↔ v = no := by
  cases settled <;> cases v <;> decide

theorem yes_and (v : Verdict) : yes.and v = v := by cases v <;> rfl

theorem no_or (v : Verdict) : no.or v = v := by cases v <;> rfl

theorem and_assoc (u v w : Verdict) : (u.and v).and w = u.and (v.and w) := by
  cases u <;> cases v <;> cases w <;> rfl

theorem or_assoc (u v w : Verdict) : (u.or v).or w = u.or (v.or w) := by
  cases u <;> cases v <;> cases w <;> rfl

theorem and_eq_yes : v.and w = yes ↔ v = yes ∧ w = yes := by cases v <;> cases w <;> decide

theorem or_eq_yes : v.or w = yes ↔ v = yes ∨ w = yes := by cases v <;> cases w <;> decide

theorem all_eq_yes : all l = yes ↔ ∀ v ∈ l, v = yes := by
  induction l with
  | nil => simp
  | cons v l ih => simp [and_eq_yes, ih]

theorem and_eq_no : v.and w = no ↔ v = no ∨ w = no := by cases v <;> cases w <;> decide

theorem or_eq_no : v.or w = no ↔ v = no ∧ w = no := by cases v <;> cases w <;> decide

theorem all_eq_no : all l = no ↔ no ∈ l := by
  induction l with
  | nil => simp
  | cons v l ih => rw [all_cons, and_eq_no, ih, List.mem_cons, eq_comm]

theorem any_eq_no : any l = no ↔ ∀ v ∈ l, v = no := by
  induction l with
  | nil => simp
  | cons v l ih => simp [or_eq_no, ih]

theorem any_eq_yes : any l = yes ↔ yes ∈ l := by
  induction l with
  | nil => simp
  | cons v l ih => rw [any_cons, or_eq_yes, ih, List.mem_cons, eq_comm]

theorem or_eq_maybe : v.or w = maybe ↔ v ≠ yes ∧ w ≠ yes ∧ (v = maybe ∨ w = maybe) := by
  cases v <;> cases w <;> decide

theorem any_eq_maybe : any l = maybe ↔ yes ∉ l ∧ maybe ∈ l := by
  induction l with
  | nil => simp
  | cons v l ih =>
    rw [any_cons, or_eq_maybe, ih, Ne, Ne, any_eq_yes, List.mem_cons, List.mem_cons, eq_comm (a := v),
      eq_comm (a := v)]
    tauto

theorem all_ne_maybe (h : ∀ v ∈ l, v ≠ maybe) : all l ≠ maybe := by
  induction l with
  | nil => simp
  | cons v l ih =>
    obtain ⟨hv, hl⟩ := List.forall_mem_cons.mp h
    have := ih hl
    rw [all_cons]
    cases v <;> cases hall : all l <;> simp_all [and]

theorem any_ne_maybe (h : ∀ v ∈ l, v ≠ maybe) : any l ≠ maybe :=
  fun hany => h maybe (any_eq_maybe.mp hany).2 rfl

theorem notIf_ne_maybe (invert : Bool) (h : v ≠ maybe) : notIf invert v ≠ maybe := by
  cases invert <;> cases v <;> simp_all [notIf, not]

theorem settleIf_ne_maybe (settled : Bool) (h : v ≠ maybe) : settleIf settled v = v := by
  simp [settleIf, h]

theorem notIf_ofBool (invert b : Bool) : notIf invert (ofBool b) = ofBool (invert ^^ b) := by
  cases invert <;> cases b <;> rfl

theorem all_ofBool (l : List Bool) : all (l.map ofBool) = ofBool (l.all id) := by
  induction l with
  | nil => rfl
  | cons b l ih => cases b <;> simp [ih, ofBool] <;> cases l.all id <;> rfl

theorem any_ofBool (l : List Bool) : any (l.map ofBool) = ofBool (l.any id) := by
  induction l with
  | nil => rfl
  | cons b l ih => cases b <;> simp [ih, ofBool] <;> cases l.any id <;> rfl

end Verdict
end SingBox.Lib
