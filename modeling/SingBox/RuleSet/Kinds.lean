import SingBox.RuleSet.Remote

/-!
# Rule sets, subscriptions and WARP profiles in one cache file

All three are kept as the rule sets are, by tag: a value of one kind is read as a value of any other.
-/
namespace SingBox.RuleSet

open Option AList SavedBinary

inductive Kind where
  | ruleSet
  | subscription
  | warpConfig
  deriving DecidableEq

/-- A call of `SaveRuleSet`, `SaveSubscription` or `SaveWARPConfig`, or the end of the process and another start. -/
inductive Call where
  | save (kind : Kind) (tag : String) (set : SavedBinary)
  | restart

section
variable (sha256 : List UInt8 → Digest) (cacheID : List UInt8)

namespace Disk

variable (d : Disk) (tag : String)

def loadWARPConfig : Option SavedBinary := d.loadRuleSet (fileHash sha256) (cacheID, tag)

def saveWARPConfig (set : SavedBinary) : Disk := d.saveRuleSet sha256 (cacheID, tag) set .done

def loadSubscription : Option SavedBinary := d.loadRuleSet (fileHash sha256) (cacheID, tag)

def saveSubscription (set : SavedBinary) : Disk := d.saveRuleSet sha256 (cacheID, tag) set .done

def load : Kind → Option SavedBinary
  | .ruleSet => d.loadRuleSet (fileHash sha256) (cacheID, tag)
  | .subscription => d.loadSubscription sha256 cacheID tag
  | .warpConfig => d.loadWARPConfig sha256 cacheID tag

/-- The start prunes the files; a cache file that began empty has nothing of an earlier version to move. -/
def call : Call → Disk
  | .save .ruleSet tag set => d.saveRuleSet sha256 (cacheID, tag) set .done
  | .save .subscription tag set => d.saveSubscription sha256 cacheID tag set
  | .save .warpConfig tag set => d.saveWARPConfig sha256 cacheID tag set
  | .restart => d.pruneRuleSetFiles (fileHash sha256)

/-- What the calls leave, the last one first. -/
def after : List Call → Disk
  | [] => ⟨∅, ∅, ∅⟩
  | c :: past => (after past).call sha256 cacheID c

end Disk

/-- The last value saved as one of the kinds under one of the tags. -/
def lastSaved (p : Kind → String → Bool) : List Call → Option SavedBinary
  | [] => none
  | .save kind tag set :: past => if p kind tag then some set else lastSaved p past
  | .restart :: past => lastSaved p past

/-- The tags whose values are in the file of this one: the name has four bytes of a hash. -/
def shares (tag : String) (_ : Kind) (t : String) : Bool :=
  ruleSetFileName (fileHash sha256) (cacheID, t) = ruleSetFileName (fileHash sha256) (cacheID, tag)

variable {sha256 cacheID} {past : List Call} {tag : String}

/-- Where no other tag has its values in the file of this one, the last value in the file is the last one of the tag. -/
theorem lastSaved_shares (hname : ∀ k t set, .save k t set ∈ past →
      ruleSetFileName (fileHash sha256) (cacheID, t) = ruleSetFileName (fileHash sha256) (cacheID, tag) → t = tag) :
    lastSaved (shares sha256 cacheID tag) past = lastSaved (fun _ t => t = tag) past := by
  induction past with
  | nil => rfl
  | cons c past ih =>
    have hpast := ih fun k t set h => hname k t set (List.mem_cons_of_mem _ h)
    cases c with
    | restart => exact hpast
    | save kind t set =>
      have ht : shares sha256 cacheID tag kind t = decide (t = tag) :=
        decide_eq_decide.mpr ⟨hname kind t set List.mem_cons_self, fun h => h ▸ rfl⟩
      simp only [lastSaved, ht, hpast]

variable (sha256 cacheID) in
/-- The record of a tag is of the last value saved under it, and its file of the last one saved under such a name. -/
theorem after_spec (past : List Call) : (Disk.after sha256 cacheID past).legacy = ∅ ∧ ∀ tag,
    (Disk.after sha256 cacheID past).records.lookup (cacheID, tag) =
      (lastSaved (fun _ t => t = tag) past).map ruleSetRecord ∧
    ((lastSaved (fun _ t => t = tag) past).isSome →
      (Disk.after sha256 cacheID past).file (fileHash sha256) (cacheID, tag) =
        (lastSaved (shares sha256 cacheID tag) past).map SavedBinary.content) := by
  induction past with
  | nil => exact ⟨rfl, fun tag => ⟨rfl, by simp [lastSaved]⟩⟩
  | cons c past ih =>
    obtain ⟨hlegacy, hsaved⟩ := ih
    cases c with
    | restart =>
      refine ⟨hlegacy, fun tag => ⟨(hsaved tag).1, fun h => ?_⟩⟩
      obtain ⟨set, hset⟩ := isSome_iff_exists.mp h
      have hrecord := (hsaved tag).1
      rw [show lastSaved _ past = _ from hset] at hrecord
      exact (file_prune hrecord).trans ((hsaved tag).2 h)
    | save kind t set =>
      generalize hd : Disk.after sha256 cacheID past = d at hlegacy hsaved
      have hafter : Disk.after sha256 cacheID (.save kind t set :: past) =
          d.saveRuleSet sha256 (cacheID, t) set .done := by
        cases kind <;> simp [Disk.after, hd] <;> rfl
      rw [hafter]
      refine ⟨?_, fun tag => ⟨?_, fun h => ?_⟩⟩
      · show d.legacy.erase (cacheID, t) = ∅
        rw [hlegacy]
        rfl
      · show (d.records.insert (cacheID, t) (ruleSetRecord set)).lookup (cacheID, tag) = _
        by_cases ht : t = tag
        · subst ht
          simp [lastSaved]
        · have hne : (cacheID, tag) ≠ (cacheID, t) := fun h => ht (Prod.mk.inj h).2.symm
          rw [lookup_insert_ne hne, (hsaved tag).1]
          simp [lastSaved, ht]
      · show ((d.write _ _ set _).rename (fileHash sha256) (cacheID, t) set).file _ _ = _
        by_cases hname : shares sha256 cacheID tag kind t = true
        · rw [lastSaved, if_pos hname, Disk.file, ← of_decide_eq_true hname]
          exact file_rename_self
        have hne : ruleSetFileName (fileHash sha256) (cacheID, tag) ≠ ruleSetFileName _ (cacheID, t) :=
          fun h => hname (decide_eq_true h.symm)
        have ht : t ≠ tag := fun h => hne (h ▸ rfl)
        rw [lastSaved, if_neg hname, ← (hsaved tag).2 (by simpa [lastSaved, ht] using h)]
        refine (lookup_insert_ne hne).trans ((lookup_erase_ne ?_).trans (file_write _))
        exact ruleSetFileName_ne_writingName _ _ _

end

/-- A subscription is saved under the tag of a rule set. -/
def subscribed : List Call := [.save .subscription "a" (oneByte 2), .save .ruleSet "a" (oneByte 1)]

end SingBox.RuleSet
