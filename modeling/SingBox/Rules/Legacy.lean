import SingBox.Rules.RuleSets

/-!
# Rules on the answer of a lookup

In the legacy mode a rule on destination addresses is matched twice: before the
lookup with the addresses left open, and on the response. An inverted rule is
skipped before the lookup only if its conditions hold whatever the response is.
This goes wrong for one shape of rule, which is singled out here.
-/
namespace SingBox.Rules

open SingBox.Lib List Default Rule Flags

variable {α κ : Type}

/-- The switches before a lookup. -/
def Flags.preMatch : Flags := ⟨false, false, true, false⟩

section
variable (m : Metadata α κ) (response : Option (List α))

namespace Default

variable (r : Default α κ)

/-- The results that come in with the response. -/
def late (f : Flags) : List Bool :=
  if f.ipCIDRMatchSource then []
  else r.destinationIPCIDRItems.map (AddressItem.match (m.withResponse response) f.decided)

/-- The address items may be matched with the source address. -/
def MayMatchSource (f : Flags) : Prop :=
  f.ipCIDRMatchSource = true → ∀ i ∈ r.destinationIPCIDRItems, ∃ ipSet, i = .ipCIDR ipSet

variable {r} {f : Flags}

/-- With the source address an IP range does not look at a response. -/
theorem sourceMatch_withResponse (hsource : r.MayMatchSource f) :
    (if f.ipCIDRMatchSource then
        r.destinationIPCIDRItems.map (AddressItem.match (m.withResponse response) f.decided) else []) =
      if f.ipCIDRMatchSource then r.destinationIPCIDRItems.map (AddressItem.match m f) else [] := by
  cases hs : f.ipCIDRMatchSource with
  | false => rfl
  | true =>
    refine map_congr_left fun i hi => ?_
    obtain ⟨ipSet, rfl⟩ := hsource hs i hi
    simp only [AddressItem.match, decided, hs, if_true]
    rfl

theorem groups_withResponse (hignore : f.ignoreDestinationIPCIDRMatch = true) (hsource : r.MayMatchSource f) :
    r.groups (m.withResponse response) f.decided =
      { r.groups m f with
        destinationAddress := (r.groups m f).destinationAddress ++ r.late m response f } := by
  have hmatch := sourceMatch_withResponse m response hsource
  simp only [groups, late, hignore, Bool.true_or, if_true, append_nil]
  congr 1
  exact congrArg _ hmatch

/-- Nothing more comes in for a rule that is not left open and has no address item of its own. -/
theorem late_eq_nil (hignore : f.ignoreDestinationIPCIDRMatch = true) (hdefers : r.defers f = false)
    (hempty : (r.groups m f).destinationAddress = []) : r.late m response f = [] := by
  have hitems : r.destinationAddressItems = [] := by
    simpa [groups, hignore] using hempty
  simp only [defers, hignore, hitems, List.isEmpty_nil, Bool.true_and, Bool.and_true, Bool.and_eq_false_iff,
    Bool.not_eq_false', List.isEmpty_iff] at hdefers
  rcases hdefers with hs | hnil
  · rw [late, hs, if_pos rfl]
  · simp [late, hnil]

end Default

theorem fulfilled_grow {l l' : List Bool} (h : fulfilled l = true) (hany : l.any id = true → l'.any id = true)
    (hempty : l = [] → l' = []) : fulfilled l' = true := by
  rw [fulfilled, Bool.or_eq_true, List.isEmpty_iff] at h ⊢
  exact h.imp hempty hany

theorem hold_iff {g : Groups} : g.hold = true ↔ fulfilled g.sourceAddress = true ∧ fulfilled g.sourcePort = true ∧
    fulfilled g.destinationAddress = true ∧ fulfilled g.destinationPort = true := by
  simp only [Groups.hold, Bool.and_eq_true, and_assoc]

variable {f : Flags} {r : Default α κ}

/-- Groups that hold go on to hold, if nothing is asked for that was left open. -/
theorem hold_withResponse (hignore : f.ignoreDestinationIPCIDRMatch = true) (hsource : r.MayMatchSource f)
    (hdefers : r.defers f = false) (h : (r.groups m f).hold = true) :
    (r.groups (m.withResponse response) f.decided).hold = true := by
  rw [groups_withResponse m response hignore hsource]
  rw [hold_iff] at h ⊢
  refine ⟨h.1, h.2.1, fulfilled_grow h.2.2.1 (fun hany => ?_) (fun hempty => ?_), h.2.2.2⟩
  · rw [any_append, hany, Bool.true_or]
  · simp only [hempty, late_eq_nil m response hignore hdefers hempty, append_nil]

/-- A rule of a set without inversion. -/
inductive Headless.Upright : Headless α κ → Prop
  | default {rule : DefaultHeadless α κ} (h : rule.invert = false) : Headless.Upright (.default rule)
  | logical {mode : LogicalMode} {rules : List (Headless α κ)} (h : ∀ r ∈ rules, Headless.Upright r) :
    Headless.Upright (.logical mode rules false)

theorem LogicalMode.combine_mono (mode : LogicalMode) {β : Type} {l : List β} {v w : β → Verdict}
    (h : ∀ x ∈ l, v x = .yes → w x = .yes) (hyes : mode.combine (l.map v) = .yes) : mode.combine (l.map w) = .yes := by
  cases mode with
  | and =>
    simp only [combine, Verdict.all_eq_yes, forall_mem_map] at hyes ⊢
    exact fun x hx => h x hx (hyes x hx)
  | or =>
    simp only [combine, Verdict.any_eq_yes, mem_map] at hyes ⊢
    obtain ⟨x, hx, hv⟩ := hyes
    exact ⟨x, hx, h x hx hv⟩

variable {v : Flags → Groups → Verdict}

theorem Default.innerVerdict_eq_yes :
    r.innerVerdict m v f = .yes ↔ r.matchItems m = true ∧ (v f (r.groups m f) = .yes ∨
      (r.groups m f).destinationAddress.any id = true ∧ v f (r.groups m f) = .maybe) := by
  rw [innerVerdict]
  cases r.matchItems m <;> simp [Verdict.settleIf_eq_yes]

/-- The groups of a rule that is decided before the lookup are not open. -/
theorem Default.defers_eq_false (h : (r.groups m f).destinationAddress.any id = true) : r.defers f = false := by
  refine Bool.eq_false_iff.mpr fun hdefers => ?_
  simp only [defers, Bool.and_eq_true, List.isEmpty_iff] at hdefers
  -- a rule that is left open has no address item of its own
  simp [groups, hdefers.1.1.1, hdefers.2] at h

theorem Default.ownGroups_withResponse (hignore : f.ignoreDestinationIPCIDRMatch = true)
    (hsource : r.MayMatchSource f) (h : r.innerVerdict m r.ownGroups f = .yes) :
    r.innerVerdict (m.withResponse response) r.ownGroups f.decided = .yes := by
  obtain ⟨hitems, hgroups⟩ := (r.innerVerdict_eq_yes m).mp h
  rw [ownGroups, Verdict.pending_eq_yes, Verdict.pending_eq_maybe] at hgroups
  have hboth : (r.groups m f).hold = true ∧ r.defers f = false :=
    hgroups.elim id fun hany => ⟨hany.2.1, r.defers_eq_false m hany.1⟩
  refine (r.innerVerdict_eq_yes _).mpr ⟨hitems, .inl (Verdict.pending_eq_yes.mpr ⟨?_, rfl⟩)⟩
  exact hold_withResponse m response hignore hsource hboth.2 hboth.1

theorem Headless.Upright.verdict_withResponse {r : Headless α κ} (h : r.Upright)
    (hignore : f.ignoreDestinationIPCIDRMatch = true) (hyes : r.verdict m f = .yes) :
    r.verdict (m.withResponse response) f.decided = .yes := by
  induction h generalizing f with
  | @default rule hinvert =>
    rw [Headless.verdict, hinvert] at hyes ⊢
    cases hempty : rule.allItemsEmpty with
    | true => rfl
    | false =>
      rw [hempty] at hyes
      exact ownGroups_withResponse m response hignore (fun _ => rule.ipCIDROnly) hyes
  | @logical mode rules _ ih =>
    rw [Headless.verdict, Headless.verdictList_eq] at hyes ⊢
    exact mode.combine_mono (fun r hr => ih r hr (f := f.reset) hignore) hyes

/-! ### Nothing is open about a response -/

namespace RuleSetItem

theorem setVerdict_decided (outer : Groups) (f : Flags) (rules : List (Headless α κ)) :
    setVerdict m outer f.decided rules ≠ .maybe := by
  rw [setVerdict]
  cases mergeableRuleIn rules with
  | some branch =>
    simp only [mergedVerdict, defers_decided, Bool.false_and, Ne, Verdict.pending_eq_maybe]
    simp
  | none =>
    cases outer.hold with
    | false => simp
    | true =>
      refine Verdict.any_ne_maybe ?_
      rw [forall_mem_map]
      exact fun r _ => r.verdict_decided m f

/-- Where the rule itself is not left open, the sets are joined by `or`. -/
theorem setsVerdict_eq_any (outer : Groups) (f : Flags) (sets : List (List (Headless α κ))) :
    setsVerdict m false outer f sets = Verdict.any (sets.map (setVerdict m outer f)) := by
  induction sets with
  | nil => rfl
  | cons rules sets ih =>
    rw [setsVerdict, ih, map_cons, Verdict.any_cons]
    cases setVerdict m outer f rules with
    | no => exact (Verdict.no_or _).symm
    | maybe | yes => rfl

theorem exists_of_setsVerdict {isOpen : Bool} {outer : Groups} {f : Flags} {sets : List (List (Headless α κ))}
    (h : setsVerdict m isOpen outer f sets = .yes) :
    ∃ rules ∈ sets, setVerdict m outer f rules = .yes ∧ (isOpen = false ∨ setAnswers m outer f rules = true) := by
  induction sets with
  | nil => cases h
  | cons rules sets ih =>
    have hrest := fun hyes => (ih hyes).imp fun s hs => And.imp_left (mem_cons_of_mem rules) hs
    rw [setsVerdict] at h
    cases hv : setVerdict m outer f rules with
    | no => exact hrest (by simpa only [hv] using h)
    | maybe =>
      simp only [hv, Verdict.or_eq_yes] at h
      exact hrest (h.resolve_left (by simp))
    | yes =>
      simp only [hv, Verdict.pending_eq_yes, true_and, Bool.and_eq_false_iff, Bool.not_eq_false'] at h
      exact ⟨rules, mem_cons_self, hv, h⟩

end RuleSetItem

/-! ### References for domains only -/

theorem match_default_withResponse (rule : DefaultHeadless α κ) {c : Cache}
    (hc : c.ignoreDestinationIPCIDRMatch = true) :
    (Headless.default rule).match (m.withResponse response) c = (Headless.default rule).match m c := by
  have hgroups : rule.groups (m.withResponse response) c.toFlags = rule.groups m c.toFlags := by
    have hmatch : ∀ i ∈ rule.destinationIPCIDRItems, c.ipCIDRMatchSource = true →
        AddressItem.match (m.withResponse response) c.toFlags i = AddressItem.match m c.toFlags i := by
      intro i hi hs
      obtain ⟨ipSet, rfl⟩ := rule.ipCIDROnly i hi
      simp only [AddressItem.match, hs, if_true]
      rfl
    simp only [groups, hc, Bool.true_or, if_true]
    cases hs : c.ipCIDRMatchSource with
    | false => rfl
    | true =>
      simp only [if_true, map_congr_left fun i hi => hmatch i hi hs]
      rfl
  have hitems : rule.matchItems (m.withResponse response) = rule.matchItems m := rfl
  have hdomain : matchAnyItem (m.withResponse response) rule.destinationAddressItems =
    matchAnyItem m rule.destinationAddressItems := rfl
  simp only [Headless.match, matchDefault, matchInner, evaluateGroups_eq, hgroups, hitems, hdomain]

variable {item : RuleSetItem α κ}

theorem RuleSetItem.alone_withResponse (h : item.domainOnly = true) :
    item.alone (m.withResponse response) = item.alone m := by
  have hsets : ∀ c, item.matchSets (m.withResponse response) item.setList c = item.matchSets m item.setList c :=
    item.matchSets_congr (R := fun _ => True) (P := fun f => f.ignoreDestinationIPCIDRMatch = true) (fun _ hc => hc)
      (fun _ _ _ _ _ _ => trivial) (fun rule _ c hc => match_default_withResponse m response rule hc)
      (fun c => by rw [prepareNestedMatch, h]; rfl) fun _ _ _ _ => trivial
  unfold alone «match»
  rw [funext hsets]

/-! ### The sets of a reference -/

theorem Default.mayMatchSource_preMatch (r : Default α κ) : r.MayMatchSource .preMatch := nofun

theorem RuleSetItem.setVerdict_withResponse {r : Default α κ} {rules : List (Headless α κ)}
    (hup : ∀ x ∈ rules, x.Upright) (hyes : setVerdict m (r.groups m .preMatch) (item.nested .preMatch) rules = .yes)
    (hopen : r.defers .preMatch = false ∨ setAnswers m (r.groups m .preMatch) (item.nested .preMatch) rules = true) :
    setVerdict (m.withResponse response) (r.groups (m.withResponse response) preMatch.decided)
      (item.nested .preMatch).decided rules = .yes := by
  rw [setVerdict] at hyes ⊢
  rw [setAnswers] at hopen
  cases hmerge : mergeableRuleIn rules with
  | some branch =>
    simp only [hmerge, mergedVerdict, Verdict.pending_eq_yes, Bool.and_eq_true, defers_decided,
      Bool.false_and, and_true] at hyes hopen ⊢
    obtain ⟨⟨hitems, hhold⟩, hdefers⟩ := hyes
    refine ⟨hitems, ?_⟩
    rw [groups_withResponse m response rfl r.mayMatchSource_preMatch,
      groups_withResponse m response (f := item.nested .preMatch) rfl (fun _ => branch.ipCIDROnly)]
    rw [hold_iff] at hhold ⊢
    refine ⟨hhold.1, hhold.2.1, fulfilled_grow hhold.2.2.1 (fun hany => ?_) (fun hempty => ?_), hhold.2.2.2⟩
    · simp only [Groups.merge, any_append, Bool.or_eq_true] at hany ⊢
      tauto
    -- nothing was asked for, so no address item is left open on either side
    rw [hempty] at hdefers hopen
    simp only [Groups.merge, append_eq_nil_iff] at hempty
    have hbranch := late_eq_nil m response (f := item.nested .preMatch) rfl
      (by simpa using hdefers) hempty.2
    have houter := late_eq_nil m response rfl (hopen.resolve_right (by simp)) hempty.1
    simp only [Groups.merge, hempty.1, hempty.2, hbranch, houter, append_nil]
  | none =>
    simp only [hmerge] at hyes hopen ⊢
    cases hhold : (r.groups m .preMatch).hold with
    | false => simp [hhold] at hyes
    | true =>
      have hlate := hold_withResponse m response rfl r.mayMatchSource_preMatch (hopen.resolve_right (by simp)) hhold
      simp only [hhold, hlate, if_true] at hyes ⊢
      exact LogicalMode.combine_mono .or (fun x hx => (hup x hx).verdict_withResponse m response rfl) hyes

/-- The sets the rule refers to are open before the lookup and ruled out by the response,
but an item of the rule itself on the destination made it look decided. -/
def RuleSetItem.misses (item : RuleSetItem α κ) (r : Default α κ) : Bool :=
  !item.domainOnly && r.matchItems m && matchAnyItem m r.destinationAddressItems &&
    decide (Verdict.any (item.setList.map (setVerdict m (r.groups m .preMatch) (item.nested .preMatch))) = .maybe) &&
    decide (Verdict.any (item.setList.map (setVerdict (m.withResponse response)
      (r.groups (m.withResponse response) preMatch.decided) (item.nested .preMatch).decided)) = .no)

def RuleSetItem.Upright (item : RuleSetItem α κ) : Prop := ∀ rules ∈ item.setList, ∀ r ∈ rules, r.Upright

theorem Default.any_destinationAddress_preMatch (r : Default α κ) :
    (r.groups m .preMatch).destinationAddress.any id = matchAnyItem m r.destinationAddressItems := by
  simp [groups, preMatch, matchAnyItem, any_map]

theorem Default.innerVerdict_eq_no {r : Default α κ} {v : Flags → Groups → Verdict} {f : Flags}
    (hitems : r.matchItems m = true) : r.innerVerdict m v f = .no ↔ v f (r.groups m f) = .no := by
  rw [innerVerdict, hitems, if_pos rfl, Verdict.settleIf_eq_no]

theorem RuleSetItem.misses_iff (hup : item.Upright) (r : Default α κ) :
    item.misses m response r = true ↔
      r.innerVerdict m (r.groupsVerdict (some item) m) .preMatch = .yes ∧
        r.innerVerdict (m.withResponse response) (r.groupsVerdict (some item) (m.withResponse response))
          preMatch.decided = .no := by
  rw [innerVerdict_eq_yes]
  simp only [misses, Bool.and_eq_true, Bool.not_eq_true', decide_eq_true_eq, groupsVerdict,
    ← any_destinationAddress_preMatch]
  cases hdom : item.domainOnly with
  | true =>
    -- a reference for domains only is decided without the response
    constructor
    · intro h
      cases h.1.1.1.1
    rintro ⟨⟨hitems, hyes⟩, hno⟩
    rw [innerVerdict_eq_no (m.withResponse response) hitems] at hno
    simp only [verdict, hdom, if_true, Verdict.pending_eq_yes, Verdict.pending_eq_maybe, Bool.and_eq_true] at hyes
    have hboth : ((r.groups m .preMatch).hold = true ∧ item.alone m = true) ∧ r.defers .preMatch = false :=
      hyes.elim id fun h => ⟨h.2.1, r.defers_eq_false m h.1⟩
    simp only [groupsVerdict, verdict, hdom, if_true, Verdict.pending_eq_no, item.alone_withResponse m response hdom,
      hboth.1.2, hold_withResponse m response rfl r.mayMatchSource_preMatch hboth.2 hboth.1.1] at hno
    cases hno
  | false =>
    simp only [verdict, hdom, Bool.false_eq_true, if_false, true_and]
    constructor
    · rintro ⟨⟨⟨hitems, hany⟩, hmaybe⟩, hno⟩
      rw [r.defers_eq_false m hany, setsVerdict_eq_any]
      refine ⟨⟨hitems, .inr ⟨hany, hmaybe⟩⟩, ?_⟩
      rw [innerVerdict_eq_no (m.withResponse response) hitems]
      simp only [groupsVerdict, verdict, hdom, Bool.false_eq_true, if_false, defers_decided,
        setsVerdict_eq_any]
      exact hno
    · rintro ⟨⟨hitems, hyes⟩, hno⟩
      rw [innerVerdict_eq_no (m.withResponse response) hitems] at hno
      simp only [groupsVerdict, verdict, hdom, Bool.false_eq_true, if_false, defers_decided,
        setsVerdict_eq_any] at hno
      rcases hyes with hyes | ⟨hany, hmaybe⟩
      · obtain ⟨rules, hrules, hset, hopen⟩ := exists_of_setsVerdict m hyes
        have hset' := item.setVerdict_withResponse m response (hup rules hrules) hset hopen
        have := Verdict.any_eq_no.mp hno _ (mem_map_of_mem hrules)
        cases hset'.symm.trans this
      · rw [r.defers_eq_false m hany, setsVerdict_eq_any] at hmaybe
        exact ⟨⟨⟨hitems, hany⟩, hmaybe⟩, hno⟩

theorem Default.misses_iff (r : Default α κ) {ruleSet : Option (RuleSetItem α κ)}
    (hup : ∀ item ∈ ruleSet, item.Upright) :
    (ruleSet.any fun item => item.misses m response r) = true ↔
      r.innerVerdict m (r.groupsVerdict ruleSet m) .preMatch = .yes ∧
        r.innerVerdict (m.withResponse response) (r.groupsVerdict ruleSet (m.withResponse response))
          preMatch.decided = .no := by
  cases ruleSet with
  | none =>
    constructor
    · intro h
      cases h
    rintro ⟨hyes, hno⟩
    have hyes' := r.ownGroups_withResponse m response rfl r.mayMatchSource_preMatch hyes
    cases hyes'.symm.trans hno
  | some item => exact RuleSetItem.misses_iff m response (hup item rfl) r

theorem Default.groupsVerdict_decided (r : Default α κ) (ruleSet : Option (RuleSetItem α κ)) (f : Flags)
    (groups : Groups) : r.groupsVerdict ruleSet m f.decided groups ≠ .maybe := by
  cases ruleSet with
  | none => exact r.ownGroups_decided f groups
  | some item =>
    simp only [groupsVerdict, RuleSetItem.verdict, defers_decided]
    cases item.domainOnly with
    | true => simp [Verdict.pending_eq_maybe]
    | false =>
      simp only [Bool.false_eq_true, if_false, RuleSetItem.setsVerdict_eq_any]
      refine Verdict.any_ne_maybe ?_
      rw [forall_mem_map]
      exact fun rules _ => RuleSetItem.setVerdict_decided m groups (item.nested f) rules

/-- A rule without inversion, with conditions on the query alone. -/
inductive Rule.Upright : Rule α κ → Prop
  | default {rule : Default α κ} {ruleSet : Option (RuleSetItem α κ)} (hinvert : rule.invert = false)
    (hsets : ∀ item ∈ ruleSet, item.Upright) : Rule.Upright (.default rule ruleSet none)
  | logical {mode : LogicalMode} {rules : List (Rule α κ)} (h : ∀ r ∈ rules, Rule.Upright r) :
    Rule.Upright (.logical mode rules false)

/-- An inverted rule without inversion below. -/
inductive Rule.Inverted : Rule α κ → Prop
  | default {rule : Default α κ} {ruleSet : Option (RuleSetItem α κ)} (hinvert : rule.invert = true)
    (hsets : ∀ item ∈ ruleSet, item.Upright) : Rule.Inverted (.default rule ruleSet none)
  | logical {mode : LogicalMode} {rules : List (Rule α κ)} (h : ∀ r ∈ rules, Rule.Upright r) :
    Rule.Inverted (.logical mode rules true)

mutual

/-- The conditions of the rule look certain before the lookup only because a reference to
rule sets was missed, and the response rules them out. -/
def Rule.misses : Rule α κ → Bool
  | .default rule ruleSet _ => ruleSet.any fun item => item.misses m response rule
  | .logical .and rules _ =>
    someMisses rules && rules.all fun r => decide (r.verdict m .preMatch = .yes)
  | .logical .or rules _ =>
    someMisses rules &&
      rules.all fun r => decide (r.verdict (m.withResponse response) preMatch.decided = .no)

def Rule.someMisses : List (Rule α κ) → Bool
  | [] => false
  | rule :: rules => rule.misses || someMisses rules

end

theorem Rule.someMisses_eq (rules : List (Rule α κ)) :
    someMisses m response rules = rules.any (misses m response) := by
  induction rules with
  | nil => rfl
  | cons rule rules ih => rw [someMisses, ih, any_cons]

theorem LogicalMode.misses_iff {mode : LogicalMode} {rules : List (Rule α κ)} {invert : Bool}
    (h : ∀ r ∈ rules, (r.misses m response = true ↔
      r.verdict m .preMatch = .yes ∧ r.verdict (m.withResponse response) preMatch.decided = .no)) :
    (logical mode rules invert).misses m response = true ↔
      mode.combine (rules.map fun r => r.verdict m .preMatch) = .yes ∧
        mode.combine (rules.map fun r => r.verdict (m.withResponse response) preMatch.decided) = .no := by
  cases mode with
  | and =>
    simp only [misses, someMisses_eq, Bool.and_eq_true, any_eq_true, all_eq_true,
      decide_eq_true_eq, combine, Verdict.all_eq_yes, Verdict.all_eq_no, mem_map,
      forall_exists_index, and_imp, forall_apply_eq_imp_iff₂]
    constructor
    · rintro ⟨⟨r, hr, hmiss⟩, hall⟩
      exact ⟨hall, r, hr, ((h r hr).mp hmiss).2⟩
    · rintro ⟨hall, r, hr, hno⟩
      exact ⟨⟨r, hr, (h r hr).mpr ⟨hall r hr, hno⟩⟩, hall⟩
  | or =>
    simp only [misses, someMisses_eq, Bool.and_eq_true, any_eq_true, all_eq_true,
      decide_eq_true_eq, combine, Verdict.any_eq_yes, Verdict.any_eq_no, mem_map,
      forall_exists_index, and_imp, forall_apply_eq_imp_iff₂]
    constructor
    · rintro ⟨⟨r, hr, hmiss⟩, hall⟩
      exact ⟨⟨r, hr, ((h r hr).mp hmiss).1⟩, hall⟩
    · rintro ⟨⟨r, hr, hyes⟩, hall⟩
      exact ⟨⟨r, hr, (h r hr).mpr ⟨hyes, hall r hr⟩⟩, hall⟩

theorem Rule.Upright.misses_iff {r : Rule α κ} (h : r.Upright) :
    r.misses m response = true ↔
      r.verdict m .preMatch = .yes ∧ r.verdict (m.withResponse response) preMatch.decided = .no := by
  induction h with
  | @default rule ruleSet hinvert hsets =>
    simp only [misses, verdict, Default.verdictForMatch, Default.verdict, hinvert]
    cases hempty : rule.allItemsEmpty && ruleSet.isNone with
    | true =>
      rw [Bool.and_eq_true, Option.isNone_iff_eq_none] at hempty
      simp [hempty.2]
    | false => exact rule.misses_iff m response hsets
  | @logical mode rules _ ih =>
    rw [LogicalMode.misses_iff m response ih, verdict, verdict, verdictList_eq, verdictList_eq]
    exact Iff.rfl

theorem Rule.Upright.verdict_decided {r : Rule α κ} (h : r.Upright) (f : Flags) :
    r.verdict m f.decided ≠ .maybe := by
  induction h generalizing f with
  | @default rule ruleSet _ _ =>
    simp only [verdict, Default.verdictForMatch, Default.verdict]
    cases rule.allItemsEmpty && ruleSet.isNone with
    | true => simp
    | false =>
      exact Verdict.notIf_ne_maybe _ (Default.innerVerdict_decided m (rule.groupsVerdict_decided m ruleSet f _))
  | @logical mode rules _ ih =>
    rw [verdict, verdictList_eq]
    refine Verdict.notIf_ne_maybe _ (mode.combine_ne_maybe ?_)
    rw [forall_mem_map]
    exact fun r hr => ih r hr f.reset

namespace Rule

/-- The verdict on the conditions of a rule, before inversion. -/
def body : Rule α κ → Flags → Verdict
  | .default rule ruleSet _, f =>
    if rule.allItemsEmpty && ruleSet.isNone then .no else rule.innerVerdict m (rule.groupsVerdict ruleSet m) f
  | .logical mode rules _, f => mode.combine (rules.map fun r => r.verdict m f.reset)

variable {m} {rule : Rule α κ}

section
variable (h : rule.Inverted)
include h

theorem Inverted.verdict_eq (f : Flags) : rule.verdict m f = (rule.body m f).not := by
  cases h with
  | @default rule ruleSet hinvert _ =>
    rw [verdict, Default.verdictForMatch, Default.verdict, hinvert, body]
    cases rule.allItemsEmpty && ruleSet.isNone <;> rfl
  | logical _ =>
    rw [verdict, verdictList_eq]
    rfl

theorem Inverted.abstractMatch_eq : rule.abstractMatch m = rule.match m := by
  cases h <;> rw [Rule.match] <;> rfl

theorem Inverted.misses_iff :
    rule.misses m response = true ↔
      rule.body m .preMatch = .yes ∧ rule.body (m.withResponse response) preMatch.decided = .no := by
  cases h with
  | @default rule ruleSet _ hsets =>
    rw [misses, body, body]
    cases hempty : rule.allItemsEmpty && ruleSet.isNone with
    | true =>
      rw [Bool.and_eq_true, Option.isNone_iff_eq_none] at hempty
      simp [hempty.2]
    | false => exact rule.misses_iff m response hsets
  | logical h => exact LogicalMode.misses_iff m response fun r hr => (h r hr).misses_iff m response

theorem Inverted.body_decided (f : Flags) : rule.body m f.decided ≠ .maybe := by
  cases h with
  | @default rule ruleSet _ _ =>
    rw [body]
    cases rule.allItemsEmpty && ruleSet.isNone with
    | true => simp
    | false => exact Default.innerVerdict_decided m (rule.groupsVerdict_decided m ruleSet f _)
  | @logical mode _ h =>
    refine mode.combine_ne_maybe ?_
    rw [forall_mem_map]
    exact fun r hr => (h r hr).verdict_decided m f.reset

variable {c : Cache}

theorem Inverted.legacyPreMatch_eq (hdomain : c.ruleSetDomainOnly = false) :
    (rule.legacyPreMatch m c.resetRuleCache).1 = false ↔ rule.body m .preMatch = .yes := by
  have hflags : ({ c.resetRuleCache with ignoreDestinationIPCIDRMatch := true } : Cache).toFlags = .preMatch := by
    change (⟨false, false, true, c.ruleSetDomainOnly⟩ : Flags) = _
    rw [hdomain]
    rfl
  have htells := rule.match_tells m { c.resetRuleCache with ignoreDestinationIPCIDRMatch := true } rfl hdomain
  have hlegacy : (rule.legacyPreMatch m c.resetRuleCache).1 =
      (rule.abstractMatch m { c.resetRuleCache with ignoreDestinationIPCIDRMatch := true }).1 := by
    cases h <;> rfl
  rw [hlegacy, h.abstractMatch_eq, htells.matched, hflags, h.verdict_eq]
  cases rule.body m .preMatch <;> decide

theorem Inverted.matchAddressLimit_eq (hignore : c.ignoreDestinationIPCIDRMatch = false)
    (hdomain : c.ruleSetDomainOnly = false) :
    rule.matchAddressLimit m c response = false ↔
      rule.body (m.withResponse response) preMatch.decided = .yes := by
  have hflags : c.resetRuleCache.toFlags = preMatch.decided := by
    change (⟨false, false, c.ignoreDestinationIPCIDRMatch, c.ruleSetDomainOnly⟩ : Flags) = _
    rw [hignore, hdomain]
    rfl
  have htells := rule.match_tells (m.withResponse response) c.resetRuleCache rfl hdomain
  rw [matchAddressLimit, h.abstractMatch_eq, htells.matched, hflags, h.verdict_eq]
  cases rule.body (m.withResponse response) preMatch.decided <;> decide

end

/-- An inverted rule is skipped before the lookup only where no response can make it match,
except for the responses that rule out a reference it missed. -/
theorem skipped_iff (h : rule.Inverted) {c : Cache} (hignore : c.ignoreDestinationIPCIDRMatch = false)
    (hdomain : c.ruleSetDomainOnly = false) :
    ((rule.legacyPreMatch m c.resetRuleCache).1 = false → rule.matchAddressLimit m c response = false) ↔
      rule.misses m response = false := by
  have hdecided := h.body_decided (m := m.withResponse response) .preMatch
  rw [h.legacyPreMatch_eq hdomain, h.matchAddressLimit_eq response hignore hdomain, ← Bool.not_eq_true,
    h.misses_iff]
  cases rule.body m .preMatch <;>
    cases hlimit : rule.body (m.withResponse response) preMatch.decided <;> simp_all

end Rule
end

/-- A set that holds one IP range in each of two rules, and the rule that asks for a domain and
for the set. -/
def twoRanges (a b : Nat) : List (Headless Nat Unit) :=
  [.default ⟨⟨[], [], [], [], [.ipCIDR (· == a)], [], false⟩, by simp⟩,
    .default ⟨⟨[], [], [], [], [.ipCIDR (· == b)], [], false⟩, by simp⟩]

def domainAndRanges : Rule Nat Unit :=
  .default ⟨[], [], [], [fun _ => true], [], [], true⟩ (some ⟨[twoRanges 1 2], false, false, false⟩) none

def freshCache : Cache := ⟨⟨false, false, false, false⟩, 0#8, false⟩

def queryMetadata : Metadata Nat Unit := ⟨⟨0, none, [], ()⟩, none, fun _ => none, false⟩

theorem domainAndRanges_inverted : domainAndRanges.Inverted := by
  refine .default rfl fun item hitem => ?_
  cases hitem
  simp only [RuleSetItem.Upright, twoRanges, forall_eq, mem_cons, not_mem_nil,
    or_false, forall_eq_or_imp]
  exact ⟨.default rfl, .default rfl⟩

namespace Rule

theorem skipped_iff_in_range :
    domainAndRanges.misses queryMetadata (some [2]) = false ∧
      ((domainAndRanges.legacyPreMatch queryMetadata freshCache.resetRuleCache).1 = false →
        domainAndRanges.matchAddressLimit queryMetadata freshCache (some [2]) = false) := by
  have hmisses : domainAndRanges.misses queryMetadata (some [2]) = false := by decide +kernel
  exact ⟨hmisses, (skipped_iff (some [2]) domainAndRanges_inverted rfl rfl).mpr hmisses⟩

/-- The rule is skipped before the lookup, although it matches an address out of both ranges. -/
theorem skipped_although_matching :
    domainAndRanges.Inverted ∧
      (domainAndRanges.legacyPreMatch queryMetadata freshCache.resetRuleCache).1 = false ∧
      domainAndRanges.matchAddressLimit queryMetadata freshCache (some [3]) = true :=
  ⟨domainAndRanges_inverted, by decide +kernel⟩

end Rule
end SingBox.Rules
