import SingBox.Provider.Replace
import Mathlib.Data.List.TakeWhile

/-!
# An update with failures

Whatever fails while outbounds are created and started, the outbounds that are applied have
their dependencies, those that are not depend on a failure, and an update that is refused
leaves nothing behind.
-/
namespace SingBox.Provider

open Lib List PreparedOutbound

variable {δ ω : Type}

/-- A list as `prepareOutbounds` returns it. -/
structure DependenciesFirst (outbounds : List (PreparedOutbound δ ω)) : Prop where
  nodup : (outbounds.map tag).Nodup
  first : ∀ before o after, outbounds = before ++ o :: after →
    ∀ d ∈ o.dependencies, d ∈ before.map tag

theorem prepareOutbounds_dependenciesFirst {providerTag outboundDetour : String} {sources : List (Outbound δ ω)}
    {prepared : List (PreparedOutbound δ ω)} (h : prepareOutbounds providerTag sources outboundDetour = .ok prepared) :
    DependenciesFirst prepared := by
  have harranged := sortOutbounds_ok h
  refine ⟨harranged.nodup, fun before o after heq d hd => harranged.first before o after heq d hd ?_⟩
  exact dependency_mem (harranged.mem o (heq ▸ mem_append_right _ mem_cons_self)) hd

variable {outbounds : List (PreparedOutbound δ ω)}

/-- The names are those of the later outbounds first. -/
theorem DependenciesFirst.pairwise (h : DependenciesFirst outbounds) :
    outbounds.Pairwise fun o o' => o'.tag ∉ o.dependencies := by
  rw [pairwise_iff_forall_sublist]
  intro o o' hsub hdep
  obtain ⟨front, back, rfl, ho, ho'⟩ := cons_sublist_iff.mp hsub
  obtain ⟨before, after, rfl⟩ := append_of_mem ho
  have hmem : o' ∈ back := ho'.subset mem_cons_self
  have hd := h.first before o (after ++ back) (by simp) o'.tag hdep
  have hnodup := h.nodup
  simp only [map_append, append_assoc, nodup_append] at hnodup
  exact hnodup.2.2 _ hd _ (by simp; exact .inr (.inr ⟨o', hmem, rfl⟩)) rfl

variable {o : PreparedOutbound δ ω}

theorem DependenciesFirst.irrefl (h : DependenciesFirst outbounds) (ho : o ∈ outbounds) :
    o.tag ∉ o.dependencies := by
  intro hdep
  obtain ⟨before, after, rfl⟩ := append_of_mem ho
  have hd := h.first before o after rfl o.tag hdep
  have hnodup := h.nodup
  rw [map_append, nodup_append] at hnodup
  exact hnodup.2.2 _ hd _ mem_cons_self rfl

/-- In what is filtered from the list, a dependency that passes the filter comes first too. -/
theorem DependenciesFirst.filter_first (h : DependenciesFirst outbounds) {p : String → Bool}
    {before after : List (PreparedOutbound δ ω)} (heq : outbounds.filter (fun o => p o.tag) = before ++ o :: after)
    {d : String} (hd : d ∈ o.dependencies) (hp : p d = true) : d ∈ before.map tag := by
  obtain ⟨front, back, rfl, hfront, hback⟩ := filter_eq_append_iff.mp heq
  obtain ⟨skipped, rest, rfl, hskipped, _, _⟩ := filter_eq_cons_iff.mp hback
  have hmem := h.first (front ++ skipped) o rest (by simp) d hd
  obtain ⟨x, hx, rfl⟩ := mem_map.mp hmem
  rcases mem_append.mp hx with hx | hx
  · exact mem_map_of_mem (hfront ▸ mem_filter.mpr ⟨hx, hp⟩)
  · exact absurd hp (hskipped x hx)

def DependsOn (outbounds : List (PreparedOutbound δ ω)) (t d : String) : Prop :=
  ∃ o ∈ outbounds, o.tag = t ∧ d ∈ o.dependencies

theorem closeAffected_reaches {graphs : List (PreparedOutbound δ ω)} {affected : List String} {t : String}
    (ht : t ∈ closeAffected graphs affected) : ∃ t' ∈ affected, Relation.ReflTransGen (DependsOn graphs) t t' := by
  have hpass : ∀ affected, ∀ t ∈ (affectPass graphs affected).affected,
      ∃ t' ∈ affected, Relation.ReflTransGen (DependsOn graphs) t t' := by
    intro affected
    refine foldl_keep
      (fun c : Closure => ∀ t ∈ c.affected, ∃ t' ∈ affected, Relation.ReflTransGen (DependsOn graphs) t t')
      (fun c o ho hc => ?_) fun t ht => ⟨t, ht, .refl⟩
    unfold Closure.visit
    split_ifs with hknown hany
    · exact hc
    · obtain ⟨d, hd, hin⟩ := any_eq_true.mp hany
      obtain ⟨t', ht', hway⟩ := hc d (of_decide_eq_true hin)
      exact forall_mem_cons.mpr ⟨⟨t', ht', hway.head ⟨o, ho, rfl, hd⟩⟩, hc⟩
    · exact hc
  fun_induction closeAffected graphs affected with
  | case1 affected pass hchanged ih =>
    obtain ⟨t', ht', hway⟩ := ih ht
    obtain ⟨t'', ht'', hway'⟩ := hpass affected t' ht'
    exact ⟨t'', ht'', hway.trans hway'⟩
  | case2 affected pass hchanged => exact hpass affected t ht

/-- An update touches the tags with another source than before, or with none now or before, and what depends on them
in the old or the new graph. -/
theorem mem_affectedOutbounds_iff [DecidableEq δ] [DecidableEq ω]
    (oldOutbounds newOutbounds : List (PreparedOutbound δ ω)) (t : String) :
    t ∈ affectedOutbounds oldOutbounds newOutbounds ↔ ∃ t', sourceOf oldOutbounds t' ≠ sourceOf newOutbounds t' ∧
      Relation.ReflTransGen (DependsOn (oldOutbounds ++ newOutbounds)) t t' := by
  simp only [← mem_changedTags]
  refine ⟨closeAffected_reaches, ?_⟩
  rintro ⟨t', ht', hway⟩
  induction hway using Relation.ReflTransGen.head_induction_on with
  | refl => exact (closeAffected_spec _ _).1 ht'
  | head hdep _ ih =>
    obtain ⟨o, ho, rfl, hd⟩ := hdep
    exact affectedOutbounds_closed o ho _ hd ih

section
variable (outcomes : Outcomes δ ω) (manager : Outbounds.Manager) (managerStage : StartStage)
  (affected : List String) (newOutbounds : List (PreparedOutbound δ ω))

/-- The outbound failed to be created or started, or it was to be kept and is not there. -/
def Broken (t : String) : Prop :=
  (∃ p ∈ newOutbounds, p.tag = t ∧ t ∈ affected ∧ ((∃ err, outcomes.create p = .error err) ∨
    ∃ o stage, outcomes.create p = .ok o ∧ outcomes.lifecycle o.val = true ∧ stage.index ≤ managerStage.index ∧
      (outcomes.start o.val stage).failed = true)) ∨
  (t ∉ affected ∧ manager.outbound t = none)

/-- Broken outbounds are blamed, and what depends on one that is. -/
structure Blames (B : String → Prop) : Prop where
  broken : ∀ {t}, Broken outcomes manager managerStage affected newOutbounds t → B t
  dependency : ∀ {p}, p ∈ newOutbounds → ∀ {d}, d ∈ p.dependencies → B d → B p.tag

theorem blames : Blames outcomes manager managerStage affected newOutbounds fun t =>
    ∃ t', Relation.ReflTransGen (DependsOn newOutbounds) t t' ∧
      Broken outcomes manager managerStage affected newOutbounds t' where
  broken h := ⟨_, .refl, h⟩
  dependency := by
    rintro p hp d hd ⟨t', hpath, hbroken⟩
    exact ⟨t', .head ⟨p, hp, rfl, hd⟩ hpath, hbroken⟩

end

section
variable {outcomes : Outcomes δ ω} {manager : Outbounds.Manager} {managerStage : StartStage}
  {affected : List String} {newOutbounds : List (PreparedOutbound δ ω)} {B : String → Prop}

/-- The candidate made from a prepared outbound, if its creation succeeds. -/
def Outcomes.created (outcomes : Outcomes δ ω) (p : PreparedOutbound δ ω) : Option Outbounds.Outbound :=
  (outcomes.create p).toOption.map Subtype.val

variable {p : PreparedOutbound δ ω} {c : Outbounds.Outbound}

theorem created_eq_some : outcomes.created p = some c ↔ ∃ o, outcomes.create p = .ok o ∧ o.val = c := by
  unfold Outcomes.created
  cases outcomes.create p <;> simp [Except.toOption]

theorem created_tag (h : outcomes.created p = some c) : c.tag = p.tag := by
  obtain ⟨o, _, rfl⟩ := created_eq_some.mp h
  exact o.property

variable (outcomes B) in
/-- The loop over `candidatesToBuild` behind the outbounds it has seen. -/
structure Built (seen : List (PreparedOutbound δ ω)) (b : Build δ ω) : Prop where
  candidates : b.prepared.map outcomes.created = b.candidates.map some
  sublist : b.prepared.Sublist seen
  split : ∀ p ∈ seen, p ∈ b.prepared ∨ p.tag ∈ b.invalid
  invalid : ∀ t ∈ b.invalid, t ∈ seen.map tag ∧ B t

theorem Built.tags {seen : List (PreparedOutbound δ ω)} {b : Build δ ω} (h : Built outcomes B seen b) :
    b.candidates.map Outbounds.Outbound.tag = b.prepared.map tag := by
  have hcandidates := h.candidates
  generalize b.prepared = prepared at hcandidates
  generalize b.candidates = candidates at hcandidates
  induction prepared generalizing candidates with
  | nil =>
    cases candidates with
    | nil => rfl
    | cons c candidates => cases hcandidates
  | cons p prepared ih =>
    cases candidates with
    | nil => cases hcandidates
    | cons c candidates =>
      rw [map_cons, map_cons] at hcandidates
      obtain ⟨hc, hrest⟩ := List.cons.inj hcandidates
      rw [map_cons, map_cons, created_tag hc, ih candidates hrest]

theorem mem_missingDependency {invalid : List String} {lookup : String → Option Outbounds.Outbound}
    (h : missingDependency p invalid lookup ≠ "") :
    ∃ d ∈ p.dependencies, d ∈ invalid ∨ lookup d = none := by
  unfold missingDependency at h
  cases hfind : p.dependencies.find? fun d => d ∈ invalid || (lookup d).isNone with
  | none =>
    rw [hfind] at h
    exact absurd rfl h
  | some d =>
    refine ⟨d, mem_of_find?_eq_some hfind, ?_⟩
    simpa using List.find?_some hfind

section
variable (hB : Blames outcomes manager managerStage affected newOutbounds B) (hnew : DependenciesFirst newOutbounds)
include hB hnew

theorem Built.next {seen after : List (PreparedOutbound δ ω)} {b : Build δ ω}
    (heq : newOutbounds.filter (fun o => decide (o.tag ∈ affected)) = seen ++ p :: after)
    (h : Built outcomes B seen b) : Built outcomes B (seen ++ [p]) (b.next outcomes manager p) := by
  have hp : p ∈ newOutbounds ∧ p.tag ∈ affected := by
    have : p ∈ newOutbounds.filter fun o => decide (o.tag ∈ affected) := by
      rw [heq]
      simp
    simpa using this
  -- leaving the outbound out for a reason keeps the invariant
  have hleft : B p.tag → Built outcomes B (seen ++ [p]) { b with invalid := p.tag :: b.invalid } := by
    intro hblamed
    refine ⟨h.candidates, h.sublist.trans (sublist_append_left _ _), fun q hq => ?_, fun t ht => ?_⟩
    · rcases mem_append.mp hq with hq | hq
      · exact (h.split q hq).imp_right (mem_cons_of_mem _)
      · rw [mem_singleton.mp hq]
        exact .inr mem_cons_self
    · rcases mem_cons.mp ht with rfl | ht
      · exact ⟨by simp, hblamed⟩
      · obtain ⟨hin, hbl⟩ := h.invalid t ht
        exact ⟨by rw [map_append]; exact mem_append_left _ hin, hbl⟩
  unfold Build.next
  split
  next hmissing =>
    refine hleft ?_
    obtain ⟨d, hd, hcase⟩ := mem_missingDependency hmissing
    refine hB.dependency hp.1 hd ?_
    rcases hcase with hinvalid | hnone
    · exact (h.invalid d hinvalid).2
    obtain ⟨hfind, hmanager⟩ := Option.or_eq_none_iff.mp hnone
    by_cases haffected : d ∈ affected
    · -- an affected dependency has been dealt with before
      have hbefore := hnew.filter_first (p := fun t => decide (t ∈ affected)) heq hd (decide_eq_true haffected)
      obtain ⟨q, hq, rfl⟩ := mem_map.mp hbefore
      rcases h.split q hq with hbuilt | hinvalid
      · have htag : q.tag ∈ b.candidates.map Outbounds.Outbound.tag := h.tags ▸ mem_map_of_mem hbuilt
        obtain ⟨c, hc, htag⟩ := mem_map.mp htag
        have := List.find?_eq_none.mp hfind c (mem_reverse.mpr hc)
        simp [htag] at this
      · exact (h.invalid _ hinvalid).2
    · exact hB.broken (.inr ⟨haffected, hmanager⟩)
  next =>
    cases hcreate : outcomes.create p with
    | error err =>
      exact hleft (hB.broken (.inl ⟨p, hp.1, rfl, hp.2, .inl ⟨err, hcreate⟩⟩))
    | ok o =>
      refine ⟨?_, h.sublist.append (.refl _), fun q hq => ?_, fun t ht => ?_⟩
      · simp [h.candidates, Outcomes.created, hcreate, Except.toOption]
      · rcases mem_append.mp hq with hq | hq
        · exact (h.split q hq).imp_left (mem_append_left _)
        · exact .inl (mem_append_right _ hq)
      · obtain ⟨hin, hbl⟩ := h.invalid t ht
        exact ⟨by rw [map_append]; exact mem_append_left _ hin, hbl⟩

theorem built : Built outcomes B (newOutbounds.filter fun o => decide (o.tag ∈ affected))
    (build outcomes manager (newOutbounds.filter fun o => decide (o.tag ∈ affected))) := by
  refine foldl_seen (fun b seen => (∃ after, seen ++ after = newOutbounds.filter fun o => decide (o.tag ∈ affected)) →
    Built outcomes B seen b) (fun b seen p h hafter => ?_) _ (fun _ => ?_) ⟨[], append_nil _⟩
  · obtain ⟨after, heq⟩ := hafter
    rw [append_assoc, singleton_append] at heq
    exact (h ⟨_, heq⟩).next hB hnew heq.symm
  · exact ⟨rfl, .slnil, nofun, nofun⟩

end

/-- What `Starting.next` reads as the dependencies of a candidate. -/
def candidateDependencies (b : Build δ ω) (tag : String) : List String :=
  ((preparedByTag b.prepared tag).map dependencies).getD []

section
variable {b : Build δ ω} (hnew : DependenciesFirst newOutbounds)
  (hb : Built outcomes B (newOutbounds.filter fun o => decide (o.tag ∈ affected)) b)
include hb

theorem Built.prepared_sublist : b.prepared.Sublist newOutbounds := hb.sublist.trans filter_sublist

variable {c : Outbounds.Outbound}

theorem Built.candidate_prepared (hc : c ∈ b.candidates) :
    ∃ p ∈ b.prepared, outcomes.created p = some c ∧ p.tag = c.tag ∧ p ∈ newOutbounds ∧ p.tag ∈ affected := by
  have hsome : some c ∈ b.prepared.map outcomes.created := by
    rw [hb.candidates]
    exact mem_map_of_mem hc
  obtain ⟨p, hp, hcreated⟩ := mem_map.mp hsome
  have hmem := hb.sublist.subset hp
  rw [mem_filter, decide_eq_true_eq] at hmem
  exact ⟨p, hp, hcreated, (created_tag hcreated).symm, hmem.1, hmem.2⟩

theorem Built.candidate_of_prepared (hp : p ∈ b.prepared) :
    ∃ c ∈ b.candidates, outcomes.created p = some c ∧ c.tag = p.tag := by
  have hmem : outcomes.created p ∈ b.candidates.map some := hb.candidates ▸ mem_map_of_mem hp
  obtain ⟨c, hc, heq⟩ := mem_map.mp hmem
  exact ⟨c, hc, heq.symm, created_tag heq.symm⟩

include hnew

theorem Built.prepared_nodup : (b.prepared.map tag).Nodup :=
  (hb.prepared_sublist.map _).nodup hnew.nodup

theorem Built.candidateDependencies_eq (hp : p ∈ b.prepared) : candidateDependencies b p.tag = p.dependencies := by
  rw [candidateDependencies, preparedByTag_of_nodup (hb.prepared_nodup hnew) hp]
  rfl

/-- No candidate depends on itself or on a later one. -/
theorem Built.candidates_pairwise :
    b.candidates.Pairwise fun c c' => c'.tag ∉ candidateDependencies b c.tag := by
  have hprepared : b.prepared.Pairwise fun p p' => p'.tag ∉ candidateDependencies b p.tag := by
    refine ((hnew.pairwise.sublist (hb.prepared_sublist)).imp_of_mem ?_)
    intro p p' hp _ hnot
    rwa [hb.candidateDependencies_eq hnew hp]
  have htags : (b.prepared.map tag).Pairwise fun t t' => t' ∉ candidateDependencies b t :=
    pairwise_map.mpr hprepared
  rw [← hb.tags] at htags
  exact pairwise_map.mp htags

theorem Built.candidate_irrefl (hc : c ∈ b.candidates) :
    c.tag ∉ candidateDependencies b c.tag := by
  obtain ⟨p, hp, _, htag, hmem, _⟩ := hb.candidate_prepared hc
  rw [← htag, hb.candidateDependencies_eq hnew hp]
  exact hnew.irrefl hmem

end

theorem mem_scope_start {scope : Scope} {c o : Outbounds.Outbound} {started : Started} :
    o ∈ (scope.start c started).children ↔ o ∈ scope.children ∨ o = c ∧ ∃ result, started = .ran result := by
  cases started with
  | closed err => simp [Scope.start]
  | ran result =>
    by_cases hin : c ∈ scope.children
    · simp +contextual [Scope.start, hin]
    · simp [Scope.start, hin]

/-- The turn of a candidate in a stage. -/
structure Turn (outcomes : Outcomes δ ω) (b : Build δ ω) (stage : StartStage) (c : Outbounds.Outbound)
    (s s' : Starting) : Prop where
  grows : s.invalid ⊆ s'.invalid
  reason : ∀ t ∈ s'.invalid, t ∈ s.invalid ∨ t = c.tag ∧ ((∃ d ∈ candidateDependencies b c.tag, d ∈ s.invalid) ∨
    outcomes.lifecycle c = true ∧ (outcomes.start c stage).failed = true)
  joins : s.scope.children ⊆ s'.scope.children
  child : ∀ o ∈ s'.scope.children, o ∈ s.scope.children ∨ o = c
  settled : c.tag ∉ s'.invalid → ∀ d ∈ candidateDependencies b c.tag, d ∉ s.invalid
  started : c.tag ∉ s'.invalid → outcomes.lifecycle c = true →
    c ∈ s'.scope.children ∧ (outcomes.start c stage).failed = false

theorem turn (outcomes : Outcomes δ ω) (b : Build δ ω) (stage : StartStage) (s : Starting) (c : Outbounds.Outbound) :
    Turn outcomes b stage c s (s.next outcomes (preparedByTag b.prepared) stage c) := by
  have hjoins : s.scope.children ⊆ (s.scope.start c (outcomes.start c stage)).children :=
    fun o ho => mem_scope_start.mpr (.inl ho)
  have hchild : ∀ o ∈ (s.scope.start c (outcomes.start c stage)).children, o ∈ s.scope.children ∨ o = c :=
    fun o ho => (mem_scope_start.mp ho).imp_right And.left
  unfold Starting.next
  dsimp only
  split_ifs with hinvalid hany hlifecycle hfailed
  · exact ⟨.refl _, fun t => .inl, .refl _, fun o => .inl, absurd hinvalid, absurd hinvalid⟩
  · obtain ⟨d, hd, hin⟩ := any_eq_true.mp hany
    exact ⟨subset_cons_self _ _, forall_mem_cons.mpr ⟨.inr ⟨rfl, .inl ⟨d, hd, of_decide_eq_true hin⟩⟩, fun t => .inl⟩,
      .refl _, fun o => .inl, absurd mem_cons_self, absurd mem_cons_self⟩
  all_goals
    have hnone : ∀ d ∈ candidateDependencies b c.tag, d ∉ s.invalid :=
      fun d hd hin => hany (any_eq_true.mpr ⟨d, hd, decide_eq_true hin⟩)
  · refine ⟨.refl _, fun t => .inl, .refl _, fun o => .inl, fun _ => hnone, fun _ h => ?_⟩
    simp [h] at hlifecycle
  · exact ⟨subset_cons_self _ _, forall_mem_cons.mpr ⟨.inr ⟨rfl, .inr ⟨by simpa using hlifecycle, hfailed⟩⟩,
      fun t => .inl⟩,
      hjoins, hchild, fun _ => hnone, absurd mem_cons_self⟩
  · refine ⟨.refl _, fun t => .inl, hjoins, hchild, fun _ => hnone, fun _ _ => ⟨?_, eq_false_of_ne_true hfailed⟩⟩
    cases hstart : outcomes.start c stage with
    | closed err => simp [hstart, Started.failed] at hfailed
    | ran result => exact mem_scope_start.mpr (.inr ⟨rfl, result, rfl⟩)

variable (affected B) in
/-- The loops over the stages: only candidates come into the scope, and what is left out has a reason. -/
structure InStart (b : Build δ ω) (scope : Scope) (s : Starting) : Prop where
  children : ∀ o ∈ s.scope.children, o ∈ scope.children ∨ o ∈ b.candidates
  before : ∀ t ∈ b.invalid, t ∈ s.invalid
  invalid : ∀ t ∈ s.invalid, t ∈ affected ∧ B t

section
variable {b : Build δ ω} {scope : Scope} (hnew : DependenciesFirst newOutbounds)
  (hb : Built outcomes B (newOutbounds.filter fun o => decide (o.tag ∈ affected)) b)
include hnew hb

theorem InStart.next (hB : Blames outcomes manager managerStage affected newOutbounds B) {s : Starting}
    (h : InStart affected B b scope s) {stage : StartStage} (hstage : stage.index ≤ managerStage.index)
    (hc : c ∈ b.candidates) :
    InStart affected B b scope (s.next outcomes (preparedByTag b.prepared) stage c) := by
  obtain ⟨p, hp, hcreated, htag, hmem, haffected⟩ := hb.candidate_prepared hc
  have hturn := turn outcomes b stage s c
  refine ⟨fun o ho => (hturn.child o ho).elim (h.children o) fun heq => .inr (heq ▸ hc),
    fun t ht => hturn.grows (h.before t ht), fun t ht => ?_⟩
  rcases hturn.reason t ht with ht | ⟨rfl, ⟨d, hd, hin⟩ | ⟨hlifecycle, hfailed⟩⟩
  · exact h.invalid t ht
  · rw [← htag, hb.candidateDependencies_eq hnew hp] at hd
    exact ⟨htag ▸ haffected, htag ▸ hB.dependency hmem hd (h.invalid d hin).2⟩
  · obtain ⟨o, hcreate, rfl⟩ := created_eq_some.mp hcreated
    exact ⟨htag ▸ haffected, hB.broken (.inl ⟨p, hmem, htag, htag ▸ haffected,
      .inr ⟨o, stage, hcreate, hlifecycle, hstage, hfailed⟩⟩)⟩

theorem inStart (hB : Blames outcomes manager managerStage affected newOutbounds B) (scope : Scope) :
    InStart affected B b scope (startCandidates outcomes managerStage b scope) := by
  refine foldl_keep (InStart affected B b scope) (fun s stage hstage h => ?_)
    ⟨fun o ho => .inl ho, fun t ht => ht, fun t ht => ?_⟩
  · have hle : stage.index ≤ managerStage.index := by simpa using mem_takeWhile_imp hstage
    exact foldl_keep (InStart affected B b scope) (fun s c hc h => h.next hnew hb hB hle hc) h
  · obtain ⟨hin, hblamed⟩ := hb.invalid t ht
    obtain ⟨p, hp, rfl⟩ := mem_map.mp hin
    rw [mem_filter, decide_eq_true_eq] at hp
    exact ⟨hp.2, hblamed⟩

/-- Behind a pass over the candidates, one that is not left out has no dependency left out: its
dependencies come before it, so their turn in the pass is over. -/
theorem settled_pass (stage : StartStage) (s : Starting) :
    let s' := b.candidates.foldl (Starting.next outcomes (preparedByTag b.prepared) stage) s
    ∀ c ∈ b.candidates, c.tag ∉ s'.invalid → ∀ d ∈ candidateDependencies b c.tag, d ∉ s'.invalid := by
  have hself : ∀ c ∈ b.candidates, c.tag ∉ candidateDependencies b c.tag := fun c hc => hb.candidate_irrefl hnew hc
  have hpair := hb.candidates_pairwise hnew
  revert hself hpair
  refine foldl_seen (fun (s : Starting) seen => (∀ c ∈ seen, c.tag ∉ candidateDependencies b c.tag) →
    (seen.Pairwise fun c c' => c'.tag ∉ candidateDependencies b c.tag) → ∀ c ∈ seen, c.tag ∉ s.invalid →
    ∀ d ∈ candidateDependencies b c.tag, d ∉ s.invalid) (fun s seen c h hself hpair => ?_) b.candidates
    (fun _ _ => nofun)
  obtain ⟨hpair, _, hlater⟩ := pairwise_append.mp hpair
  have h := h (fun c' hc' => hself c' (mem_append_left _ hc')) hpair
  have hturn := turn outcomes b stage s c
  intro c' hc' hnot d hd hin
  -- the tag of this candidate is no dependency of an earlier one or its own
  rcases mem_append.mp hc' with hc' | hc' <;> rcases hturn.reason d hin with hin | ⟨rfl, _⟩
  · exact h c' hc' (fun hin => hnot (hturn.grows hin)) d hd hin
  · exact hlater c' hc' c mem_cons_self hd
  · cases mem_singleton.mp hc'
    exact hturn.settled hnot d hd hin
  · exact hself c' (mem_append_right _ hc') (mem_singleton.mp hc' ▸ hd)

theorem settled (managerStage : StartStage) (scope : Scope) :
    ∀ c ∈ b.candidates, c.tag ∉ (startCandidates outcomes managerStage b scope).invalid →
      ∀ d ∈ candidateDependencies b c.tag, d ∉ (startCandidates outcomes managerStage b scope).invalid := by
  -- the manager has reached the first stage, so there is a last pass
  obtain ⟨stages, stage, heq⟩ : ∃ stages stage, (listStartStages.takeWhile fun stage =>
      decide (stage.index ≤ managerStage.index)) = stages ++ [stage] := by
    refine ⟨_, _, (dropLast_append_getLast ?_).symm⟩
    cases managerStage <;> decide
  rw [startCandidates, heq, foldl_append, foldl_cons, foldl_nil]
  exact settled_pass hnew hb stage _

omit hnew hb in
/-- A candidate that is not left out has been started through every stage. -/
theorem started (managerStage : StartStage) (scope : Scope) :
    ∀ c ∈ b.candidates, outcomes.lifecycle c = true → c.tag ∉ (startCandidates outcomes managerStage b scope).invalid →
      ∀ stage, stage.index ≤ managerStage.index → c ∈ (startCandidates outcomes managerStage b scope).scope.children ∧
        (outcomes.start c stage).failed = false := by
  let Up (s : Starting) (stage : StartStage) (c : Outbounds.Outbound) : Prop := outcomes.lifecycle c = true →
    c.tag ∉ s.invalid → c ∈ s.scope.children ∧ (outcomes.start c stage).failed = false
  -- no later turn takes that back
  have hnext : ∀ {s : Starting} {stage stage' : StartStage} {c c' : Outbounds.Outbound}, Up s stage c →
      Up (s.next outcomes (preparedByTag b.prepared) stage' c') stage c := by
    intro s stage stage' c c' hup hl hnot
    have hturn := turn outcomes b stage' s c'
    exact (hup hl fun hin => hnot (hturn.grows hin)).imp_left (hturn.joins ·)
  have hstages : ∀ stage' ∈ listStartStages.takeWhile (fun stage => decide (stage.index ≤ managerStage.index)),
      ∀ c ∈ b.candidates, Up (startCandidates outcomes managerStage b scope) stage' c := by
    refine foldl_seen (fun s seen => ∀ stage' ∈ seen, ∀ c ∈ b.candidates, Up s stage' c)
      (fun s seen stage' h => ?_) _ nofun
    refine forall_mem_append.mpr ⟨fun stage hstage c hc => ?_, forall_mem_singleton.mpr ?_⟩
    · exact foldl_keep (Up · stage c) (fun _ _ _ => hnext) (h stage hstage c hc)
    · refine foldl_seen (fun s seen => ∀ c ∈ seen, Up s stage' c) (fun s seen c h => ?_) _ nofun
      refine forall_mem_append.mpr ⟨fun c' hc' => hnext (h c' hc'), forall_mem_singleton.mpr fun hl hnot => ?_⟩
      exact (turn outcomes b stage' s c).started hnot hl
  intro c hc hlifecycle hnot stage hstage
  refine hstages stage ?_ c hc hlifecycle hnot
  cases managerStage <;> cases stage <;> simp_all [listStartStages, StartStage.index]

end

end

variable {scope : Scope} {o : Outbounds.Outbound}

theorem mem_foldl_remove {outbounds : List Outbounds.Outbound} :
    o ∈ (outbounds.foldl Scope.remove scope).children ↔ o ∈ scope.children ∧ o ∉ outbounds := by
  induction outbounds generalizing scope with
  | nil => simp
  | cons c outbounds ih =>
    rw [foldl_cons, ih]
    simp only [Scope.remove, mem_filter, bne_iff_ne, ne_eq, mem_cons, not_or, and_assoc]

theorem mem_removeOutboundsReverse {outbounds : List Outbounds.Outbound} :
    o ∈ (removeOutboundsReverse scope outbounds).children ↔ o ∈ scope.children ∧ o ∉ outbounds := by
  rw [removeOutboundsReverse, mem_foldl_remove, mem_reverse]

section
variable [DecidableEq δ] [DecidableEq ω] (outcomes : Outcomes δ ω) (manager : Outbounds.Manager)
  (managerStage : StartStage) (scope : Scope) (oldOutbounds newOutbounds : List (PreparedOutbound δ ω))

theorem replaceStartedOutbounds_cases :
    let r := replaceStartedOutbounds outcomes manager managerStage scope oldOutbounds newOutbounds
    let oldTags := affectedOldTags oldOutbounds newOutbounds
    let b := build outcomes manager (candidatesToBuild oldOutbounds newOutbounds)
    (∃ err, r = ⟨manager, scope, .error err⟩) ∨
    (r = ⟨manager, scope, .ok ([], newOutbounds)⟩ ∧ candidatesToBuild oldOutbounds newOutbounds = []) ∨
    ((∀ t ∈ oldTags, (manager.outbound t).isSome) ∧
      r = applyCandidates b (startCandidates outcomes managerStage b scope) manager oldTags oldOutbounds
        newOutbounds) := by
  unfold replaceStartedOutbounds
  dsimp only
  cases hfind : (affectedOldTags oldOutbounds newOutbounds).find? fun tag => (manager.outbound tag).isNone with
  | some tag => exact .inl ⟨_, rfl⟩
  | none =>
    dsimp only
    split
    next hnothing => exact .inr (.inl ⟨rfl, length_eq_zero_iff.mp (by omega)⟩)
    next =>
      split
      · exact .inl ⟨_, rfl⟩
      · refine .inr (.inr ⟨fun t ht => ?_, rfl⟩)
        have := List.find?_eq_none.mp hfind t ht
        rw [Option.isNone_iff_eq_none] at this
        exact Option.isSome_iff_ne_none.mpr this

end

section
variable {b : Build δ ω} {s : Starting} {manager : Outbounds.Manager} {oldTags : List String}

theorem swappedBatch_removes (hfound : ∀ t ∈ oldTags, (manager.outbound t).isSome) (t : String) :
    (swappedBatch b s manager oldTags).removes t = true ↔ t ∈ oldTags := by
  simp only [Outbounds.Batch.removes, swappedBatch, expectedOld, any_eq_true, mem_filterMap, mem_dedup]
  constructor
  · rintro ⟨old, ⟨t', ht', hold⟩, heq⟩
    obtain ⟨o, _, rfl⟩ := Option.map_eq_some_iff.mp hold
    exact beq_iff_eq.mp heq ▸ ht'
  · intro ht
    obtain ⟨o, ho⟩ := Option.isSome_iff_exists.mp (hfound t ht)
    exact ⟨(t, o), ⟨t, ht, by rw [ho]; rfl⟩, beq_self_eq_true t⟩

end

variable {p : PreparedOutbound δ ω}

theorem mem_appliedOutbounds {s : Starting} {newOutbounds : List (PreparedOutbound δ ω)} :
    p ∈ appliedOutbounds s newOutbounds ↔ p ∈ newOutbounds ∧ p.tag ∉ s.invalid := by
  simp [appliedOutbounds]

section
variable [DecidableEq δ] [DecidableEq ω] {outcomes : Outcomes δ ω} {manager : Outbounds.Manager}
  {managerStage : StartStage} {scope : Scope} {oldOutbounds newOutbounds : List (PreparedOutbound δ ω)}
  {b : Build δ ω} {s : Starting} {B : String → Prop} {p : PreparedOutbound δ ω} (hnew : DependenciesFirst newOutbounds)
  (hb : Built outcomes B (candidatesToBuild oldOutbounds newOutbounds) b)
  (hs : InStart (affectedOutbounds oldOutbounds newOutbounds) B b scope s)

include hb hs in
/-- An affected outbound that is applied has been made into a candidate. -/
theorem Built.prepared_of_applied (hp : p ∈ appliedOutbounds s newOutbounds)
    (haffected : p.tag ∈ affectedOutbounds oldOutbounds newOutbounds) :
    p ∈ b.prepared := by
  obtain ⟨hmem, hvalid⟩ := mem_appliedOutbounds.mp hp
  refine (hb.split p ?_).resolve_right fun hin => hvalid (hs.before _ hin)
  exact mem_filter.mpr ⟨hmem, decide_eq_true haffected⟩

include hnew hb hs in
theorem applied_dependencies
    (hsettled : ∀ c ∈ b.candidates, c.tag ∉ s.invalid → ∀ d ∈ candidateDependencies b c.tag, d ∉ s.invalid)
    (hp : p ∈ appliedOutbounds s newOutbounds) {d : String} (hd : d ∈ p.dependencies) :
    d ∈ (appliedOutbounds s newOutbounds).map tag := by
  obtain ⟨hmem, hvalid⟩ := mem_appliedOutbounds.mp hp
  obtain ⟨before, after, heq⟩ := append_of_mem hmem
  obtain ⟨q, hq, rfl⟩ := mem_map.mp (hnew.first before p after heq d hd)
  refine mem_map_of_mem (mem_appliedOutbounds.mpr ⟨heq ▸ mem_append_left _ hq, ?_⟩)
  by_cases haffected : p.tag ∈ affectedOutbounds oldOutbounds newOutbounds
  · have hprepared := hb.prepared_of_applied hs hp haffected
    obtain ⟨c, hc, _, htag⟩ := hb.candidate_of_prepared hprepared
    refine hsettled c hc (htag ▸ hvalid) q.tag ?_
    rw [htag, hb.candidateDependencies_eq hnew hprepared]
    exact hd
  · -- what is kept depends on what is kept, and only candidates are left out
    intro hin
    exact haffected (affectedOutbounds_closed p (mem_append_right _ hmem) q.tag hd (hs.invalid _ hin).1)

include hs in
theorem left_out_blamed (hp : p ∈ newOutbounds) (hnot : p ∉ appliedOutbounds s newOutbounds) : B p.tag := by
  rw [mem_appliedOutbounds, not_and, not_not] at hnot
  exact (hs.invalid _ (hnot hp)).2

include hs in
/-- A candidate that is left out is in the scope no more. -/
theorem left_out_removed (hnot : p ∉ appliedOutbounds s newOutbounds) (hp : p ∈ newOutbounds)
    {o : { o : Outbounds.Outbound // o.tag = p.tag }} (hfresh : o.val ∉ scope.children) :
    o.val ∉ (removeOutboundsReverse s.scope (invalidCandidates b s)).children := by
  rw [mem_appliedOutbounds, not_and, not_not] at hnot
  rw [mem_removeOutboundsReverse, not_and, not_not]
  intro hchild
  refine mem_filter.mpr ⟨(hs.children _ hchild).resolve_left hfresh, decide_eq_true ?_⟩
  rw [o.property]
  exact hnot hp

include hs in
theorem all_removed {o : Outbounds.Outbound} (hfresh : o ∉ scope.children) :
    o ∉ (removeOutboundsReverse (removeOutboundsReverse s.scope (invalidCandidates b s))
      (validCandidates b s)).children := by
  rw [mem_removeOutboundsReverse, mem_removeOutboundsReverse]
  rintro ⟨⟨hchild, hinvalid⟩, hvalid⟩
  have hc := (hs.children _ hchild).resolve_left hfresh
  by_cases h : o.tag ∈ s.invalid
  · exact hinvalid (mem_filter.mpr ⟨hc, decide_eq_true h⟩)
  · exact hvalid (mem_filter.mpr ⟨hc, decide_eq_true h⟩)

section
variable (hm : manager.Consistent)
  (hfound : ∀ t ∈ affectedOldTags oldOutbounds newOutbounds, (manager.outbound t).isSome)
  (hswap : manager.Swappable (swappedBatch b s manager (affectedOldTags oldOutbounds newOutbounds)))

include hb hs hfound hswap in
/-- A candidate that is swapped in is up, and what it depends on is applied, or is none of the provider's. -/
theorem applied_candidate (hstarted : ∀ c ∈ b.candidates, outcomes.lifecycle c = true → c.tag ∉ s.invalid →
      ∀ stage, stage.index ≤ managerStage.index → c ∈ s.scope.children ∧ (outcomes.start c stage).failed = false)
    (hp : p ∈ appliedOutbounds s newOutbounds)
    (haffected : p.tag ∈ affectedOutbounds oldOutbounds newOutbounds) :
    ∃ o, outcomes.create p = .ok o ∧
      o.val ∈ (manager.swap (swappedBatch b s manager (affectedOldTags oldOutbounds newOutbounds))).outbounds ∧
      (outcomes.lifecycle o.val = true → o.val ∈ (removeOutboundsReverse s.scope (invalidCandidates b s)).children ∧
        ∀ stage, stage.index ≤ managerStage.index → (outcomes.start o.val stage).failed = false) ∧
      ∀ d ∈ o.val.dependencies, d ∈ (appliedOutbounds s newOutbounds).map tag ∨
        (d ∉ oldOutbounds.map tag ∧ (manager.outboundByTag d).isSome) ∨ (manager.endpoint d).isSome := by
  obtain ⟨c, hc, hcreated, htag⟩ := hb.candidate_of_prepared (hb.prepared_of_applied hs hp haffected)
  obtain ⟨o, hcreate, rfl⟩ := created_eq_some.mp hcreated
  have hvalid : o.val.tag ∉ s.invalid := by
    rw [htag]
    exact (mem_appliedOutbounds.mp hp).2
  have hcandidate : o.val ∈ validCandidates b s := mem_filter.mpr ⟨hc, decide_eq_true hvalid⟩
  refine ⟨o, hcreate, (Outbounds.Manager.mem_swap_outbounds hswap).mpr (.inr hcandidate), fun hlifecycle => ?_,
    fun d hd => ?_⟩
  · have hup := hstarted o.val hc hlifecycle hvalid
    refine ⟨mem_removeOutboundsReverse.mpr ⟨(hup managerStage le_rfl).1, fun hout => ?_⟩,
      fun stage h => (hup stage h).2⟩
    exact hvalid (of_decide_eq_true (mem_filter.mp hout).2)
  have hprovided := hswap.provided o.val hcandidate d hd
  simp only [Outbounds.Manager.provides, Bool.or_eq_true, Bool.and_eq_true, Bool.not_eq_true'] at hprovided
  rcases hprovided with (hcand | ⟨hthere, hstays⟩) | hend
  · obtain ⟨c', hfind⟩ := Option.isSome_iff_exists.mp hcand
    have hc' : c' ∈ validCandidates b s := mem_of_find?_eq_some hfind
    have hd : c'.tag = d := by simpa using List.find?_some hfind
    obtain ⟨hmem, hvalid⟩ := mem_filter.mp hc'
    obtain ⟨p', _, _, htag', hmem', _⟩ := hb.candidate_prepared hmem
    refine .inl (mem_map.mpr ⟨p', mem_appliedOutbounds.mpr ⟨hmem', ?_⟩, htag'.trans hd⟩)
    rw [htag']
    exact of_decide_eq_true hvalid
  · by_cases hold : d ∈ oldOutbounds.map tag
    · -- an outbound of the provider that is not replaced is kept, and applied
      have hnot : d ∉ affectedOutbounds oldOutbounds newOutbounds := by
        intro hin
        have := (swappedBatch_removes (b := b) (s := s) hfound d).mpr
          (mem_filter.mpr ⟨hold, decide_eq_true hin⟩)
        rw [hstays] at this
        cases this
      obtain ⟨_, n, _, hn, _⟩ := source_eq_of_not_affected (mem_append_left _ hold) hnot
      obtain ⟨hmem, rfl⟩ := preparedByTag_mem hn
      refine .inl (mem_map_of_mem (mem_appliedOutbounds.mpr ⟨hmem, fun hin => hnot (hs.invalid _ hin).1⟩))
    · exact .inr (.inl ⟨hold, hthere⟩)
  · exact .inr (.inr hend)

include hm hfound hswap in
/-- An outbound that is kept stays, and so does what it depends on. -/
theorem kept_dependencies {t : String} (hkept : t ∉ affectedOutbounds oldOutbounds newOutbounds)
    {o : Outbounds.Outbound}
    (ho : manager.outboundByTag t = some o) :
    let swapped := manager.swap (swappedBatch b s manager (affectedOldTags oldOutbounds newOutbounds))
    swapped.outboundByTag t = some o ∧
      ∀ d ∈ o.dependencies, (manager.outbound d).isSome → (swapped.outbound d).isSome := by
  obtain ⟨hmem, rfl⟩ := (hm.byTag t o).mp ho
  have hstays : (swappedBatch b s manager (affectedOldTags oldOutbounds newOutbounds)).removes o.tag = false := by
    rw [Bool.eq_false_iff, ne_eq, swappedBatch_removes hfound]
    exact fun hin => hkept (of_decide_eq_true (mem_filter.mp hin).2)
  have hin := (Outbounds.Manager.mem_swap_outbounds hswap).mpr (.inl ⟨hmem, hstays⟩)
  refine ⟨(hm.swap_byTag hswap _ _).mpr ⟨hin, rfl⟩, fun d hd hthere => ?_⟩
  show (Option.or _ (manager.endpoint d)).isSome
  rw [Option.isSome_or, Bool.or_eq_true]
  rw [Outbounds.Manager.outbound, Option.isSome_or, Bool.or_eq_true] at hthere
  rcases hthere with hthere | hend
  · by_cases hremoved : (swappedBatch b s manager (affectedOldTags oldOutbounds newOutbounds)).removes d = true
    · exact (hswap.dangling hm hin hd hremoved).imp_right And.right
    · obtain ⟨o', ho'⟩ := Option.isSome_iff_exists.mp hthere
      obtain ⟨hmem', rfl⟩ := (hm.byTag d o').mp ho'
      have := (Outbounds.Manager.mem_swap_outbounds hswap).mpr (.inl ⟨hmem', Bool.eq_false_iff.mpr hremoved⟩)
      rw [(hm.swap_byTag hswap _ _).mpr ⟨this, rfl⟩]
      exact .inl rfl
  · exact .inr hend

end

end

section
variable [DecidableEq δ] [DecidableEq ω]

/-- Without an error the applied outbounds have been started and have what they depend on, the others depend on a
failure and are out of the scope; with an error it is as if nothing had been tried. -/
theorem update_with_failures (outcomes : Outcomes δ ω) (defaultTag : String)
    (endpoint : String → Option Outbounds.Outbound) (past : List (Outbounds.Manager × Outbounds.Label))
    (manager : Outbounds.Manager) (managerStage : StartStage) (scope : Scope)
    (oldOutbounds newOutbounds : List (PreparedOutbound δ ω))
    (hrun : (Outbounds.machine defaultTag endpoint).Run past manager) (hnew : DependenciesFirst newOutbounds)
    (hfresh : ∀ p ∈ newOutbounds, ∀ o, outcomes.create p = .ok o → o.val ∉ scope.children) :
    let r := replaceStartedOutbounds outcomes manager managerStage scope oldOutbounds newOutbounds
    let affected := affectedOutbounds oldOutbounds newOutbounds
    match r.result with
    | .error _ => r.manager = manager ∧ ∀ p ∈ newOutbounds, ∀ o, outcomes.create p = .ok o → o.val ∉ r.scope.children
    | .ok (_, applied) =>
      (∀ p ∈ applied, p ∈ newOutbounds ∧ ∀ d ∈ p.dependencies, d ∈ applied.map tag) ∧
      (∀ p ∈ applied, p.tag ∈ affected → ∃ o, outcomes.create p = .ok o ∧ o.val ∈ r.manager.outbounds ∧
        (outcomes.lifecycle o.val = true → o.val ∈ r.scope.children ∧
          ∀ stage, stage.index ≤ managerStage.index → (outcomes.start o.val stage).failed = false) ∧
        ∀ d ∈ o.val.dependencies, d ∈ applied.map tag ∨
          (d ∉ oldOutbounds.map tag ∧ (manager.outboundByTag d).isSome) ∨
          (manager.endpoint d).isSome) ∧
      (∀ p ∈ applied, p.tag ∉ affected → ∀ o, manager.outboundByTag p.tag = some o →
        r.manager.outboundByTag p.tag = some o ∧
          ∀ d ∈ o.dependencies, (manager.outbound d).isSome → (r.manager.outbound d).isSome) ∧
      (∀ p ∈ newOutbounds, p ∉ applied →
        ∃ t, Relation.ReflTransGen (DependsOn newOutbounds) p.tag t ∧
          Broken outcomes manager managerStage affected newOutbounds t) ∧
      ∀ p ∈ newOutbounds, p ∉ applied → ∀ o, outcomes.create p = .ok o → o.val ∉ r.scope.children := by
  intro r affected
  have hm := Outbounds.Manager.consistent_run hrun
  have hB := blames outcomes manager managerStage affected newOutbounds
  have hb := built hB hnew
  have hs := inStart hnew hb hB scope
  have hsettled := settled hnew hb managerStage scope
  rcases replaceStartedOutbounds_cases outcomes manager managerStage scope oldOutbounds newOutbounds with
    ⟨err, heq⟩ | ⟨heq, hnothing⟩ | ⟨hfound, heq⟩
  · simp only [r, heq]
    exact ⟨trivial, hfresh⟩
  · simp only [r, heq]
    have hkept : ∀ p ∈ newOutbounds, p.tag ∉ affected := by
      intro p hp hin
      have : p ∈ candidatesToBuild oldOutbounds newOutbounds := mem_filter.mpr ⟨hp, decide_eq_true hin⟩
      rw [hnothing] at this
      cases this
    refine ⟨fun p hp => ⟨hp, fun d hd => ?_⟩, fun p hp hin => absurd hin (hkept p hp),
      fun p _ _ o ho => ⟨ho, fun _ _ hd => hd⟩, fun p hp hnot => absurd hp hnot, fun p hp hnot => absurd hp hnot⟩
    obtain ⟨before, after, hsplit⟩ := append_of_mem hp
    rw [hsplit, map_append]
    exact mem_append_left _ (hnew.first before p after hsplit d hd)
  · have hgone := fun p hp o ho => all_removed hs (hfresh p hp o ho)
    unfold applyCandidates at heq
    dsimp only at heq
    split at heq
    · simp only [r, heq]
      exact ⟨trivial, hgone⟩
    rcases Outbounds.Manager.swapBatch_cases manager
      (swappedBatch _ _ manager (affectedOldTags oldOutbounds newOutbounds)) with
      ⟨hend, hswap⟩ | ⟨err, hend⟩
    · rw [hend] at heq
      simp only [r, heq]
      exact ⟨fun p hp => ⟨(mem_appliedOutbounds.mp hp).1, fun d hd => applied_dependencies hnew hb hs hsettled hp hd⟩,
        fun p hp hin => applied_candidate hb hs hfound hswap (started managerStage scope) hp hin,
        fun p hp hin o ho => kept_dependencies hm hfound hswap hin ho,
        fun p hp hnot => left_out_blamed hs hp hnot,
        fun p hp hnot o ho => left_out_removed hs hnot hp (hfresh p hp o ho)⟩
    · rw [hend] at heq
      simp only [r, heq]
      exact ⟨trivial, hgone⟩

end

/-- The outbound at the end of the chain cannot be created. -/
def baseFails : Outcomes Unit Unit where
  registry := true
  create p := if p.tag = "p/a" then .error "unsupported" else .ok ⟨⟨0, p.tag, []⟩, rfl⟩
  lifecycle _ := true
  start _ _ := .ran (.ok ())

def emptyManager : Outbounds.Manager := .new "" fun _ => none

theorem update_with_failures_chain :
    (replaceStartedOutbounds baseFails emptyManager .stateStart ⟨[]⟩ [] (preparedList chainBefore)).result.toOption.map
      (fun result => result.2.map tag) = some ["p/c"] ∧
    ∃ t, Relation.ReflTransGen (DependsOn (preparedList chainBefore)) "p/b" t ∧
      Broken baseFails emptyManager .stateStart (affectedOutbounds [] (preparedList chainBefore))
        (preparedList chainBefore) t := by
  have hresult : (replaceStartedOutbounds baseFails emptyManager .stateStart ⟨[]⟩ []
      (preparedList chainBefore)).result.toOption.map (fun result => result.2.map tag) =
      some ["p/c"] := by decide +kernel
  refine ⟨hresult, ?_⟩
  have hprepared : prepareOutbounds "p" chainBefore "" = .ok (preparedList chainBefore) := rfl
  have h := update_with_failures baseFails "" (fun _ => none) [] emptyManager .stateStart ⟨[]⟩ []
    (preparedList chainBefore)
    (.start _ rfl) (prepareOutbounds_dependenciesFirst hprepared) (fun _ _ _ _ => nofun)
  dsimp only at h
  cases hok : (replaceStartedOutbounds baseFails emptyManager .stateStart ⟨[]⟩ []
      (preparedList chainBefore)).result with
  | error err =>
    rw [hok] at hresult
    cases hresult
  | ok result =>
    rw [hok] at h hresult
    obtain ⟨p, hp, htag⟩ : ∃ p ∈ preparedList chainBefore, p.tag = "p/b" := ⟨_, .tail _ (.head _), rfl⟩
    have hnot : p ∉ result.2 := by
      intro hin
      have htags : result.2.map tag = ["p/c"] := Option.some.inj hresult
      have hmem := mem_map_of_mem (f := tag) hin
      rw [htags, htag] at hmem
      exact absurd hmem (by decide)
    exact htag ▸ h.2.2.2.1 p hp hnot

end SingBox.Provider
