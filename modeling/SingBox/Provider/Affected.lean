import SingBox.Provider.Prepare

/-!
# The outbounds an update touches

`affectedOutbounds` starts with the tags whose source has changed and adds, over the old
and the new graph, what depends on them until a pass adds nothing. What it leaves out is
the same outbound in both lists, down to the runtime tags its detours lead to.
-/
namespace SingBox.Provider

open Lib List PreparedOutbound

variable {δ ω : Type}

structure Closure where
  affected : List String
  changed : Bool

def Closure.visit (c : Closure) (outbound : PreparedOutbound δ ω) : Closure :=
  if outbound.tag ∈ c.affected then c
  else if outbound.dependencies.any fun dependency => dependency ∈ c.affected then
    { affected := outbound.tag :: c.affected, changed := true }
  else c

def affectPass (graphs : List (PreparedOutbound δ ω)) (affected : List String) : Closure :=
  graphs.foldl Closure.visit { affected := affected, changed := false }

def unaffected (graphs : List (PreparedOutbound δ ω)) (affected : List String) : Nat :=
  graphs.countP fun outbound => decide (outbound.tag ∉ affected)

theorem Closure.visit_subset (c : Closure) (o : PreparedOutbound δ ω) : c.affected ⊆ (c.visit o).affected := by
  unfold visit
  split
  · exact List.Subset.refl _
  · split
    · exact subset_cons_self _ _
    · exact List.Subset.refl _

variable {graphs : List (PreparedOutbound δ ω)} {affected : List String} {t : String}

theorem affectPass_changed (h : (affectPass graphs affected).changed = true) :
    affected ⊆ (affectPass graphs affected).affected ∧
      ∃ o ∈ graphs, o.tag ∉ affected ∧ o.tag ∈ (affectPass graphs affected).affected := by
  have hpass : affected ⊆ (affectPass graphs affected).affected ∧ ((affectPass graphs affected).changed = true →
      ∃ o ∈ graphs, o.tag ∉ affected ∧ o.tag ∈ (affectPass graphs affected).affected) := by
    refine foldl_keep (fun c : Closure => affected ⊆ c.affected ∧ (c.changed = true →
      ∃ o ∈ graphs, o.tag ∉ affected ∧ o.tag ∈ c.affected)) (fun c o ho hc => ?_) ⟨List.Subset.refl _, nofun⟩
    have hsub := c.visit_subset o
    refine ⟨List.Subset.trans hc.1 hsub, fun hchanged => ?_⟩
    unfold Closure.visit at hchanged ⊢
    split at hchanged
    next hknown =>
      rw [if_pos hknown]
      exact hc.2 hchanged
    next hknown =>
      rw [if_neg hknown]
      split at hchanged
      next hany =>
        rw [if_pos hany]
        exact ⟨o, ho, fun hin => hknown (hc.1 hin), mem_cons_self⟩
      next hany =>
        rw [if_neg hany]
        exact hc.2 hchanged
  exact ⟨hpass.1, hpass.2 h⟩

theorem unaffected_affectPass (h : (affectPass graphs affected).changed = true) :
    unaffected graphs (affectPass graphs affected).affected < unaffected graphs affected := by
  obtain ⟨hsub, o, ho, hnot, hin⟩ := affectPass_changed h
  refine countP_lt_countP (fun x _ hx => ?_) ho (by simpa using hin) (by simpa using hnot)
  rw [decide_eq_true_eq] at hx ⊢
  exact fun hmem => hx (hsub hmem)

/-- The loop ends because every pass that changes something leaves fewer outbounds unaffected. -/
def closeAffected (graphs : List (PreparedOutbound δ ω)) (affected : List String) : List String :=
  let pass := affectPass graphs affected
  if pass.changed = true then closeAffected graphs pass.affected else pass.affected
termination_by unaffected graphs affected
decreasing_by exact unaffected_affectPass ‹_›

/-- Nothing depends on an affected outbound without being affected. -/
def ClosedUnder (graphs : List (PreparedOutbound δ ω)) (affected : List String) : Prop :=
  ∀ o ∈ graphs, ∀ d ∈ o.dependencies, d ∈ affected → o.tag ∈ affected

theorem affectPass_unchanged (h : (affectPass graphs affected).changed = false) :
    (affectPass graphs affected).affected = affected ∧ ClosedUnder graphs affected := by
  revert h
  refine foldl_seen (fun (c : Closure) seen => c.changed = false → c.affected = affected ∧ ClosedUnder seen affected)
    (fun c seen o hseen hsame => ?_) graphs (fun _ => ⟨rfl, nofun⟩)
  unfold Closure.visit at hsame ⊢
  split at hsame
  next hknown =>
    obtain ⟨heq, hclosed⟩ := hseen hsame
    rw [if_pos hknown]
    refine ⟨heq, fun x hx d hd hin => ?_⟩
    rcases mem_append.mp hx with hx | hx
    · exact hclosed x hx d hd hin
    · rw [mem_singleton.mp hx, ← heq]
      exact hknown
  next hknown =>
    split at hsame
    · cases hsame
    next hany =>
      obtain ⟨heq, hclosed⟩ := hseen hsame
      rw [if_neg hknown, if_neg hany]
      refine ⟨heq, fun x hx d hd hin => ?_⟩
      rcases mem_append.mp hx with hx | hx
      · exact hclosed x hx d hd hin
      · rw [mem_singleton.mp hx] at hd
        rw [heq, any_eq_true] at hany
        exact absurd ⟨d, hd, decide_eq_true hin⟩ hany

theorem closeAffected_spec (graphs : List (PreparedOutbound δ ω)) (affected : List String) :
    affected ⊆ closeAffected graphs affected ∧ (affectPass graphs (closeAffected graphs affected)).changed = false := by
  fun_induction closeAffected graphs affected with
  | case1 affected pass hchanged ih =>
    exact ⟨List.Subset.trans (affectPass_changed hchanged).1 ih.1, ih.2⟩
  | case2 affected pass hchanged =>
    have hsame := Bool.eq_false_iff.mpr hchanged
    have heq : pass.affected = affected := (affectPass_unchanged hsame).1
    rw [heq]
    exact ⟨List.Subset.refl _, hsame⟩

section
variable [DecidableEq δ] [DecidableEq ω]

def changedTags (oldOutbounds newOutbounds : List (PreparedOutbound δ ω)) : List String :=
  (oldOutbounds.map tag).filter (fun tag =>
    match preparedByTag newOutbounds tag with
    | none => true
    | some newOutbound =>
      ((preparedByTag oldOutbounds tag).map source) != some newOutbound.source) ++
  (newOutbounds.map tag).filter fun tag => (preparedByTag oldOutbounds tag).isNone

def affectedOutbounds (oldOutbounds newOutbounds : List (PreparedOutbound δ ω)) : List String :=
  closeAffected (oldOutbounds ++ newOutbounds) (changedTags oldOutbounds newOutbounds)

variable {oldOutbounds newOutbounds : List (PreparedOutbound δ ω)}

theorem affectedOutbounds_closed :
    ClosedUnder (oldOutbounds ++ newOutbounds) (affectedOutbounds oldOutbounds newOutbounds) :=
  (affectPass_unchanged (closeAffected_spec _ _).2).2

/-- The source that a list has for a tag: of outbounds with one tag the last counts. -/
def sourceOf (outbounds : List (PreparedOutbound δ ω)) (t : String) : Option (Outbound δ ω) :=
  (outbounds.reverse.find? fun o => o.tag = t).map source

omit [DecidableEq δ] [DecidableEq ω] in
theorem sourceOf_eq (outbounds : List (PreparedOutbound δ ω)) (t : String) :
    sourceOf outbounds t = (preparedByTag outbounds t).map source := by
  rw [preparedByTag_eq, sourceOf]

theorem mem_changedTags :
    t ∈ changedTags oldOutbounds newOutbounds ↔ sourceOf oldOutbounds t ≠ sourceOf newOutbounds t := by
  rw [sourceOf_eq, sourceOf_eq, changedTags, mem_append, mem_filter, mem_filter, ← preparedByTag_isSome,
    ← preparedByTag_isSome]
  cases preparedByTag oldOutbounds t with
  | none | some => cases preparedByTag newOutbounds t with | none | some => simp

/-- A tag that is left out has one source in both lists. -/
theorem source_eq_of_not_affected (ht : t ∈ oldOutbounds.map tag ++ newOutbounds.map tag)
    (h : t ∉ affectedOutbounds oldOutbounds newOutbounds) :
    ∃ o n, preparedByTag oldOutbounds t = some o ∧ preparedByTag newOutbounds t = some n ∧ o.source = n.source := by
  have hsame : sourceOf oldOutbounds t = sourceOf newOutbounds t := by
    by_contra hne
    exact h ((closeAffected_spec _ _).1 (mem_changedTags.mpr hne))
  rw [sourceOf_eq, sourceOf_eq] at hsame
  rw [mem_append, ← preparedByTag_isSome, ← preparedByTag_isSome] at ht
  cases ho : preparedByTag oldOutbounds t with
  | none | some => cases hn : preparedByTag newOutbounds t with | none | some => simp_all

end

section
variable {providerTag outboundDetour : String}

variable {sources sources' : List (Outbound δ ω)} {o o' : PreparedOutbound δ ω}

/-- A name that is known in one list is known in another when its runtime outbound has one source. -/
theorem tag_mem_of_source_eq (hdistinct : ((prepareEach providerTag sources outboundDetour).map tag).Nodup)
    (ho : o ∈ prepareEach providerTag sources outboundDetour) (htag : o.tag = providerTag ++ "/" ++ t)
    (ho' : o' ∈ prepareEach providerTag sources' outboundDetour) (hsource : o.source = o'.source) (hne : t ≠ "")
    (ht : t ∈ sources.map Outbound.tag) : t ∈ sources'.map Outbound.tag := by
  obtain ⟨source, hmem, rfl⟩ := mem_map.mp ht
  obtain ⟨i, hi⟩ := mem_iff_getElem?.mp hmem
  -- the outbound with the name gets the same runtime tag, so it is this one
  have heq := inj_on_of_nodup_map hdistinct ho (prepareOutbound_mem hi _ _)
    (htag.trans (runtimeTag_of_ne_empty hmem hne i).symm)
  obtain ⟨source', i', hi', rfl⟩ := mem_prepareEach.mp ho'
  have : source = source' := by
    rw [heq] at hsource
    exact hsource
  rw [this]
  exact mem_map_of_mem (mem_of_getElem? hi')

theorem mapReferences_congr {f g : String → String} {options : Options δ ω}
    (h : ∀ t ∈ options.references, f t = g t) : options.mapReferences f = options.mapReferences g := by
  obtain ⟨dialer, download, rest⟩ := options
  cases dialer <;> cases download <;>
    simp_all [Options.mapReferences, Options.mapDialer, Options.references]

/-- Equal sources get equal runtime options when each name they use is known in both lists or in none. -/
theorem runtime_eq_of_source_eq (ho : o ∈ prepareEach providerTag sources outboundDetour)
    (ho' : o' ∈ prepareEach providerTag sources' outboundDetour) (htag : o.tag = o'.tag)
    (hsource : o.source = o'.source)
    (hknown : ∀ t, t ≠ "" → (t ∈ sources.map Outbound.tag ∧ providerTag ++ "/" ++ t ∈ o.dependencies ∨
        t ∈ sources'.map Outbound.tag ∧ providerTag ++ "/" ++ t ∈ o'.dependencies) →
      (t ∈ sources.map Outbound.tag ↔ t ∈ sources'.map Outbound.tag)) :
    o.runtime = o'.runtime := by
  obtain ⟨source, i, hi, rfl⟩ := mem_prepareEach.mp ho
  obtain ⟨source', i', hi', rfl⟩ := mem_prepareEach.mp ho'
  cases (show source = source' from hsource)
  have hoptions : (applyDefaultDetour source.options outboundDetour).mapReferences
      (qualify (qualifiedTags providerTag sources)) =
      (applyDefaultDetour source.options outboundDetour).mapReferences
        (qualify (qualifiedTags providerTag sources')) := by
    refine mapReferences_congr fun t ht => ?_
    unfold qualify
    by_cases hne : t = ""
    · rw [if_pos hne, if_pos hne]
    rw [if_neg hne, if_neg hne]
    -- the reference is known in one list, so it is a dependency there, or in none
    by_cases hin : t ∈ sources.map Outbound.tag ∨ t ∈ sources'.map Outbound.tag
    · have hboth := hknown t hne (hin.imp
        (fun hin => ⟨hin, mem_prepareOutbound_dependencies.mpr ⟨t, ht, hne, qualifiedTags_of_mem _ hne hin⟩⟩)
        fun hin => ⟨hin, mem_prepareOutbound_dependencies.mpr ⟨t, ht, hne, qualifiedTags_of_mem _ hne hin⟩⟩)
      have hleft : t ∈ sources.map Outbound.tag := hin.elim id hboth.mpr
      rw [qualifiedTags_of_mem _ hne hleft, qualifiedTags_of_mem _ hne (hboth.mp hleft)]
    · rw [not_or] at hin
      rw [qualifiedTags_of_not_mem hin.1, qualifiedTags_of_not_mem hin.2]
  have htag : runtimeTag providerTag (qualifiedTags providerTag sources) i source =
      runtimeTag providerTag (qualifiedTags providerTag sources') i' source := htag
  rw [prepareOutbound_runtime, prepareOutbound_runtime, hoptions, htag]

end

section
variable [DecidableEq δ] [DecidableEq ω]

/-- Keep the runtime outbounds that are left out, and create the rest. -/
def updatedRuntime (oldOutbounds newOutbounds : List (PreparedOutbound δ ω)) (tag : String) : Option (Outbound δ ω) :=
  if tag ∈ affectedOutbounds oldOutbounds newOutbounds then
    (preparedByTag newOutbounds tag).map runtime
  else (preparedByTag oldOutbounds tag).map runtime

variable {providerTag outboundDetour : String} {oldSources newSources : List (Outbound δ ω)}
  {oldOutbounds newOutbounds : List (PreparedOutbound δ ω)}
  (hold : prepareOutbounds providerTag oldSources outboundDetour = .ok oldOutbounds)
  (hnew : prepareOutbounds providerTag newSources outboundDetour = .ok newOutbounds)
  (holds : ((prepareEach providerTag oldSources outboundDetour).map tag).Nodup)
include hold hnew holds

/-- What an update leaves out is the same outbound in both lists, over dependencies left out too. -/
theorem left_out (hnews : ((prepareEach providerTag newSources outboundDetour).map tag).Nodup)
    (ht : t ∈ oldOutbounds.map tag ++ newOutbounds.map tag)
    (h : t ∉ affectedOutbounds oldOutbounds newOutbounds) :
    ∃ o n, preparedByTag oldOutbounds t = some o ∧ preparedByTag newOutbounds t = some n ∧ o.runtime = n.runtime ∧
      ∀ d ∈ o.dependencies ++ n.dependencies, d ∉ affectedOutbounds oldOutbounds newOutbounds ∧
        d ∈ oldOutbounds.map tag ∧ d ∈ newOutbounds.map tag := by
  have harranged := sortOutbounds_ok hold
  have harranged' := sortOutbounds_ok hnew
  obtain ⟨o, n, ho, hn, hsource⟩ := source_eq_of_not_affected ht h
  obtain ⟨hmem, rfl⟩ := preparedByTag_mem ho
  obtain ⟨hmem', htag⟩ := preparedByTag_mem hn
  have hin := harranged.mem o hmem
  have hin' := harranged'.mem n hmem'
  -- a dependency is not affected, so it has one source as well
  have hdeps : ∀ d ∈ o.dependencies ++ n.dependencies, d ∉ affectedOutbounds oldOutbounds newOutbounds ∧
      d ∈ oldOutbounds.map tag ++ newOutbounds.map tag := by
    intro d hd
    rcases mem_append.mp hd with hd | hd
    · refine ⟨fun haff => h (affectedOutbounds_closed o (mem_append_left _ hmem) d hd haff), ?_⟩
      exact mem_append_left _ ((harranged.tags d).mpr (dependency_mem hin hd))
    · refine ⟨fun haff => h (htag ▸ affectedOutbounds_closed n (mem_append_right _ hmem') d hd haff), ?_⟩
      exact mem_append_right _ ((harranged'.tags d).mpr (dependency_mem hin' hd))
  refine ⟨o, n, ho, hn, runtime_eq_of_source_eq hin hin' htag.symm hsource fun t hne hdep => ?_, fun d hd => ?_⟩
  · have hd : providerTag ++ "/" ++ t ∈ o.dependencies ++ n.dependencies :=
      mem_append.mpr (hdep.imp And.right And.right)
    obtain ⟨haff, hmemd⟩ := hdeps _ hd
    obtain ⟨o', n', ho', hn', hsource'⟩ := source_eq_of_not_affected hmemd haff
    obtain ⟨hmemo, htago⟩ := preparedByTag_mem ho'
    obtain ⟨hmemn, htagn⟩ := preparedByTag_mem hn'
    exact ⟨tag_mem_of_source_eq holds (harranged.mem _ hmemo) htago (harranged'.mem _ hmemn) hsource' hne,
      tag_mem_of_source_eq hnews (harranged'.mem _ hmemn) htagn (harranged.mem _ hmemo) hsource'.symm hne⟩
  · obtain ⟨haff, hmemd⟩ := hdeps d hd
    obtain ⟨o', n', ho', hn', _⟩ := source_eq_of_not_affected hmemd haff
    exact ⟨haff, (preparedByTag_isSome d).mp (by rw [ho']; rfl), (preparedByTag_isSome d).mp (by rw [hn']; rfl)⟩

variable (providerTag outboundDetour oldSources newSources oldOutbounds newOutbounds)

/-- The loop over the graphs has ended, what it leaves out is the same in both lists, and the update
gives every tag what a rebuild gives it. -/
theorem update_eq_rebuild (hnews : ((prepareEach providerTag newSources outboundDetour).map tag).Nodup) :
    let affected := affectedOutbounds oldOutbounds newOutbounds
    (affectPass (oldOutbounds ++ newOutbounds) affected).changed = false ∧
    (∀ t ∈ oldOutbounds.map tag ++ newOutbounds.map tag, t ∉ affected →
      ∃ o n, preparedByTag oldOutbounds t = some o ∧ preparedByTag newOutbounds t = some n ∧ o.runtime = n.runtime ∧
        ∀ d ∈ o.dependencies ++ n.dependencies, d ∉ affected ∧ d ∈ oldOutbounds.map tag ∧
          d ∈ newOutbounds.map tag) ∧
    ∀ t, updatedRuntime oldOutbounds newOutbounds t =
      (preparedByTag newOutbounds t).map runtime := by
  refine ⟨(closeAffected_spec _ _).2, fun t ht h => left_out hold hnew holds hnews ht h, fun t => ?_⟩
  unfold updatedRuntime
  split
  · rfl
  next h =>
    by_cases ht : t ∈ oldOutbounds.map tag ++ newOutbounds.map tag
    · obtain ⟨o, n, ho, hn, hruntime, _⟩ := left_out hold hnew holds hnews ht h
      rw [ho, hn, Option.map_some, Option.map_some, hruntime]
    · rw [mem_append, not_or, ← preparedByTag_isSome, ← preparedByTag_isSome, Option.not_isSome_iff_eq_none,
        Option.not_isSome_iff_eq_none] at ht
      rw [ht.1, ht.2]

end

def plainOutbound (tag detour : String) : Outbound Unit Unit where
  type := "socks"
  tag := tag
  options := { dialer := some { detour := detour, rest := () }, download := none, rest := () }

def preparedList (sources : List (Outbound Unit Unit)) : List (PreparedOutbound Unit Unit) :=
  (prepareOutbounds "p" sources "").toOption.getD []

/-- A chain `b` over `a`, and `c` alone. -/
def chainBefore : List (Outbound Unit Unit) := [plainOutbound "b" "a", plainOutbound "a" "", plainOutbound "c" ""]

/-- The outbound at the end of the chain got a detour. -/
def chainAfter : List (Outbound Unit Unit) := [plainOutbound "b" "a", plainOutbound "a" "out", plainOutbound "c" ""]

theorem update_eq_rebuild_chain :
    affectedOutbounds (preparedList chainBefore) (preparedList chainAfter) = ["p/b", "p/a"] ∧
      updatedRuntime (preparedList chainBefore) (preparedList chainAfter) "p/c" =
        (preparedByTag (preparedList chainAfter) "p/c").map runtime := by
  refine ⟨by decide +kernel, ?_⟩
  exact (update_eq_rebuild "p" "" chainBefore chainAfter (preparedList chainBefore) (preparedList chainAfter) rfl rfl
    (by decide +kernel) (by decide +kernel)).2.2 "p/c"

end SingBox.Provider
