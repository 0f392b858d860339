import SingBox.Outbounds.Manager

/-!
# The indexes of the manager agree

Whatever is created, removed and swapped, the list, the index by tag, the reverse index
and the default outbound describe one set of outbounds.
-/
namespace SingBox.Outbounds

open List Function Outbound

/-- The structures of the manager describe the outbounds of its list. -/
structure Manager.Consistent (m : Manager) : Prop where
  nodup : (m.outbounds.map tag).Nodup
  byTag : ∀ t o, m.outboundByTag t = some o ↔ o ∈ m.outbounds ∧ o.tag = t
  depend : ∀ t d, t ∈ m.dependByTag d ↔ ∃ o ∈ m.outbounds, o.tag = t ∧ d ∈ o.dependencies
  default : ∀ o, m.defaultOutbound = some o → o ∈ m.outbounds ∨ ∃ t, m.endpoint t = some o
  chosen : m.defaultTag = "" → m.defaultOutbound = none → m.outbounds = []

section
variable {depend : String → List String} {tag t d : String} {dependencies : List String}

theorem mem_withoutDependent :
    t ∈ withoutDependent depend tag dependencies d ↔ t ∈ depend d ∧ ¬(d ∈ dependencies ∧ t = tag) := by
  unfold withoutDependent
  induction dependencies generalizing depend with
  | nil => simp
  | cons dependency dependencies ih =>
    rw [foldl_cons, ih]
    by_cases h : d = dependency
    · subst h
      simp only [update_self, mem_filter, bne_iff_ne, mem_cons, true_or, true_and]
      tauto
    · simp [h]

theorem mem_withDependent :
    t ∈ withDependent depend tag dependencies d ↔ t ∈ depend d ∨ (d ∈ dependencies ∧ t = tag) := by
  unfold withDependent
  induction dependencies generalizing depend with
  | nil => simp
  | cons dependency dependencies ih =>
    rw [foldl_cons, ih]
    by_cases h : d = dependency
    · subst h
      simp only [update_self, mem_append, mem_cons, true_or, true_and]
      tauto
    · simp [h]

/-- The edges of a list of outbounds are taken out. -/
theorem mem_foldl_withoutDependent {α : Type} {name : α → String} {edges : α → List String} {l : List α} :
    t ∈ l.foldl (fun depend old => withoutDependent depend (name old) (edges old)) depend d ↔
      t ∈ depend d ∧ ∀ old ∈ l, ¬(d ∈ edges old ∧ t = name old) := by
  induction l generalizing depend with
  | nil => simp
  | cons old l ih => rw [foldl_cons, ih, mem_withoutDependent, forall_mem_cons, and_assoc]

theorem mem_foldl_withDependent {l : List Outbound} :
    t ∈ l.foldl (fun depend o => withDependent depend o.tag o.dependencies) depend d ↔
      t ∈ depend d ∨ ∃ o ∈ l, o.tag = t ∧ d ∈ o.dependencies := by
  induction l generalizing depend with
  | nil => simp
  | cons o l ih =>
    rw [foldl_cons, ih, mem_withDependent, exists_mem_cons_iff, or_assoc, and_comm, eq_comm]

end

/-- A member of a list with distinct tags and those with other tags are the list. -/
theorem cons_filter_perm {l : List Outbound} (hl : (l.map tag).Nodup) {c : Outbound} (hc : c ∈ l) :
    (c :: l.filter fun it => it.tag != c.tag).Perm l := by
  induction l with
  | nil => cases hc
  | cons o l ih =>
    obtain ⟨ho, hl⟩ := nodup_cons.mp hl
    rcases mem_cons.mp hc with rfl | hc
    · rw [filter_cons_of_neg (by simp), filter_eq_self.mpr]
      intro it hit
      exact bne_iff_ne.mpr fun heq => ho (mem_map.mpr ⟨it, hit, heq⟩)
    · have hne : o.tag ≠ c.tag := fun heq => ho (mem_map.mpr ⟨c, hc, heq.symm⟩)
      rw [filter_cons_of_pos (by simpa using hne)]
      exact (List.Perm.swap o c _).trans ((ih hl hc).cons o)

/-- Placing the candidates keeps the outbounds that stay, and loses no candidate. -/
theorem place_perm (removes : String → Bool) (l : List Outbound) {remaining : List Outbound}
    (hr : (remaining.map tag).Nodup) :
    ((place removes l remaining).1 ++ (place removes l remaining).2).Perm
      ((l.filter fun o => !removes o.tag) ++ remaining) := by
  induction l generalizing remaining with
  | nil => exact .refl _
  | cons o l ih =>
    unfold place
    by_cases ho : removes o.tag = true
    · rw [if_neg (by simp [ho]), filter_cons_of_neg (by simp [ho])]
      cases hfind : remaining.find? fun candidate => candidate.tag == o.tag with
      | none => exact ih hr
      | some c =>
        have hc : c ∈ remaining := mem_of_find?_eq_some hfind
        have htag : c.tag = o.tag := by simpa using List.find?_some hfind
        have hrest := ih ((filter_sublist.map tag).nodup hr :
          ((remaining.filter fun it => it.tag != c.tag).map tag).Nodup)
        rw [← htag]
        exact ((hrest.cons c).trans perm_middle.symm).trans ((cons_filter_perm hr hc).append_left _)
    · rw [if_pos (by simp [ho]), filter_cons_of_pos (by simp [ho])]
      exact (ih hr).cons o

namespace Manager

variable {m : Manager}

variable {o : Outbound} {t : String}

section
variable (h : m.Consistent) (ho : o ∈ m.outbounds)
include h ho

theorem Consistent.unique {o' : Outbound} (ho' : o' ∈ m.outbounds) (htag : o.tag = o'.tag) : o = o' := by
  have h1 := (h.byTag o'.tag o).mpr ⟨ho, htag⟩
  have h2 := (h.byTag o'.tag o').mpr ⟨ho', rfl⟩
  exact Option.some.inj (h1.symm.trans h2)

theorem Consistent.filter_ne :
    m.outbounds.filter (fun it => it != o) = m.outbounds.filter fun it => it.tag != o.tag := by
  refine filter_congr fun it hit => ?_
  rw [Bool.eq_iff_iff, bne_iff_ne, bne_iff_ne]
  exact not_congr ⟨congrArg tag, h.unique hit ho⟩

/-- Without the edges of an outbound, the reverse index is that of the others. -/
theorem Consistent.mem_without {d : String} :
    t ∈ withoutDependent m.dependByTag o.tag o.dependencies d ↔ t ∈ m.dependByTag d ∧ t ≠ o.tag := by
  rw [mem_withoutDependent]
  constructor
  · rintro ⟨ht, hnot⟩
    refine ⟨ht, fun heq => hnot ⟨?_, heq⟩⟩
    obtain ⟨it, hit, htag, hd⟩ := (h.depend t d).mp ht
    rw [← h.unique hit ho (htag.trans heq)]
    exact hd
  · rintro ⟨ht, hne⟩
    exact ⟨ht, fun hd => hne hd.2⟩

end

theorem consistent_new (defaultTag : String) (endpoint : String → Option Outbound) :
    (new defaultTag endpoint).Consistent := by
  refine ⟨nodup_nil, fun t o => ?_, fun t d => ?_, nofun, fun _ _ => rfl⟩
  · simp [new]
  · simp [new]

theorem nodup_filter (h : m.Consistent) (p : Outbound → Bool) : ((m.outbounds.filter p).map tag).Nodup :=
  (filter_sublist.map tag).nodup h.nodup

theorem nodup_append {l : List Outbound} (hl : (l.map tag).Nodup) (ho : ∀ it ∈ l, it.tag ≠ o.tag) :
    ((l ++ [o]).map tag).Nodup := by
  rw [List.map_append, List.nodup_append]
  refine ⟨hl, by simp, ?_⟩
  simpa using ho

theorem Consistent.insert (h : m.Consistent) (o : Outbound) : (m.insert o).Consistent := by
  have hothers : (m.insert o).outbounds = m.outbounds.filter (fun it => it.tag != o.tag) ++ [o] := by
    cases he : m.outboundByTag o.tag with
    | none =>
      have hnone : ∀ it ∈ m.outbounds, it.tag ≠ o.tag := by
        intro it hit htag
        rw [(h.byTag o.tag it).mpr ⟨hit, htag⟩] at he
        cases he
      simp only [Manager.insert, he]
      rw [filter_eq_self.mpr (by simpa using hnone)]
    | some e =>
      obtain ⟨hmem, htag⟩ := (h.byTag o.tag e).mp he
      simp only [Manager.insert, he, removeDependencies]
      rw [h.filter_ne hmem, htag]
  have hmem : ∀ it, it ∈ (m.insert o).outbounds ↔ (it ∈ m.outbounds ∧ it.tag ≠ o.tag) ∨ it = o := by
    intro it
    simp [hothers]
  have hdepend : ∀ t d, t ∈ (m.insert o).dependByTag d ↔
      (t ∈ m.dependByTag d ∧ t ≠ o.tag) ∨ (d ∈ o.dependencies ∧ t = o.tag) := by
    intro t d
    cases he : m.outboundByTag o.tag with
    | none =>
      have hnone : o.tag ∉ m.dependByTag d := by
        rw [h.depend]
        rintro ⟨it, hit, htag, _⟩
        rw [(h.byTag o.tag it).mpr ⟨hit, htag⟩] at he
        cases he
      simp only [Manager.insert, he, mem_withDependent]
      refine or_congr_left ⟨fun ht => ⟨ht, fun heq => hnone (heq ▸ ht)⟩, And.left⟩
    | some e =>
      obtain ⟨hmem, htag⟩ := (h.byTag o.tag e).mp he
      simp only [Manager.insert, he, removeDependencies, mem_withDependent, h.mem_without hmem]
      rw [htag]
  constructor
  · rw [hothers]
    exact nodup_append (nodup_filter h _) (by simp)
  · intro t it
    rw [hmem]
    show update m.outboundByTag o.tag (some o) t = some it ↔ _
    by_cases ht : t = o.tag
    · subst ht
      rw [update_self, Option.some.injEq]
      constructor
      · rintro rfl
        exact ⟨.inr rfl, rfl⟩
      · rintro ⟨⟨_, hne⟩ | rfl, htag⟩
        · exact absurd htag hne
        · rfl
    · rw [update_of_ne ht, h.byTag]
      constructor
      · rintro ⟨hit, rfl⟩
        exact ⟨.inl ⟨hit, ht⟩, rfl⟩
      · rintro ⟨⟨hit, _⟩ | rfl, htag⟩
        · exact ⟨hit, htag⟩
        · exact absurd htag.symm ht
  · intro t d
    rw [hdepend]
    constructor
    · rintro (⟨ht, hne⟩ | ⟨hd, rfl⟩)
      · obtain ⟨it, hit, rfl, hd⟩ := (h.depend t d).mp ht
        exact ⟨it, (hmem it).mpr (.inl ⟨hit, hne⟩), rfl, hd⟩
      · exact ⟨o, (hmem o).mpr (.inr rfl), rfl, hd⟩
    · rintro ⟨it, hit, rfl, hd⟩
      rcases (hmem it).mp hit with ⟨hit, hne⟩ | rfl
      · exact .inl ⟨(h.depend it.tag d).mpr ⟨it, hit, rfl, hd⟩, hne⟩
      · exact .inr ⟨hd, rfl⟩
  · intro x hx
    show x ∈ (m.insert o).outbounds ∨ ∃ t, m.endpoint t = some x
    rw [hmem]
    simp only [Manager.insert] at hx
    split at hx
    · exact .inl (.inr (Option.some.inj hx).symm)
    next hkept =>
      refine (h.default x hx).imp_left fun hmemx => .inl ⟨hmemx, fun htag => hkept (.inr (.inr ?_))⟩
      rw [(h.byTag o.tag x).mpr ⟨hmemx, htag⟩]
      exact ⟨rfl, hx⟩
  · intro htag hnone
    simp only [Manager.insert] at htag hnone
    split at hnone
    · cases hnone
    next hkept => exact absurd (.inr (.inl ⟨htag, hnone⟩)) hkept

theorem Consistent.remove (h : m.Consistent) (tag : String) (closed : Except String Unit) :
    (m.remove tag closed).1.Consistent := by
  unfold Manager.remove
  cases he : m.outboundByTag tag with
  | none => exact h
  | some e =>
    obtain ⟨hmem, rfl⟩ := (h.byTag tag e).mp he
    dsimp only
    split
    · exact h
    have hin : ∀ it, it ∈ m.outbounds.filter (fun it => it.tag != e.tag) ↔ it ∈ m.outbounds ∧ it.tag ≠ e.tag := by
      simp
    simp only [removeDependencies, h.filter_ne hmem]
    constructor
    · exact nodup_filter h _
    · intro t it
      rw [hin]
      by_cases ht : t = e.tag
      · subst ht
        simp only [update_self]
        exact ⟨nofun, fun hit => absurd hit.2 hit.1.2⟩
      simp only [update_of_ne ht, h.byTag]
      constructor
      · rintro ⟨hit, rfl⟩
        exact ⟨⟨hit, ht⟩, rfl⟩
      · rintro ⟨⟨hit, _⟩, htag⟩
        exact ⟨hit, htag⟩
    · intro t d
      simp only [h.mem_without hmem, h.depend]
      constructor
      · rintro ⟨⟨it, hit, rfl, hd⟩, hne⟩
        exact ⟨it, (hin it).mpr ⟨hit, hne⟩, rfl, hd⟩
      · rintro ⟨it, hit, rfl, hd⟩
        obtain ⟨hit, hne⟩ := (hin it).mp hit
        exact ⟨⟨it, hit, rfl, hd⟩, hne⟩
    · intro x hx
      dsimp only at hx
      split at hx
      · exact .inl (mem_of_head? hx)
      next hkept =>
        refine (h.default x hx).imp_left fun hmemx => (hin x).mpr ⟨hmemx, fun htag => hkept ?_⟩
        rw [hx, h.unique hmemx hmem htag]
    · intro htag hnone
      dsimp only at htag hnone
      split at hnone
      · exact List.head?_eq_none_iff.mp hnone
      · rw [h.chosen htag hnone]
        rfl

theorem checkCandidates_ok {removes : String → Bool} {seen : List String} {candidates : List Outbound}
    (h : m.checkCandidates removes seen candidates = .ok ()) :
    (candidates.map tag).Nodup ∧ ∀ c ∈ candidates, c.tag ∉ seen ∧
      ((m.outboundByTag c.tag).isSome → removes c.tag) := by
  induction candidates generalizing seen with
  | nil => simp
  | cons c candidates ih =>
    unfold checkCandidates at h
    dsimp only at h
    split at h
    · cases h
    next hnew =>
      split at h
      · cases h
      next hfree =>
        rw [not_or] at hnew
        obtain ⟨hnodup, hall⟩ := ih h
        refine ⟨nodup_cons.mpr ⟨?_, hnodup⟩, forall_mem_cons.mpr ⟨⟨hnew.2, ?_⟩, ?_⟩⟩
        · rintro hmem
          obtain ⟨c', hc', htag⟩ := mem_map.mp hmem
          exact (hall c' hc').1 (htag ▸ mem_cons_self)
        · simpa using hfree
        · exact fun c' hc' => ⟨fun hseen => (hall c' hc').1 (mem_cons_of_mem _ hseen), (hall c' hc').2⟩

/-- What `SwapBatch` has checked before its first update. -/
structure Swappable (m : Manager) (b : Batch) : Prop where
  current : ∀ old ∈ b.expectedOld, m.outboundByTag old.1 = some old.2
  distinct : (b.candidates.map tag).Nodup
  free : ∀ c ∈ b.candidates, (m.outboundByTag c.tag).isSome → b.removes c.tag
  dependents : ∀ tag, b.removes tag → ∀ t ∈ m.dependByTag tag, b.removes t
  provided : ∀ c ∈ b.candidates, ∀ d ∈ c.dependencies, m.provides b d

theorem swapBatch_cases (m : Manager) (b : Batch) :
    (m.swapBatch b = (m.swap b, .ok b.expectedOld) ∧ m.Swappable b) ∨ ∃ err, m.swapBatch b = (m, .error err) := by
  unfold swapBatch
  cases hcurrent : b.expectedOld.find? fun old => m.outboundByTag old.1 != some old.2 with
  | some old => exact .inr ⟨_, rfl⟩
  | none =>
    dsimp only
    cases hcheck : m.checkCandidates b.removes [] b.candidates with
    | error err => exact .inr ⟨_, rfl⟩
    | ok =>
      dsimp only
      cases hdepend : (b.expectedOld.flatMap fun old => (m.dependByTag old.1).map (old.1, ·)).find?
          fun d => !b.removes d.2 with
      | some d => exact .inr ⟨_, rfl⟩
      | none =>
        dsimp only
        cases hprovided : (b.candidates.flatMap dependencies).find? fun d => !m.provides b d with
        | some d => exact .inr ⟨_, rfl⟩
        | none =>
          obtain ⟨hdistinct, hfree⟩ := checkCandidates_ok hcheck
          refine .inl ⟨rfl, ?_, hdistinct, fun c hc => (hfree c hc).2, ?_, ?_⟩
          · simpa using List.find?_eq_none.mp hcurrent
          · intro tag htag t ht
            obtain ⟨old, hold, heq⟩ := any_eq_true.mp htag
            have hmem : (old.1, t) ∈ b.expectedOld.flatMap fun old => (m.dependByTag old.1).map (old.1, ·) :=
              mem_flatMap.mpr ⟨old, hold, mem_map.mpr ⟨t, (beq_iff_eq.mp heq).symm ▸ ht, rfl⟩⟩
            simpa using List.find?_eq_none.mp hdepend _ hmem
          · intro c hc d hd
            simpa using List.find?_eq_none.mp hprovided d (mem_flatMap.mpr ⟨c, hc, hd⟩)

theorem candidateByTag_mem {b : Batch} {c : Outbound} (h : b.candidateByTag t = some c) :
    c ∈ b.candidates :=
  mem_of_find?_eq_some h

section
variable {b : Batch} (h : m.Consistent) (hb : m.Swappable b)
include hb

theorem swap_outbounds_perm :
    (m.swap b).outbounds.Perm ((m.outbounds.filter fun o => !b.removes o.tag) ++ b.candidates) :=
  place_perm b.removes m.outbounds hb.distinct

variable {o c : Outbound} {d : String}

theorem mem_swap_outbounds :
    o ∈ (m.swap b).outbounds ↔ (o ∈ m.outbounds ∧ b.removes o.tag = false) ∨ o ∈ b.candidates := by
  rw [(swap_outbounds_perm hb).mem_iff]
  simp

include h

/-- A candidate has no tag of an outbound that stays. -/
theorem Swappable.apart (ho : o ∈ m.outbounds) (hstay : b.removes o.tag = false) (hc : c ∈ b.candidates) :
    o.tag ≠ c.tag := by
  intro htag
  have := hb.free c hc (by rw [(h.byTag c.tag o).mpr ⟨ho, htag⟩]; rfl)
  rw [← htag, hstay] at this
  cases this

theorem Consistent.swap_nodup : ((m.swap b).outbounds.map tag).Nodup := by
  rw [((swap_outbounds_perm hb).map tag).nodup_iff, List.map_append, List.nodup_append]
  refine ⟨nodup_filter h _, hb.distinct, ?_⟩
  intro t ht t' ht'
  obtain ⟨o, ho, rfl⟩ := List.mem_map.mp ht
  obtain ⟨c, hc, rfl⟩ := mem_map.mp ht'
  simp only [mem_filter, Bool.not_eq_true'] at ho
  exact hb.apart h ho.1 ho.2 hc

theorem Consistent.swap_byTag (t : String) (o : Outbound) :
    (m.swap b).outboundByTag t = some o ↔ o ∈ (m.swap b).outbounds ∧ o.tag = t := by
  rw [mem_swap_outbounds hb]
  simp only [swap, Lib.foldl_update_eq tag hb.distinct]
  by_cases hremoved : b.removes t = true
  · rw [if_pos hremoved]
    constructor
    · rintro (⟨ho, htag⟩ | ⟨_, hnone⟩)
      · exact ⟨.inr ho, htag⟩
      · cases hnone
    · rintro ⟨⟨_, hstay⟩ | ho, rfl⟩
      · rw [hremoved] at hstay
        cases hstay
      · exact .inl ⟨ho, rfl⟩
  · rw [if_neg hremoved, h.byTag]
    constructor
    · rintro (⟨ho, htag⟩ | ⟨_, ho, rfl⟩)
      · exact ⟨.inr ho, htag⟩
      · exact ⟨.inl ⟨ho, Bool.eq_false_iff.mpr hremoved⟩, rfl⟩
    · rintro ⟨⟨ho, hstay⟩ | ho, rfl⟩
      · exact .inr ⟨fun c hc heq => hb.apart h ho hstay hc heq.symm, ho, rfl⟩
      · exact .inl ⟨ho, rfl⟩

theorem Consistent.swap_depend (t d : String) :
    t ∈ (m.swap b).dependByTag d ↔ ∃ o ∈ (m.swap b).outbounds, o.tag = t ∧ d ∈ o.dependencies := by
  simp only [mem_swap_outbounds hb, or_and_right, exists_or]
  simp only [swap, mem_foldl_withDependent, mem_foldl_withoutDependent]
  refine or_congr_left ?_
  constructor
  · rintro ⟨ht, hkept⟩
    obtain ⟨o, ho, rfl, hd⟩ := (h.depend t d).mp ht
    refine ⟨o, ⟨ho, Bool.eq_false_iff.mpr fun hremoved => ?_⟩, rfl, hd⟩
    obtain ⟨old, hold, heq⟩ := any_eq_true.mp hremoved
    have htag : old.1 = o.tag := beq_iff_eq.mp heq
    refine hkept old hold ⟨?_, htag.symm⟩
    rw [htag, (h.byTag o.tag o).mpr ⟨ho, rfl⟩]
    exact hd
  · rintro ⟨o, ⟨ho, hstay⟩, rfl, hd⟩
    refine ⟨(h.depend _ _).mpr ⟨o, ho, rfl, hd⟩, fun old hold hdrop => ?_⟩
    have hremoved : b.removes o.tag = true := any_eq_true.mpr ⟨old, hold, beq_iff_eq.mpr hdrop.2.symm⟩
    rw [hstay] at hremoved
    cases hremoved

theorem Consistent.swap_default (o : Outbound) (ho : (m.swap b).defaultOutbound = some o) :
    o ∈ (m.swap b).outbounds ∨ ∃ t, m.endpoint t = some o := by
  rw [mem_swap_outbounds hb]
  simp only [swap, Option.or_eq_some_iff, Option.or_eq_none_iff] at ho
  rcases ho with (hc | ⟨_, hreplaced⟩) | ⟨_, hhead⟩
  · exact .inl (.inr (candidateByTag_mem hc))
  · cases hdefault : m.defaultOutbound with
    | none =>
      rw [hdefault] at hreplaced
      cases hreplaced
    | some current =>
      rw [hdefault] at hreplaced
      dsimp only at hreplaced
      split at hreplaced
      · exact .inl (.inr (candidateByTag_mem hreplaced))
      next hstay =>
        cases hreplaced
        exact (h.default _ hdefault).imp_left fun hmem => .inl ⟨hmem, Bool.eq_false_iff.mpr hstay⟩
  · exact .inl ((mem_swap_outbounds hb).mp (mem_of_head? hhead))

theorem Consistent.swap : (m.swap b).Consistent where
  nodup := h.swap_nodup hb
  byTag := h.swap_byTag hb
  depend := h.swap_depend hb
  default := h.swap_default hb
  chosen := by
    intro _ hnone
    simp only [Manager.swap, Option.or_eq_none_iff] at hnone
    exact List.head?_eq_none_iff.mp hnone.2

/-- Only a candidate keeps a dependency that was removed and not put back, and then an endpoint has
the tag. -/
theorem Swappable.dangling (ho : o ∈ (m.swap b).outbounds) (hd : d ∈ o.dependencies) (hremoved : b.removes d = true) :
    ((m.swap b).outboundByTag d).isSome ∨ o ∈ b.candidates ∧ (m.endpoint d).isSome := by
  rcases (mem_swap_outbounds hb).mp ho with ⟨hold, hstay⟩ | hc
  · have hdropped := hb.dependents d hremoved o.tag ((h.depend _ _).mpr ⟨o, hold, rfl, hd⟩)
    rw [hstay] at hdropped
    cases hdropped
  have hprovided := hb.provided o hc d hd
  simp only [provides, hremoved, Bool.not_true, Bool.and_false, Bool.or_false, Bool.or_eq_true] at hprovided
  refine hprovided.imp (fun hcand => ?_) fun hend => ⟨hc, hend⟩
  obtain ⟨c, hfind⟩ := Option.isSome_iff_exists.mp hcand
  have htag : c.tag = d := by simpa using List.find?_some hfind
  rw [(h.swap_byTag hb d c).mpr ⟨(mem_swap_outbounds hb).mpr (.inr (candidateByTag_mem hfind)), htag⟩]
  rfl

theorem Swappable.present (hc : c ∈ b.candidates) (hd : d ∈ c.dependencies) :
    ((m.swap b).outbound d).isSome := by
  have hprovided := hb.provided c hc d hd
  simp only [provides, Bool.or_eq_true, Bool.and_eq_true, Bool.not_eq_true'] at hprovided
  show (((m.swap b).outboundByTag d).or (m.endpoint d)).isSome
  rw [Option.isSome_or, Bool.or_eq_true]
  rcases hprovided with (hcand | ⟨hold, hstay⟩) | hend
  · obtain ⟨c', hfind⟩ := Option.isSome_iff_exists.mp hcand
    have htag : c'.tag = d := by simpa using List.find?_some hfind
    rw [(h.swap_byTag hb d c').mpr ⟨(mem_swap_outbounds hb).mpr (.inr (candidateByTag_mem hfind)), htag⟩]
    exact .inl rfl
  · obtain ⟨o, ho⟩ := Option.isSome_iff_exists.mp hold
    obtain ⟨hmem, rfl⟩ := (h.byTag d o).mp ho
    rw [(h.swap_byTag hb o.tag o).mpr ⟨(mem_swap_outbounds hb).mpr (.inl ⟨hmem, hstay⟩), rfl⟩]
    exact .inl rfl
  · exact .inr hend

end

theorem Consistent.startInitialize (h : m.Consistent)
    (fallback : Except String { o : Outbound // o.dependencies = [] }) :
    (m.startInitialize fallback).1.Consistent := by
  unfold Manager.startInitialize
  cases hdefault : m.defaultOutbound with
  | some current => exact h
  | none =>
    dsimp only
    split
    · cases hend : m.endpoint m.defaultTag with
      | none => exact h
      | some e =>
        refine ⟨h.nodup, h.byTag, h.depend, fun o ho => ?_, nofun⟩
        cases ho
        exact .inr ⟨m.defaultTag, hend⟩
    next htag =>
      cases fallback with
      | error err => exact h
      | ok direct =>
        -- without a default tag and a default outbound nothing has been added yet
        have hempty : m.outbounds = [] := h.chosen (not_not.mp htag) hdefault
        have hbyTag : ∀ t, m.outboundByTag t = none := by
          intro t
          by_contra hsome
          obtain ⟨o, ho⟩ := Option.ne_none_iff_exists'.mp hsome
          have := ((h.byTag t o).mp ho).1
          rw [hempty] at this
          cases this
        simp only [hempty, nil_append]
        refine ⟨by simp, fun t o => ?_, fun t d => ?_, fun o ho => ?_, nofun⟩
        · by_cases ht : t = direct.val.tag
          · subst ht
            simp only [update_self, Option.some.injEq, mem_singleton]
            exact ⟨fun heq => ⟨heq.symm, by rw [heq]⟩, fun heq => heq.1.symm⟩
          · simp only [update_of_ne ht, hbyTag, mem_singleton]
            exact ⟨nofun, fun heq => absurd (heq.1 ▸ heq.2.symm) ht⟩
        · simp [h.depend, hempty, direct.property]
        · cases ho
          exact .inl mem_cons_self

theorem Consistent.step (h : m.Consistent) (l : Label) : (m.step l).Consistent := by
  cases l with
  | startInitialize fallback => exact h.startInitialize fallback
  | create tag created started closed =>
    simp only [Manager.step, create]
    split
    · exact h
    cases created with
    | error err => exact h
    | ok o =>
      cases started with
      | error err => exact h
      | ok => exact h.insert o
  | remove tag closed => exact h.remove tag closed
  | swapBatch b =>
    simp only [Manager.step]
    rcases swapBatch_cases m b with ⟨heq, hb⟩ | ⟨err, heq⟩
    · rw [heq]
      exact h.swap hb
    · rw [heq]
      exact h

theorem consistent_run {defaultTag : String} {endpoint : String → Option Outbound} {past : List (Manager × Label)}
    (hrun : (machine defaultTag endpoint).Run past m) : m.Consistent := by
  refine hrun.always ?_ ?_
  · rintro m rfl
    exact consistent_new defaultTag endpoint
  · intro m m' l h hstep
    cases hstep
    exact h.step l

theorem remove_refused {tag err : String} (h : (m.remove tag (.ok ())).2 = .error err) (closed : Except String Unit) :
    m.remove tag closed = (m, .error err) := by
  unfold remove at h ⊢
  cases hfound : m.outboundByTag tag with
  | none =>
    rw [hfound] at h
    rw [← h]
  | some o =>
    rw [hfound] at h
    dsimp only at h ⊢
    split at h
    · rw [if_pos (by assumption), ← h]
    · cases h

end Manager

/-- In every state the indexes describe the outbounds of the list, what is refused changes nothing,
and what is swapped in has its dependencies. -/
theorem indexes_agree (defaultTag : String) (endpoint : String → Option Outbound) (past : List (Manager × Label))
    (m : Manager) (hrun : (machine defaultTag endpoint).Run past m) :
    (m.outbounds.map tag).Nodup ∧
    (∀ t o, m.outboundByTag t = some o ↔ o ∈ m.outbounds ∧ o.tag = t) ∧
    (∀ t d, t ∈ m.dependByTag d ↔ ∃ o, m.outboundByTag t = some o ∧ d ∈ o.dependencies) ∧
    (∀ o, m.defaultOutbound = some o → o ∈ m.outbounds ∨ ∃ t, m.endpoint t = some o) ∧
    (∀ tag err closed, (m.remove tag (.ok ())).2 = .error err → m.remove tag closed = (m, .error err)) ∧
    ∀ b, match (m.swapBatch b).2 with
      | .error _ => (m.swapBatch b).1 = m
      | .ok _ =>
        let m' := (m.swapBatch b).1
        (∀ o ∈ m'.outbounds, ∀ d ∈ o.dependencies, b.removes d →
          (m'.outboundByTag d).isSome ∨ o ∈ b.candidates ∧ (m.endpoint d).isSome) ∧
        ∀ c ∈ b.candidates, c ∈ m'.outbounds ∧ ∀ d ∈ c.dependencies, (m'.outbound d).isSome := by
  have h := Manager.consistent_run hrun
  refine ⟨h.nodup, h.byTag, fun t d => ?_, h.default, fun tag err closed => ?_, fun b => ?_⟩
  · rw [h.depend]
    constructor
    · rintro ⟨o, ho, htag, hd⟩
      exact ⟨o, (h.byTag t o).mpr ⟨ho, htag⟩, hd⟩
    · rintro ⟨o, ho, hd⟩
      obtain ⟨hmem, htag⟩ := (h.byTag t o).mp ho
      exact ⟨o, hmem, htag, hd⟩
  · exact fun hrefused => Manager.remove_refused hrefused closed
  · rcases Manager.swapBatch_cases m b with ⟨heq, hb⟩ | ⟨err, heq⟩
    · rw [heq]
      refine ⟨fun o ho d hd hremoved => hb.dangling h ho hd hremoved, fun c hc => ⟨?_, fun d hd => hb.present h hc hd⟩⟩
      exact (Manager.mem_swap_outbounds hb).mpr (.inr hc)
    · rw [heq]

def onlyEndpoint (tag : String) : Option Outbound := if tag = "x" then some ⟨0, "x", []⟩ else none

def shadowing : Outbound := ⟨1, "x", []⟩

/-- An outbound with the tag of the endpoint was created. -/
def shadowed : Manager := (Manager.new "" onlyEndpoint).step (.create "x" (.ok ⟨shadowing, rfl⟩) (.ok ()) (.ok ()))

theorem shadowed_run : ∃ past, (machine "" onlyEndpoint).Run past shadowed :=
  ⟨_, .next [] _ _ (.create "x" (.ok ⟨shadowing, rfl⟩) (.ok ()) (.ok ())) (.start _ rfl) rfl⟩

/-- `x` goes, and `y` that depends on it comes. -/
def unshadow : Batch where
  expectedOld := [("x", shadowing)]
  candidates := [⟨2, "y", ["x"]⟩]
  nodup := by decide

theorem indexes_agree_unshadow :
    (shadowed.swapBatch unshadow).2 = .ok unshadow.expectedOld ∧
      ((shadowed.swapBatch unshadow).1.outbound "x").isSome := by
  have hok : (shadowed.swapBatch unshadow).2 = .ok unshadow.expectedOld := by rfl
  obtain ⟨past, hrun⟩ := shadowed_run
  have hswap := (indexes_agree "" onlyEndpoint past shadowed hrun).2.2.2.2.2 unshadow
  rw [hok] at hswap
  exact ⟨hok, (hswap.2 ⟨2, "y", ["x"]⟩ (by decide)).2 "x" (by decide)⟩

theorem removed_dependency_kept :
    ∃ past m, ∃ b : Batch, (machine "" onlyEndpoint).Run past m ∧ (m.swapBatch b).2 = .ok b.expectedOld ∧
      ∃ o ∈ (m.swapBatch b).1.outbounds, ∃ d ∈ o.dependencies,
        b.removes d = true ∧ (m.swapBatch b).1.outboundByTag d = none := by
  obtain ⟨past, hrun⟩ := shadowed_run
  refine ⟨past, shadowed, unshadow, hrun, by rfl, ⟨2, "y", ["x"]⟩, by decide, "x", by decide, by decide, by decide⟩

end SingBox.Outbounds
