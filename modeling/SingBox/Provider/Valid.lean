import SingBox.Provider.Filter

/-!
# What `FilterInvalidOutbounds` leaves

An outbound is left if and only if nothing it rests on depends on an invalid tag or lies on a cycle. A search
that comes back to an outbound it is visiting has found a cycle, so that its verdict does not depend on where
it came upon it.
-/
namespace SingBox.Provider

open Lib List Function

variable {δ ω : Type}

section
variable (dependencies : Nat → List String) (invalidTags : List String) (byTag : String → Option Nat)

/-- A dependency of the outbound is a name of the other. -/
def RestsOn (i j : Nat) : Prop := ∃ d ∈ dependencies i, byTag d = some j

/-- What is reached from the outbound depends on no invalid tag and is on no cycle. -/
def Intact (i : Nat) : Prop :=
  ∀ j, Relation.ReflTransGen (RestsOn dependencies byTag) i j →
    (∀ d ∈ dependencies j, d ∉ invalidTags) ∧ ¬Relation.TransGen (RestsOn dependencies byTag) j j

theorem intact_iff {i : Nat} : Intact dependencies invalidTags byTag i ↔
    ∀ d ∈ dependencies i, d ∉ invalidTags ∧ ∀ j, byTag d = some j → Intact dependencies invalidTags byTag j := by
  constructor
  · intro h d hd
    exact ⟨(h i .refl).1 d hd, fun j hj k hk => h k (.head ⟨d, hd, hj⟩ hk)⟩
  intro h j hreach
  rcases Relation.ReflTransGen.cases_head hreach with rfl | ⟨k, ⟨d, hd, hk⟩, hkj⟩
  · refine ⟨fun d hd => (h d hd).1, fun hcycle => ?_⟩
    -- the cycle is reached from the dependency it goes on to
    obtain ⟨k, ⟨d, hd, hk⟩, hki⟩ := Relation.TransGen.head'_iff.mp hcycle
    exact ((h d hd).2 k hk i hki).2 hcycle
  · exact (h d hd).2 k hk j hkj

/-- The verdicts that were given are right. -/
structure Judged (states : Nat → Validity) : Prop where
  valid : ∀ k, states k = .valid → Intact dependencies invalidTags byTag k
  invalid : ∀ k, states k = .invalid → ¬Intact dependencies invalidTags byTag k

/-- A verdict stands, and a search leaves nothing it visits. -/
def Extends (states states' : Nat → Validity) : Prop :=
  ∀ k, (states k ≠ .unknown → states' k = states k) ∧ (states' k = .visiting → states k = .visiting)

/-- What a search guarantees that asks whether `p`. -/
structure Searched (states : Nat → Validity) (r : Bool × (Nat → Validity)) (p : Prop) : Prop where
  extend : Extends states r.2
  judged : Judged dependencies invalidTags byTag r.2
  verdict : r.1 = true ↔ p

/-- How many of the first outbounds have not been visited. -/
def unvisited (n : Nat) (states : Nat → Validity) : Nat := (range n).countP fun k => decide (states k = .unknown)

end

section
variable {dependencies : Nat → List String} {invalidTags : List String} {byTag : String → Option Nat} {n index : Nat}
  {states states' states'' : Nat → Validity}

theorem Extends.refl (states : Nat → Validity) : Extends states states := fun _ => ⟨fun _ => rfl, id⟩

theorem Extends.trans (h : Extends states states') (h' : Extends states' states'') : Extends states states'' := by
  intro k
  refine ⟨fun hk => ?_, fun hk => (h k).2 ((h' k).2 hk)⟩
  have hk' := (h k).1 hk
  rw [(h' k).1 (hk' ▸ hk), hk']

theorem Extends.settle {verdict : Validity} (hindex : states index = .unknown)
    (h : Extends (update states index .visiting) states') (hverdict : verdict ≠ .visiting) :
    Extends states (update states' index verdict) := by
  intro k
  by_cases hk : k = index
  · subst hk
    simp [hindex, hverdict]
  · have hother := h k
    rw [update_of_ne hk] at hother ⊢
    exact hother

theorem Extends.unvisited_le (h : Extends states states') : unvisited n states' ≤ unvisited n states := by
  refine countP_mono_left fun k _ hk => ?_
  by_contra hne
  have hne : states k ≠ .unknown := by simpa using hne
  rw [(h k).1 hne] at hk
  exact hne (of_decide_eq_true hk)

theorem unvisited_enter (hlt : index < n) (h : states index = .unknown) :
    unvisited n (update states index .visiting) < unvisited n states := by
  refine countP_lt_countP (fun k _ hk => ?_) (mem_range.mpr hlt) (by simp) (by simpa using h)
  by_cases hki : k = index
  · simpa [hki] using h
  · simpa [hki] using hk

theorem Judged.update (h : Judged dependencies invalidTags byTag states) {verdict : Validity}
    (hvalid : verdict = .valid → Intact dependencies invalidTags byTag index)
    (hinvalid : verdict = .invalid → ¬Intact dependencies invalidTags byTag index) :
    Judged dependencies invalidTags byTag (update states index verdict) := by
  constructor
  all_goals
    intro k hk
    by_cases hki : k = index
    · subst hki
      rw [update_self] at hk
      first | exact hvalid hk | exact hinvalid hk
    · rw [update_of_ne hki] at hk
      first | exact h.valid k hk | exact h.invalid k hk

theorem allValid_searched (visit : Nat → (Nat → Validity) → Bool × (Nat → Validity)) (ds : List String)
    (hvisit : ∀ d ∈ ds, ∀ j, byTag d = some j → ∀ states', Extends states states' →
      Judged dependencies invalidTags byTag states' →
      Searched dependencies invalidTags byTag states' (visit j states') (Intact dependencies invalidTags byTag j))
    (h : Judged dependencies invalidTags byTag states) :
    Searched dependencies invalidTags byTag states (allValid invalidTags byTag visit ds states)
      (∀ d ∈ ds, d ∉ invalidTags ∧ ∀ j, byTag d = some j → Intact dependencies invalidTags byTag j) := by
  induction ds generalizing states with
  | nil => exact ⟨.refl states, h, by simp [allValid]⟩
  | cons d ds ih =>
    obtain ⟨hd, hds⟩ := forall_mem_cons.mp hvisit
    rw [allValid, forall_mem_cons]
    split_ifs with hinvalid
    · exact ⟨.refl states, h, by simp [hinvalid]⟩
    cases hj : byTag d with
    | none =>
      obtain ⟨hext, hjudged, hverdict⟩ := ih hds h
      exact ⟨hext, hjudged, by simpa [hinvalid] using hverdict⟩
    | some j =>
      obtain ⟨hext, hjudged, hverdict⟩ := hd j hj states (.refl _) h
      rcases hr : visit j states with ⟨verdict, states'⟩
      simp only [hr] at hext hjudged hverdict ⊢
      cases verdict with
      | false =>
        exact ⟨hext, hjudged, by simpa [hinvalid] using fun hintact => absurd hintact (by simpa using hverdict)⟩
      | true =>
        obtain ⟨hext', hjudged', hverdict'⟩ :=
          ih (fun d' hd' j' hj' states'' hext' => hds d' hd' j' hj' states'' (hext.trans hext')) hjudged
        exact ⟨hext.trans hext', hjudged', by simpa [hinvalid, hverdict.mp rfl] using hverdict'⟩

/-- With fuel for the outbounds not yet visited, and from each that is being visited a way to this one, the
verdict of a search is right. -/
theorem isValid_searched (hbyTag : ∀ d j, byTag d = some j → j < n) {fuel : Nat} (hindex : index < n)
    (hfuel : unvisited n states < fuel)
    (hway : ∀ k, states k = .visiting → Relation.TransGen (RestsOn dependencies byTag) k index)
    (h : Judged dependencies invalidTags byTag states) :
    Searched dependencies invalidTags byTag states (isValid dependencies invalidTags byTag fuel index states)
      (Intact dependencies invalidTags byTag index) := by
  induction fuel generalizing index states with
  | zero => omega
  | succ fuel ih =>
    rw [isValid]
    cases hs : states index with
    | visiting => exact ⟨.refl states, h, by simpa using fun hintact => (hintact index .refl).2 (hway index hs)⟩
    | invalid => exact ⟨.refl states, h, by simpa using h.invalid index hs⟩
    | valid => exact ⟨.refl states, h, by simpa using h.valid index hs⟩
    | unknown =>
      have hentered : Judged dependencies invalidTags byTag (update states index .visiting) := h.update nofun nofun
      obtain ⟨hext, hjudged, hverdict⟩ := allValid_searched (isValid dependencies invalidTags byTag fuel)
        (dependencies index) (fun d hd j hj states' hext hjudged => by
          refine ih (hbyTag d j hj) ?_ (fun k hk => ?_) hjudged
          · have := hext.unvisited_le (n := n)
            have := unvisited_enter hindex hs
            omega
          have hk := (hext k).2 hk
          by_cases hki : k = index
          · subst hki
            exact .single ⟨d, hd, hj⟩
          · rw [update_of_ne hki] at hk
            exact (hway k hk).tail ⟨d, hd, hj⟩)
        hentered
      rw [← intact_iff] at hverdict
      dsimp only
      rcases hr : allValid invalidTags byTag (isValid dependencies invalidTags byTag fuel) (dependencies index)
        (update states index .visiting) with ⟨verdict, states'⟩
      simp only [hr] at hext hjudged hverdict
      cases verdict with
      | false =>
        have hnot : ¬Intact dependencies invalidTags byTag index := by simpa using hverdict
        exact ⟨hext.settle hs (by decide), hjudged.update nofun fun _ => hnot, by simpa using hnot⟩
      | true =>
        have hintact := hverdict.mp rfl
        exact ⟨hext.settle hs (by decide), hjudged.update (fun _ => hintact) nofun, by simpa using hintact⟩

open Classical in
/-- The variables of the loop over the outbounds. -/
structure Filtering (dependencies : Nat → List String) (invalidTags : List String) (byTag : String → Option Nat)
    (acc : (List (Outbound δ ω) × List (Outbound δ ω)) × (Nat → Validity)) (seen : List (Outbound δ ω × Nat)) :
    Prop where
  judged : Judged dependencies invalidTags byTag acc.2
  top : ∀ k, acc.2 k ≠ .visiting
  kept : acc.1.1 = (seen.filter fun o => Intact dependencies invalidTags byTag o.2).map Prod.fst
  skipped : acc.1.2 = (seen.filter fun o => ¬Intact dependencies invalidTags byTag o.2).map Prod.fst

theorem Filtering.next {acc : (List (Outbound δ ω) × List (Outbound δ ω)) × (Nat → Validity)}
    {seen : List (Outbound δ ω × Nat)} (h : Filtering dependencies invalidTags byTag acc seen)
    (hbyTag : ∀ d j, byTag d = some j → j < n) {o : Outbound δ ω × Nat} (ho : o.2 < n) :
    Filtering dependencies invalidTags byTag (keepValid (isValid dependencies invalidTags byTag (n + 1)) acc o)
      (seen ++ [o]) := by
  have hfuel : unvisited n acc.2 < n + 1 := by
    have hle := countP_le_length (p := fun k => decide (acc.2 k = .unknown)) (l := range n)
    rw [length_range] at hle
    exact Nat.lt_succ_of_le hle
  obtain ⟨hext, hjudged, hverdict⟩ := isValid_searched hbyTag ho hfuel (fun k hk => absurd hk (h.top k)) h.judged
  rcases hr : isValid dependencies invalidTags byTag (n + 1) o.2 acc.2 with ⟨verdict, states⟩
  simp only [hr] at hext hjudged hverdict
  have htop : ∀ k, states k ≠ .visiting := fun k hk => h.top k ((hext k).2 hk)
  cases verdict with
  | true | false =>
    simp only [keepValid, hr]
    exact ⟨hjudged, htop, by simp [h.kept, filter_append, ← hverdict], by simp [h.skipped, filter_append, ← hverdict]⟩

end

section
variable {outbounds : List (Outbound δ ω)} {invalidTags : List String} {i : Nat}

variable (outbounds invalidTags) in
/-- `Intact`, as `FilterInvalidOutboundsWithSkipped` has the dependencies. -/
abbrev IntactOf : Nat → Prop := Intact (knownDependencies outbounds invalidTags) invalidTags (firstIndex outbounds)

open Classical in
theorem filterInvalidOutboundsWithSkipped_eq (outbounds : List (Outbound δ ω)) (invalidTags : List String) :
    filterInvalidOutboundsWithSkipped outbounds invalidTags =
      ((outbounds.zipIdx.filter fun o => IntactOf outbounds invalidTags o.2).map Prod.fst,
        (outbounds.zipIdx.filter fun o => ¬IntactOf outbounds invalidTags o.2).map Prod.fst) := by
  have hend := foldl_seen (fun acc seen => (∀ o ∈ seen, o.2 < outbounds.length) →
      Filtering (knownDependencies outbounds invalidTags) invalidTags (firstIndex outbounds) acc seen)
    (fun acc seen o h hlt => (h fun p hp => hlt p (mem_append_left _ hp)).next (fun _ _ hj => by
      obtain ⟨_, o, ho, _⟩ := firstIndex_eq_some hj
      exact (List.getElem?_eq_some_iff.mp ho).1) (hlt o (by simp)))
    outbounds.zipIdx (b := (([], []), fun _ => .unknown)) fun _ => ⟨⟨nofun, nofun⟩, nofun, rfl, rfl⟩
  have hfiltering := hend fun o ho => snd_lt_of_mem_zipIdx ho
  exact Prod.ext hfiltering.kept hfiltering.skipped

theorem mem_kept {o : Outbound δ ω} : o ∈ (filterInvalidOutboundsWithSkipped outbounds invalidTags).1 ↔
    ∃ i, outbounds[i]? = some o ∧ IntactOf outbounds invalidTags i := by
  simp [filterInvalidOutboundsWithSkipped_eq, mem_zipIdx_iff_getElem?]

theorem mem_knownDependencies {tag : String} : tag ∈ knownDependencies outbounds invalidTags i ↔
    ∃ o, outbounds[i]? = some o ∧ tag ∈ o.options.references ∧ tag ≠ "" ∧
      (tag ∈ invalidTags ∨ tag ∈ outbounds.map Outbound.tag) := by
  unfold knownDependencies
  cases ho : outbounds[i]? with
  | none => simp
  | some o =>
    refine mem_rewriteOutboundReferences_snd.trans ⟨?_, ?_⟩
    · rintro ⟨t, ht, hne, hknown⟩
      obtain ⟨hknown, ⟨⟩⟩ := Option.ite_none_right_eq_some.mp hknown
      exact ⟨o, rfl, ht, hne, hknown.imp_right And.right⟩
    · rintro ⟨_, ⟨⟩, ht, hne, hknown⟩
      exact ⟨tag, ht, hne, if_pos (hknown.imp_right fun h => ⟨hne, h⟩)⟩

theorem Intact.reference {i : Nat} {o : Outbound δ ω} {t : String} (h : IntactOf outbounds invalidTags i)
    (ho : outbounds[i]? = some o) (ht : t ∈ o.options.references) (hne : t ≠ "") :
    t ∉ invalidTags ∧ ∀ j, firstIndex outbounds t = some j →
      RestsOn (knownDependencies outbounds invalidTags) (firstIndex outbounds) i j ∧
        IntactOf outbounds invalidTags j := by
  have hdep : t ∈ invalidTags ∨ t ∈ outbounds.map Outbound.tag → t ∈ knownDependencies outbounds invalidTags i :=
    fun hknown => mem_knownDependencies.mpr ⟨o, ho, ht, hne, hknown⟩
  have hall := (intact_iff ..).mp h
  constructor
  · intro hinvalid
    exact (hall t (hdep (.inl hinvalid))).1 hinvalid
  · intro j hj
    obtain ⟨_, o', ho', htag⟩ := firstIndex_eq_some hj
    have hmem := hdep (.inr (mem_map.mpr ⟨o', mem_of_getElem? ho', htag⟩))
    exact ⟨⟨t, hmem, hj⟩, (hall t hmem).2 j hj⟩

end

/-- The outbound dials through the other. -/
def DialsThrough (outbounds : List (Outbound δ ω)) (i j : Nat) : Prop :=
  ∃ o, outbounds[i]? = some o ∧ ∃ tag ∈ o.options.references, Means outbounds tag j

/-- Whatever the outbound dials through, over any number of others, names no invalid tag and is on no cycle. -/
def Unbroken (outbounds : List (Outbound δ ω)) (invalidTags : List String) (i : Nat) : Prop :=
  ∀ j, Relation.ReflTransGen (DialsThrough outbounds) i j →
    (∀ o, outbounds[j]? = some o → ∀ tag ∈ o.options.references, tag ≠ "" → tag ∉ invalidTags) ∧
    ¬Relation.TransGen (DialsThrough outbounds) j j

section
variable {outbounds : List (Outbound δ ω)} {invalidTags : List String} {i : Nat}

theorem restsOn_eq :
    RestsOn (knownDependencies outbounds invalidTags) (firstIndex outbounds) = DialsThrough outbounds := by
  funext i j
  refine propext ⟨?_, ?_⟩
  · rintro ⟨t, ht, hj⟩
    obtain ⟨o, ho, hmem, _⟩ := mem_knownDependencies.mp ht
    exact ⟨o, ho, t, hmem, firstIndex_eq_some_iff.mp hj⟩
  · rintro ⟨o, ho, t, hmem, hmeans⟩
    have ⟨hne, ⟨o', ho', htag⟩, _⟩ := hmeans
    have hknown : t ∈ outbounds.map Outbound.tag := mem_map.mpr ⟨o', mem_of_getElem? ho', htag⟩
    exact ⟨t, mem_knownDependencies.mpr ⟨o, ho, hmem, hne, .inr hknown⟩, firstIndex_eq_some_iff.mpr hmeans⟩

theorem intactOf_iff : IntactOf outbounds invalidTags i ↔ Unbroken outbounds invalidTags i := by
  unfold IntactOf Intact Unbroken
  rw [restsOn_eq]
  refine forall₂_congr fun j _ => and_congr_left fun _ => ⟨fun h o ho t ht hne hinvalid => ?_, fun h t ht => ?_⟩
  · exact h t (mem_knownDependencies.mpr ⟨o, ho, ht, hne, .inl hinvalid⟩) hinvalid
  · obtain ⟨o, ho, hmem, hne, _⟩ := mem_knownDependencies.mp ht
    exact h o ho t hmem hne

end

/-! ### Sorting what is left -/

section
variable {outbounds : List (Outbound δ ω)} {invalidTags : List String} {kept : List (Outbound δ ω × Nat)}
  {providerTag : String} {i : Nat} {t t' : String}

/-- The outbound `i` of the list is left, and has the runtime tag. -/
def Runs (kept : List (Outbound δ ω × Nat)) (providerTag : String) (i : Nat) (tag : String) : Prop :=
  ∃ (k : Nat) (source : Outbound δ ω), kept[k]? = some (source, i) ∧
    (prepareOutbound providerTag (qualifiedTags providerTag (kept.map Prod.fst)) "" k source).tag = tag

theorem getElem?_prepareEach (providerTag : String) {k : Nat} {source : Outbound δ ω}
    (h : kept[k]? = some (source, i)) :
    (prepareEach providerTag (kept.map Prod.fst) "")[k]? =
      some (prepareOutbound providerTag (qualifiedTags providerTag (kept.map Prod.fst)) "" k source) := by
  simp [prepareEach, h]

variable (hkept : ∀ o, o ∈ kept ↔ outbounds[o.2]? = some o.1 ∧ IntactOf outbounds invalidTags o.2)
  (hnodup : ((prepareEach providerTag (kept.map Prod.fst) "").map PreparedOutbound.tag).Nodup)

include hnodup in
theorem Runs.inj {j : Nat} (h : Runs kept providerTag i t) (h' : Runs kept providerTag j t) : i = j := by
  obtain ⟨k, source, hk, rfl⟩ := h
  obtain ⟨k', source', hk', htag⟩ := h'
  have hp := getElem?_prepareEach providerTag hk
  have hp' := getElem?_prepareEach providerTag hk'
  have hsame : k = k' := by
    refine (List.getElem?_inj ?_ hnodup).mp ?_
    · rw [length_map]
      exact (List.getElem?_eq_some_iff.mp hp).1
    · rw [List.getElem?_map, List.getElem?_map, hp, hp', Option.map_some, Option.map_some, htag]
  subst hsame
  cases hk.symm.trans hk'
  rfl

include hkept hnodup in
/-- A dependency that is left is the first outbound with its name. -/
theorem Runs.next (h : Runs kept providerTag i t)
    (ht : t' ∈ internalDependencies (prepareEach providerTag (kept.map Prod.fst) "") t) :
    ∃ j, RestsOn (knownDependencies outbounds invalidTags) (firstIndex outbounds) i j ∧ Runs kept providerTag j t' := by
  obtain ⟨k, source, hk, rfl⟩ := h
  obtain ⟨ho, hintact⟩ := (hkept _).mp (mem_of_getElem? hk)
  have hp := preparedByTag_of_nodup hnodup (mem_of_getElem? (getElem?_prepareEach providerTag hk))
  obtain ⟨r, hr, hne, hd⟩ := mem_prepareOutbound_dependencies.mp ((mem_internalDependencies hp).mp ht).1
  obtain ⟨_, hmem, rfl⟩ := qualifiedTags_eq_some.mp hd
  rw [map_map] at hmem
  obtain ⟨o, ho', rfl⟩ := mem_map.mp hmem
  dsimp only [comp] at hr hne ⊢
  cases hj : firstIndex outbounds o.1.tag with
  | none =>
    have hno := (firstIndex_eq_none.mp hj).resolve_left hne
    exact absurd (mem_map_of_mem (mem_of_getElem? ((hkept o).mp ho').1)) hno
  | some j =>
    obtain ⟨hrests, hj'⟩ := (hintact.reference ho hr hne).2 j hj
    obtain ⟨_, target, htarget, htag⟩ := firstIndex_eq_some hj
    have hmem := (hkept (target, j)).mpr ⟨htarget, hj'⟩
    obtain ⟨k', hk'⟩ := mem_iff_getElem?.mp hmem
    refine ⟨j, hrests, k', target, hk', ?_⟩
    rw [← htag]
    exact runtimeTag_of_ne_empty (mem_map_of_mem hmem) (htag ▸ hne) k'

include hkept hnodup in
theorem sortOutbounds_of_intact :
    ∃ sorted, sortOutbounds (prepareEach providerTag (kept.map Prod.fst) "") = .ok sorted := by
  have hway : ∀ {t t'}, Relation.TransGen
      (DepthFirst.Edge (internalDependencies (prepareEach providerTag (kept.map Prod.fst) ""))) t t' → ∀ i,
      Runs kept providerTag i t → ∃ j, Relation.TransGen
        (RestsOn (knownDependencies outbounds invalidTags) (firstIndex outbounds)) i j ∧
          Runs kept providerTag j t' := by
    intro t t' hpath i hi
    induction hpath with
    | single hedge =>
      obtain ⟨j, hrests, hj⟩ := hi.next hkept hnodup hedge
      exact ⟨j, .single hrests, hj⟩
    | tail _ hedge ih =>
      obtain ⟨j, hij, hj⟩ := ih
      obtain ⟨j', hrests, hj'⟩ := hj.next hkept hnodup hedge
      exact ⟨j', hij.tail hrests, hj'⟩
  have hacyclic : DepthFirst.Acyclic (internalDependencies (prepareEach providerTag (kept.map Prod.fst) "")) := by
    intro t hcycle
    -- what is on the cycle is left, and so on none
    obtain ⟨t', hedge, _⟩ := Relation.TransGen.head'_iff.mp hcycle
    have hsome : (preparedByTag (prepareEach providerTag (kept.map Prod.fst) "") t).isSome = true := by
      by_contra hnone
      rw [Bool.not_eq_true, Option.isSome_eq_false_iff, Option.isNone_iff_eq_none] at hnone
      simp [DepthFirst.Edge, internalDependencies, hnone] at hedge
    obtain ⟨p, hp, rfl⟩ := mem_map.mp ((preparedByTag_isSome t).mp hsome)
    obtain ⟨source, k, hsource, rfl⟩ := mem_prepareEach.mp hp
    rw [List.getElem?_map] at hsource
    obtain ⟨o, hk, rfl⟩ := Option.map_eq_some_iff.mp hsource
    have hi : Runs kept providerTag o.2 _ := ⟨k, o.1, hk, rfl⟩
    obtain ⟨j, hij, hj⟩ := hway hcycle o.2 hi
    rw [← hi.inj hnodup hj] at hij
    exact (((hkept o).mp (mem_of_getElem? hk)).2 o.2 .refl).2 hij
  obtain ⟨tags, htags⟩ := DepthFirst.sort_of_acyclic internalDependencies_closed hacyclic
  exact ⟨_, by rw [sortOutbounds, htags]⟩

end

/-- An outbound is kept if and only if nothing that it rests on depends on an invalid tag or is on a cycle, what is
kept and what is skipped stand in order, and what is kept can be sorted where its runtime tags are distinct. -/
theorem filterInvalidOutbounds_exact {outbounds kept skipped : List (Outbound δ ω)} {invalidTags : List String}
    (h : filterInvalidOutboundsWithSkipped outbounds invalidTags = (kept, skipped)) :
    ∃ keep : Nat → Bool, (∀ i, keep i = true ↔ Unbroken outbounds invalidTags i) ∧
      kept = (outbounds.zipIdx.filter fun o => keep o.2).map Prod.fst ∧
      skipped = (outbounds.zipIdx.filter fun o => !keep o.2).map Prod.fst ∧
      ∀ providerTag, ((prepareEach providerTag kept "").map PreparedOutbound.tag).Nodup →
        ∃ sorted, sortOutbounds (prepareEach providerTag kept "") = .ok sorted ∧
          Arranged (prepareEach providerTag kept "") sorted := by
  classical
  rw [filterInvalidOutboundsWithSkipped_eq] at h
  obtain ⟨rfl, rfl⟩ := Prod.mk.inj h
  refine ⟨fun i => IntactOf outbounds invalidTags i, fun i => decide_eq_true_iff.trans intactOf_iff, rfl, by simp,
    fun providerTag hnodup => ?_⟩
  have hkept : ∀ o, o ∈ outbounds.zipIdx.filter (fun o => IntactOf outbounds invalidTags o.2) ↔
      outbounds[o.2]? = some o.1 ∧ IntactOf outbounds invalidTags o.2 := by simp [mem_zipIdx_iff_getElem?]
  obtain ⟨sorted, hsorted⟩ := sortOutbounds_of_intact hkept hnodup
  exact ⟨sorted, hsorted, sortOutbounds_ok hsorted⟩

def through (tag detour : String) : Outbound Unit Unit := ⟨"vless", tag, ⟨some ⟨detour, ()⟩, none, ()⟩⟩

/-- A chain, one through an entry that was not imported, and one that goes round. -/
def chains : List (Outbound Unit Unit) :=
  [through "valid" "hop", through "hop" "", through "through-invalid" "broken", through "a" "b", through "b" "a"]

theorem filterInvalidOutbounds_exact_chains :
    Unbroken chains ["broken"] 0 ∧ ¬Unbroken chains ["broken"] 2 ∧ ¬Unbroken chains ["broken"] 3 ∧
    ∃ sorted, sortOutbounds (prepareEach "p" [through "valid" "hop", through "hop" ""] "") = .ok sorted ∧
      Arranged (prepareEach "p" [through "valid" "hop", through "hop" ""] "") sorted := by
  have hfilter : filterInvalidOutboundsWithSkipped chains ["broken"] =
      ([through "valid" "hop", through "hop" ""],
        [through "through-invalid" "broken", through "a" "b", through "b" "a"]) := by
    decide +kernel
  obtain ⟨keep, hkeep, hkept, hskipped, hsort⟩ := filterInvalidOutbounds_exact hfilter
  have hvalid : through "valid" "hop" ∈ (chains.zipIdx.filter fun o => keep o.2).map Prod.fst := hkept ▸ by simp
  have hbroken : through "through-invalid" "broken" ∈ (chains.zipIdx.filter fun o => !keep o.2).map Prod.fst :=
    hskipped ▸ by simp
  have hround : through "a" "b" ∈ (chains.zipIdx.filter fun o => !keep o.2).map Prod.fst := hskipped ▸ by simp
  simp [chains, through, zipIdx] at hvalid hbroken hround
  exact ⟨(hkeep 0).mp hvalid, (hkeep 2).not.mp (by simp [hbroken]), (hkeep 3).not.mp (by simp [hround]),
    hsort "p" (by decide +kernel)⟩

end SingBox.Provider
