import Mathlib.Logic.Relation
import Mathlib.Logic.Function.Basic
import Mathlib.Data.List.Basic

/-!
# Depth-first sorting

The vertices of a graph in an order in which every vertex comes behind those it has an
edge to. A vertex is marked while the search is below it, and meeting a marked vertex
again means a cycle. The search is bounded by fuel; with one unit for each vertex it
never runs out.
-/
namespace SingBox.Lib

open List Function

theorem countP_lt_countP {α : Type} {p q : α → Bool} {l : List α} (hle : ∀ x ∈ l, p x = true → q x = true) {a : α}
    (ha : a ∈ l) (hp : p a = false) (hq : q a = true) : l.countP p < l.countP q := by
  induction l with
  | nil => cases ha
  | cons b l ih =>
    obtain ⟨hb, hle⟩ := forall_mem_cons.mp hle
    have hmono := countP_mono_left hle
    rw [countP_cons, countP_cons]
    rcases mem_cons.mp ha with rfl | ha
    · simp only [hp, hq, Bool.false_eq_true, if_false, if_true]
      omega
    have hlt := ih hle ha
    by_cases hpb : p b = true
    · rw [if_pos hpb, if_pos (hb hpb)]
      omega
    · rw [if_neg hpb]
      omega

inductive Mark where
  | new
  | visiting
  | visited
  deriving DecidableEq

structure Search (α : Type) where
  mark : α → Mark
  order : List α

variable {α : Type}

namespace DepthFirst

/-- One after the other, up to the first error. -/
def visitAll {σ ε : Type} (visit : α → σ → Except ε σ) : List α → σ → Except ε σ
  | [], s => .ok s
  | v :: vs, s =>
    match visit v s with
    | .error e => .error e
    | .ok s => visitAll visit vs s

section
variable [DecidableEq α] (edges : α → List α)

def visit : Nat → α → Search α → Except α (Search α)
  | 0, v, _ => .error v
  | fuel + 1, v, s =>
    match s.mark v with
    | .visiting => .error v
    | .visited => .ok s
    | .new =>
      match visitAll (visit fuel) (edges v) { s with mark := update s.mark v .visiting } with
      | .error e => .error e
      | .ok s => .ok { mark := update s.mark v .visited, order := s.order ++ [v] }

/-- The order, or a vertex on a cycle. -/
def sort (vertices : List α) : Except α (List α) :=
  (visitAll (visit edges (vertices.length + 1)) vertices { mark := fun _ => .new, order := [] }).map Search.order

end

variable (edges : α → List α)

def Edge (v w : α) : Prop := w ∈ edges v

def Acyclic : Prop := ∀ v, ¬Relation.TransGen (Edge edges) v v

/-- Every vertex of the list comes behind those it has an edge to. -/
def Ordered (l : List α) : Prop := ∀ before v after, l = before ++ v :: after → ∀ w ∈ edges v, w ∈ before

variable {edges}

variable {s s' : Search α} {v : α}

theorem Ordered.concat {l : List α} (h : Ordered edges l) (hv : ∀ w ∈ edges v, w ∈ l) :
    Ordered edges (l ++ [v]) := by
  intro before x after heq w hw
  rcases eq_nil_or_concat after with rfl | ⟨after, y, rfl⟩
  · obtain ⟨rfl, hx⟩ := append_inj' heq rfl
    cases hx
    exact hv w hw
  · rw [concat_eq_append, ← cons_append, ← append_assoc] at heq
    exact h before x after (append_inj' heq rfl).1 w hw

variable (edges) in
/-- What has been put in order stands in order, and is what has been visited. -/
structure Sound (s : Search α) : Prop where
  nodup : s.order.Nodup
  visited : ∀ v, v ∈ s.order ↔ s.mark v = .visited
  ordered : Ordered edges s.order

theorem sound_empty : Sound edges { mark := fun _ => .new, order := [] } :=
  ⟨nodup_nil, fun v => by simp, fun before v after heq => by simp at heq⟩

/-- A search goes on: what is being visited is the same again behind a visit. -/
structure Extends (s s' : Search α) : Prop where
  order : s.order <+: s'.order
  visiting : ∀ v, s'.mark v = .visiting ↔ s.mark v = .visiting
  new : ∀ v, s'.mark v = .new → s.mark v = .new

theorem Extends.refl (s : Search α) : Extends s s := ⟨prefix_refl _, fun _ => .rfl, fun _ h => h⟩

theorem Extends.trans {t u : Search α} (h : Extends s t) (h' : Extends t u) : Extends s u :=
  ⟨h.order.trans h'.order, fun v => (h'.visiting v).trans (h.visiting v), fun v hv => h.new v (h'.new v hv)⟩

/-- What a visit that succeeds leaves behind. -/
structure Visited (edges : α → List α) (roots : List α) (s s' : Search α) : Prop where
  sound : Sound edges s'
  goes : Extends s s'
  found : ∀ v ∈ roots, v ∈ s'.order
  reached : ∀ x ∈ s'.order, x ∈ s.order ∨ ∃ v ∈ roots, Relation.ReflTransGen (Edge edges) v x

variable {f : α → Search α → Except α (Search α)} {vs : List α}

theorem visitAll_ok (hf : ∀ v ∈ vs, ∀ s s', Sound edges s → f v s = .ok s' → Visited edges [v] s s')
    (hs : Sound edges s) (h : visitAll f vs s = .ok s') : Visited edges vs s s' := by
  induction vs generalizing s with
  | nil =>
    cases h
    exact ⟨hs, .refl _, nofun, fun x hx => .inl hx⟩
  | cons v vs ih =>
    obtain ⟨hv, hvs⟩ := forall_mem_cons.mp hf
    unfold visitAll at h
    cases hfv : f v s with
    | error e =>
      rw [hfv] at h
      cases h
    | ok t =>
      rw [hfv] at h
      have hfirst := hv s t hs hfv
      have hrest := ih hvs hfirst.sound h
      refine ⟨hrest.sound, hfirst.goes.trans hrest.goes, ?_, fun x hx => ?_⟩
      · refine forall_mem_cons.mpr ⟨?_, hrest.found⟩
        exact hrest.goes.order.subset (hfirst.found v mem_cons_self)
      · rcases hrest.reached x hx with hx | ⟨w, hw, hreach⟩
        · rcases hfirst.reached x hx with hx | ⟨w, hw, hreach⟩
          · exact .inl hx
          · exact .inr ⟨w, mem_cons.mpr (.inl (mem_singleton.mp hw)), hreach⟩
        · exact .inr ⟨w, mem_cons_of_mem _ hw, hreach⟩

theorem visitAll_error {I : Search α → Prop} {e : α} (h : visitAll f vs s = .error e) (hs : I s)
    (hf : ∀ v ∈ vs, ∀ s s', I s → f v s = .ok s' → I s') :
    ∃ v ∈ vs, ∃ t, I t ∧ f v t = .error e := by
  induction vs generalizing s with
  | nil => cases h
  | cons v vs ih =>
    obtain ⟨hv, hvs⟩ := forall_mem_cons.mp hf
    unfold visitAll at h
    cases hfv : f v s with
    | error e' =>
      rw [hfv] at h
      cases h
      exact ⟨v, mem_cons_self, s, hs, hfv⟩
    | ok t =>
      rw [hfv] at h
      obtain ⟨w, hw, herr⟩ := ih h (hv s t hs hfv) hvs
      exact ⟨w, mem_cons_of_mem _ hw, herr⟩

/-- How many vertices have not been met. -/
def fresh (vertices : List α) (s : Search α) : Nat := vertices.countP fun v => decide (s.mark v = .new)

theorem Extends.fresh_le {vertices : List α} (h : Extends s s') : fresh vertices s' ≤ fresh vertices s :=
  countP_mono_left fun v _ hv => decide_eq_true (h.new v (of_decide_eq_true hv))

variable [DecidableEq α]

theorem Sound.enter (h : Sound edges s) (hv : s.mark v = .new) :
    Sound edges { s with mark := update s.mark v .visiting } := by
  refine ⟨h.nodup, fun x => ?_, h.ordered⟩
  rw [h.visited x]
  by_cases hx : x = v
  · subst hx
    simp [hv]
  · simp [hx]

theorem Sound.leave (h : Sound edges s) (hv : s.mark v = .visiting) (hedges : ∀ w ∈ edges v, w ∈ s.order) :
    Sound edges { mark := update s.mark v .visited, order := s.order ++ [v] } := by
  have hnew : v ∉ s.order := by
    rw [h.visited, hv]
    nofun
  refine ⟨?_, fun x => ?_, h.ordered.concat hedges⟩
  · rw [nodup_append]
    refine ⟨h.nodup, by simp, fun x hx y hy => ?_⟩
    rintro rfl
    exact hnew (mem_singleton.mp hy ▸ hx)
  · by_cases hx : x = v
    · simp [hx]
    · simp [hx, h.visited]

/-- Between entering a vertex and leaving it only others are visited. -/
theorem Extends.visit (hv : s.mark v = .new) (h : Extends { s with mark := update s.mark v .visiting } s') :
    Extends s { mark := update s'.mark v .visited, order := s'.order ++ [v] } := by
  refine ⟨h.order.trans (prefix_append _ _), fun x => ?_, fun x hx => ?_⟩
  · by_cases hx : x = v
    · subst hx
      simp [hv]
    · have := h.visiting x
      simpa [hx] using this
  · by_cases hxv : x = v
    · subst hxv
      exact hv
    · have := h.new x (by simpa [hxv] using hx)
      simpa [hxv] using this

theorem visit_ok {fuel : Nat} (hs : Sound edges s) (h : visit edges fuel v s = .ok s') :
    Visited edges [v] s s' := by
  induction fuel generalizing v s s' with
  | zero => cases h
  | succ fuel ih =>
    unfold visit at h
    cases hv : s.mark v with
    | visiting =>
      rw [hv] at h
      cases h
    | visited =>
      rw [hv] at h
      cases h
      refine ⟨hs, .refl s, ?_, fun x hx => .inl hx⟩
      simpa using (hs.visited v).mpr hv
    | new =>
      rw [hv] at h
      dsimp only at h
      cases hall : visitAll (visit edges fuel) (edges v) { s with mark := update s.mark v .visiting } with
      | error e =>
        rw [hall] at h
        cases h
      | ok t =>
        rw [hall] at h
        cases h
        have hbelow := visitAll_ok (fun w _ s s' hs h => ih hs h) (hs.enter hv) hall
        have hstill : t.mark v = .visiting := (hbelow.goes.visiting v).mpr (update_self ..)
        refine ⟨hbelow.sound.leave hstill hbelow.found, .visit hv hbelow.goes, by simp, fun x hx => ?_⟩
        rcases mem_append.mp hx with hx | hx
        · rcases hbelow.reached x hx with hx | ⟨w, hw, hreach⟩
          · exact .inl hx
          · exact .inr ⟨v, mem_singleton_self v, .head hw hreach⟩
        · exact .inr ⟨v, mem_singleton_self v, by rw [mem_singleton.mp hx]⟩

section
variable {vertices : List α} (hclosed : ∀ v ∈ vertices, ∀ w ∈ edges v, w ∈ vertices)

theorem fresh_enter {s : Search α} {v : α} (hmem : v ∈ vertices) (hv : s.mark v = .new) :
    fresh vertices { s with mark := update s.mark v .visiting } < fresh vertices s := by
  refine countP_lt_countP (fun x _ hx => ?_) hmem (by simp) (by simpa using hv)
  by_cases hxv : x = v
  · simpa [hxv] using hv
  · simpa [hxv] using hx

include hclosed in
/-- With fuel for the vertices not yet met, and from every vertex being visited a way to this one, only
a cycle makes a visit fail. -/
theorem visit_error {fuel : Nat} {v e : α} {s : Search α} (hs : Sound edges s) (hmem : v ∈ vertices)
    (hfuel : fresh vertices s < fuel) (hway : ∀ u, s.mark u = .visiting → Relation.TransGen (Edge edges) u v)
    (h : visit edges fuel v s = .error e) : Relation.TransGen (Edge edges) e e := by
  induction fuel generalizing v s with
  | zero => omega
  | succ fuel ih =>
    unfold visit at h
    cases hv : s.mark v with
    | visiting =>
      rw [hv] at h
      cases h
      exact hway _ hv
    | visited =>
      rw [hv] at h
      cases h
    | new =>
      rw [hv] at h
      dsimp only at h
      cases hall : visitAll (visit edges fuel) (edges v) { s with mark := update s.mark v .visiting } with
      | ok t =>
        rw [hall] at h
        cases h
      | error e' =>
        rw [hall] at h
        cases h
        -- the loop below the vertex fails in a state that extends the one it began with
        obtain ⟨w, hw, t, ⟨hsound, hext⟩, herr⟩ := visitAll_error
          (I := fun t => Sound edges t ∧ Extends { s with mark := update s.mark v .visiting } t)
          hall ⟨hs.enter hv, .refl _⟩ fun w _ t t' ht htt' =>
            ⟨(visit_ok ht.1 htt').sound, ht.2.trans (visit_ok ht.1 htt').goes⟩
        have hless : fresh vertices t < fuel := by
          have hle : fresh vertices t ≤ _ := hext.fresh_le
          have := fresh_enter hmem hv
          omega
        refine ih hsound (hclosed v hmem w hw) hless (fun u hu => ?_) herr
        have hu := (hext.visiting u).mp hu
        by_cases huv : u = v
        · subst huv
          exact .single hw
        · exact (hway u (by simpa [huv] using hu)).tail hw

variable {l : List α}

theorem sort_ok (h : sort edges vertices = .ok l) :
    l.Nodup ∧ Ordered edges l ∧ (∀ v ∈ vertices, v ∈ l) ∧
      ∀ x ∈ l, ∃ v ∈ vertices, Relation.ReflTransGen (Edge edges) v x := by
  unfold sort at h
  cases hall : visitAll (visit edges (vertices.length + 1)) vertices { mark := fun _ => .new, order := [] } with
  | error e =>
    rw [hall] at h
    cases h
  | ok s =>
    rw [hall] at h
    cases h
    have hs := visitAll_ok (fun v _ s s' hs h => visit_ok hs h) sound_empty hall
    refine ⟨hs.sound.nodup, hs.sound.ordered, hs.found, fun x hx => ?_⟩
    exact (hs.reached x hx).resolve_left nofun

include hclosed in
theorem mem_of_sort_ok (h : sort edges vertices = .ok l) {x : α} : x ∈ l ↔ x ∈ vertices := by
  obtain ⟨_, _, hall, hreach⟩ := sort_ok h
  refine ⟨fun hx => ?_, hall x⟩
  obtain ⟨v, hv, hpath⟩ := hreach x hx
  clear hx
  induction hpath with
  | refl => exact hv
  | tail _ hedge ih => exact hclosed _ ih _ hedge

include hclosed in
theorem visitAll_of_acyclic (h : Acyclic edges) :
    ∃ s, visitAll (visit edges (vertices.length + 1)) vertices { mark := fun _ => .new, order := [] } = .ok s := by
  cases hall : visitAll (visit edges (vertices.length + 1)) vertices { mark := fun _ => .new, order := [] } with
  | ok s => exact ⟨s, rfl⟩
  | error e =>
    obtain ⟨v, hv, t, ⟨hsound, hext⟩, herr⟩ := visitAll_error
      (I := fun t => Sound edges t ∧ Extends { mark := fun _ => .new, order := [] } t)
      hall ⟨sound_empty, .refl _⟩ fun w _ t t' ht htt' =>
        ⟨(visit_ok ht.1 htt').sound, ht.2.trans (visit_ok ht.1 htt').goes⟩
    have hfuel : fresh vertices t < vertices.length + 1 := Nat.lt_succ_of_le countP_le_length
    refine absurd (visit_error hclosed hsound hv hfuel (fun u hu => ?_) herr) (h e)
    cases (hext.visiting u).mp hu

include hclosed in
theorem sort_of_acyclic (h : Acyclic edges) : ∃ l, sort edges vertices = .ok l := by
  obtain ⟨s, hs⟩ := visitAll_of_acyclic hclosed h
  exact ⟨s.order, by rw [sort, hs]; rfl⟩

end

end DepthFirst
end SingBox.Lib
