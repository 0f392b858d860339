import SingBox.DomainSet.Build
import Mathlib.Data.List.Nodup

/-!
# The trie of sorted keys

A node stands for the rests of the keys below it; its children are these rests grouped by their
first byte. The walk over levels and the walk with a queue both write these nodes breadth first,
so they write the same arrays, and those accept the keys and nothing else.
-/
namespace SingBox.DomainSet

open Lib Lib.Succinct List

/-! ## Nodes as lists of rests -/

abbrev Keys := List (List UInt8)

/-- A rest in front of the groups of the rests behind it. -/
def addTo (c : UInt8) (rest : List UInt8) : List (UInt8 × Keys) → List (UInt8 × Keys)
  | [] => [(c, [rest])]
  | (d, group) :: groups => if c = d then (d, rest :: group) :: groups else (c, [rest]) :: (d, group) :: groups

/-- Rests with the same first byte that stand together. -/
def groups : Keys → List (UInt8 × Keys)
  | [] => []
  | [] :: keys => groups keys
  | (c :: rest) :: keys => addTo c rest (groups keys)

def ends : Keys → Bool
  | [] :: _ => true
  | _ => false

def kids (keys : Keys) : List Keys := (groups keys).map (·.2)

variable {keys : Keys} {c : UInt8}

variable {rest : List UInt8}

theorem mem_addTo {l : List (UInt8 × Keys)} {x : UInt8 × Keys} (h : x ∈ addTo c rest l) :
    x ∈ l ∨ x = (c, [rest]) ∨ ∃ group, (c, group) ∈ l ∧ x = (c, rest :: group) := by
  cases l with
  | nil => exact .inr (.inl (mem_singleton.mp h))
  | cons y l =>
    obtain ⟨d, group⟩ := y
    rw [addTo] at h
    split at h
    next hcd =>
      subst hcd
      rcases mem_cons.mp h with h | h
      · exact .inr (.inr ⟨group, mem_cons_self, h⟩)
      · exact .inl (mem_cons_of_mem _ h)
    · rcases mem_cons.mp h with h | h
      · exact .inr (.inl h)
      · exact .inl h

theorem mem_groups {group : Keys} (h : (c, group) ∈ groups keys) :
    group ≠ [] ∧ ∀ rest ∈ group, c :: rest ∈ keys := by
  induction keys generalizing c group with
  | nil => cases h
  | cons key keys ih =>
    cases key with
    | nil =>
      obtain ⟨hne, hmem⟩ := ih h
      exact ⟨hne, fun rest hrest => mem_cons_of_mem _ (hmem rest hrest)⟩
    | cons d rest =>
      rcases mem_addTo h with h | h | ⟨old, hold, h⟩
      · obtain ⟨hne, hmem⟩ := ih h
        exact ⟨hne, fun rest hrest => mem_cons_of_mem _ (hmem rest hrest)⟩
      · cases h
        refine ⟨cons_ne_nil _ _, fun r hr => ?_⟩
        rw [mem_singleton.mp hr]
        exact mem_cons_self
      · cases h
        refine ⟨cons_ne_nil _ _, fun r hr => ?_⟩
        rcases mem_cons.mp hr with rfl | hr
        · exact mem_cons_self
        · exact mem_cons_of_mem _ ((ih hold).2 r hr)

theorem exists_group (h : c :: rest ∈ keys) :
    ∃ group, (c, group) ∈ groups keys ∧ rest ∈ group := by
  induction keys with
  | nil => cases h
  | cons key keys ih =>
    have hkeep : ∀ (d : UInt8) (r : List UInt8) (group : Keys), (c, group) ∈ groups keys → rest ∈ group →
        ∃ group, (c, group) ∈ addTo d r (groups keys) ∧ rest ∈ group := by
      intro d r group hgroup hrest
      cases hgroups : groups keys with
      | nil =>
        rw [hgroups] at hgroup
        cases hgroup
      | cons y l =>
        obtain ⟨e, first⟩ := y
        rw [hgroups] at hgroup
        rw [addTo]
        split
        · rcases mem_cons.mp hgroup with heq | hgroup
          · cases heq
            exact ⟨_, mem_cons_self, mem_cons_of_mem _ hrest⟩
          · exact ⟨group, mem_cons_of_mem _ hgroup, hrest⟩
        · exact ⟨group, mem_cons_of_mem _ hgroup, hrest⟩
    rcases mem_cons.mp h with rfl | h
    · rw [groups]
      cases groups keys with
      | nil => exact ⟨[rest], mem_cons_self, mem_cons_self⟩
      | cons y l =>
        obtain ⟨e, first⟩ := y
        rw [addTo]
        split
        next hce =>
          subst hce
          exact ⟨rest :: first, mem_cons_self, mem_cons_self⟩
        · exact ⟨[rest], mem_cons_self, mem_cons_self⟩
    · obtain ⟨group, hgroup, hrest⟩ := ih h
      cases key with
      | nil => exact ⟨group, hgroup, hrest⟩
      | cons d r => exact hkeep d r group hgroup hrest

/-! ### Sorted keys -/

/-- Strictly increasing, byte by byte. -/
def Sorted (keys : Keys) : Prop := keys.Pairwise (· < ·)

instance (keys : Keys) : Decidable (Sorted keys) := inferInstanceAs (Decidable (keys.Pairwise (· < ·)))

theorem Sorted.nonempty_tail {key : List UInt8} (h : Sorted (key :: keys)) : ∀ k ∈ keys, k ≠ [] := by
  intro k hk hnil
  have hlt := rel_of_pairwise_cons h hk
  rw [hnil] at hlt
  exact not_lt_nil key hlt

/-- The groups of sorted keys have increasing labels and are sorted themselves. -/
theorem Sorted.groups (h : Sorted keys) :
    (groups keys).Pairwise (fun x y => x.1 < y.1) ∧ ∀ x ∈ groups keys, Sorted x.2 := by
  induction keys with
  | nil => exact ⟨.nil, nofun⟩
  | cons key keys ih =>
    obtain ⟨hlabels, hgroups⟩ := ih h.of_cons
    cases key with
    | nil => exact ⟨hlabels, hgroups⟩
    | cons c rest =>
      have hbehind : ∀ (d : UInt8) (group : Keys) (r : List UInt8), (d, group) ∈ DomainSet.groups keys → r ∈ group →
          c < d ∨ c = d ∧ rest < r := fun d group r hd hr =>
        cons_lt_cons_iff.mp (rel_of_pairwise_cons h ((mem_groups hd).2 r hr))
      rw [DomainSet.groups]
      cases hl : DomainSet.groups keys with
      | nil =>
        refine ⟨pairwise_singleton _ _, fun x hx => ?_⟩
        rw [mem_singleton.mp hx]
        exact pairwise_singleton _ _
      | cons y l =>
        obtain ⟨d, group⟩ := y
        rw [hl] at hlabels hgroups hbehind
        rw [addTo]
        by_cases hcd : c = d
        · rw [if_pos hcd]
          refine ⟨pairwise_cons.mpr (pairwise_cons.mp hlabels), fun x hx => ?_⟩
          rcases mem_cons.mp hx with rfl | hx
          · refine pairwise_cons.mpr ⟨fun r hr => ?_, hgroups _ mem_cons_self⟩
            rcases hbehind d group r mem_cons_self hr with hlt | ⟨_, hlt⟩
            · exact absurd (hcd ▸ hlt) (UInt8.lt_irrefl d)
            · exact hlt
          · exact hgroups x (mem_cons_of_mem _ hx)
        · rw [if_neg hcd]
          have hfirst : c < d := by
            have hmem : (d, group) ∈ DomainSet.groups keys := hl ▸ mem_cons_self
            obtain ⟨hne, -⟩ := mem_groups hmem
            obtain ⟨r, hr⟩ := exists_mem_of_ne_nil group hne
            rcases hbehind d group r mem_cons_self hr with hlt | ⟨heq, _⟩
            · exact hlt
            · exact absurd heq hcd
          refine ⟨pairwise_cons.mpr ⟨fun x hx => ?_, hlabels⟩, fun x hx => ?_⟩
          · rcases mem_cons.mp hx with rfl | hx
            · exact hfirst
            · exact UInt8.lt_trans hfirst (rel_of_pairwise_cons hlabels hx)
          · rcases mem_cons.mp hx with rfl | hx
            · exact pairwise_singleton _ _
            · exact hgroups x hx

theorem ends_iff (h : Sorted keys) : ends keys = true ↔ [] ∈ keys := by
  cases keys with
  | nil => simp [ends]
  | cons key keys =>
    cases key with
    | nil => simp [ends]
    | cons c rest =>
      have hnot : [] ∉ keys := fun hmem => h.nonempty_tail [] hmem rfl
      simp [ends, hnot]

theorem follow_iff (h : Sorted keys) (key : List UInt8) : follow ends groups keys key = true ↔ key ∈ keys := by
  induction key generalizing keys with
  | nil => exact ends_iff h
  | cons c key ih =>
    obtain ⟨hlabels, hgroups⟩ := h.groups
    rw [follow]
    cases hfind : (groups keys).find? (·.1 == c) with
    | none =>
      constructor
      · intro hfalse
        cases hfalse
      · intro hmem
        obtain ⟨group, hgroup, -⟩ := exists_group hmem
        exact absurd (beq_self_eq_true c) (List.find?_eq_none.mp hfind _ hgroup)
    | some x =>
      obtain ⟨d, group⟩ := x
      have hd : d = c := by simpa using List.find?_some hfind
      subst hd
      have hmem := mem_of_find?_eq_some hfind
      show follow ends groups group key = true ↔ _
      rw [ih (hgroups _ hmem)]
      constructor
      · exact (mem_groups hmem).2 key
      intro hkey
      -- Increasing labels: there is one group with this label.
      obtain ⟨other, hother, hin⟩ := exists_group hkey
      have hnodup : ((groups keys).map (·.1)).Nodup :=
        pairwise_map.mpr (hlabels.imp fun hlt => UInt8.ne_of_lt hlt)
      have heq : (d, other) = (d, group) := inj_on_of_nodup_map hnodup hother hmem rfl
      rw [← (Prod.mk.inj heq).2]
      exact hin

/-! ### The order of the nodes -/

/-- Behind as many levels as the longest key has bytes there is nothing. -/
theorem below_nil {level : List Keys} {n : Nat} (h : ∀ keys ∈ level, keys ≠ [] ∧ ∀ k ∈ keys, k.length < n) :
    below kids n level = [] := by
  induction n generalizing level with
  | zero =>
    refine eq_nil_iff_forall_not_mem.mpr fun keys hkeys => ?_
    obtain ⟨hne, hlt⟩ := h keys hkeys
    obtain ⟨k, hk⟩ := exists_mem_of_ne_nil keys hne
    exact absurd (hlt k hk) (Nat.not_lt_zero _)
  | succ n ih =>
    refine ih fun keys hkeys => ?_
    obtain ⟨above, habove, hmem⟩ := mem_flatMap.mp hkeys
    obtain ⟨⟨c, group⟩, hgroup, rfl⟩ := mem_map.mp hmem
    obtain ⟨hne, hrest⟩ := mem_groups hgroup
    exact ⟨hne, fun k hk => Nat.lt_of_succ_lt_succ ((h above habove).2 _ (hrest k hk))⟩

/-- As many levels as the longest key has bytes, and one. -/
def depth (keys : Keys) : Nat := (keys.map List.length).foldr max 0 + 1

theorem length_lt_depth {k : List UInt8} (h : k ∈ keys) : k.length < depth keys := by
  have hle : ∀ l : List Nat, ∀ n ∈ l, n ≤ l.foldr max 0 := by
    intro l
    induction l with
    | nil => nofun
    | cons m l ih =>
      intro n hn
      rcases mem_cons.mp hn with rfl | hn
      · exact Nat.le_max_left _ _
      · exact le_trans (ih n hn) (Nat.le_max_right _ _)
  exact Nat.lt_succ_of_le (hle _ _ (mem_map_of_mem h))

/-- The nodes of the trie, breadth first. -/
def order (keys : Keys) : List Keys := levels kids (depth keys) [keys]

theorem below_depth (hne : keys ≠ []) : below kids (depth keys) [keys] = [] := by
  refine below_nil fun level hlevel => ?_
  rw [mem_singleton.mp hlevel]
  exact ⟨hne, fun k hk => length_lt_depth hk⟩

def trieOf (keys : Keys) : Writer := ((order keys).map (entryOf ends groups)).foldl Writer.emit .empty

theorem accepts_trieOf (hne : keys ≠ []) (h : Sorted keys) (key : List UInt8) :
    (trieOf keys).accepts 0 key = true ↔ key ∈ keys := by
  have horder : order keys = keys :: (order keys).flatMap kids := levels_eq (below_depth hne)
  rw [trieOf, accepts_written horder, follow_iff h]

/-! ## Spans of keys -/

/-- The rests, behind `column` bytes, of the keys from `first` to `stop`. -/
structure Slice (keys : Keys) (first stop column : Nat) (rests : Keys) : Prop where
  eq : rests = ((keys.take stop).drop first).map (·.drop column)
  first_le : first ≤ stop
  stop_le : stop ≤ keys.length
  long : ∀ k ∈ (keys.take stop).drop first, column ≤ k.length

section
variable {keys rests : Keys} {first stop column : Nat}

theorem Slice.length (h : Slice keys first stop column rests) : rests.length = stop - first := by
  have := h.stop_le
  rw [h.eq, length_map, length_drop, length_take]
  omega

variable {rest : List UInt8} {back group : Keys}

theorem Slice.cons (h : Slice keys first stop column (rest :: rests)) :
    first < stop ∧ (∃ key, keys[first]? = some key ∧ key.drop column = rest ∧ column ≤ key.length) ∧
      Slice keys (first + 1) stop column rests := by
  have hlt : first < stop := by
    have := h.length
    rw [length_cons] at this
    omega
  have hget : first < (keys.take stop).length := by
    have := h.stop_le
    rw [length_take]
    omega
  have hkey : keys[first]? = some ((keys.take stop)[first]) := by
    rw [← List.getElem?_eq_getElem hget, List.getElem?_take, if_pos hlt]
  have heq := h.eq
  rw [drop_eq_getElem_cons hget, map_cons] at heq
  obtain ⟨hrest, hrests⟩ := List.cons.inj heq
  have hlong := h.long
  rw [drop_eq_getElem_cons hget] at hlong
  exact ⟨hlt, ⟨_, hkey, hrest.symm, hlong _ mem_cons_self⟩, hrests, hlt, h.stop_le,
    fun k hk => hlong k (mem_cons_of_mem _ hk)⟩

theorem Slice.lt_of_ne_nil (h : Slice keys first stop column rests) (hne : rests ≠ []) : first < stop := by
  have hlength := h.length
  have hpos := length_pos_iff.mpr hne
  omega

theorem Slice.split {front : Keys} (h : Slice keys first stop column (front ++ back)) :
    Slice keys first (first + front.length) column front ∧ Slice keys (first + front.length) stop column back := by
  have hlength := h.length
  rw [length_append] at hlength
  have hle := h.first_le
  have hmid : first + front.length ≤ stop := by omega
  have hfront : (keys.take (first + front.length)).drop first = ((keys.take stop).drop first).take front.length := by
    rw [take_drop, take_take, Nat.min_eq_left (by omega)]
  have hback : (keys.take stop).drop (first + front.length) = ((keys.take stop).drop first).drop front.length := by
    rw [drop_drop]
  have heq := h.eq
  constructor
  · refine ⟨?_, by omega, le_trans hmid h.stop_le, fun k hk => ?_⟩
    · rw [hfront, map_take, ← heq, take_left]
    · rw [hfront] at hk
      exact h.long k (mem_of_mem_take hk)
  · refine ⟨?_, hmid, h.stop_le, fun k hk => ?_⟩
    · rw [hback, map_drop, ← heq, drop_left]
    · rw [hback] at hk
      exact h.long k (mem_of_mem_drop hk)

variable {c : UInt8}

/-- Rests with the same first byte, behind that byte. -/
theorem Slice.child (h : Slice keys first stop column (group.map (c :: ·))) :
    Slice keys first stop (column + 1) group := by
  have heq := h.eq
  refine ⟨?_, h.first_le, h.stop_le, fun k hk => ?_⟩
  · have htail := congrArg (List.map List.tail) heq
    rw [map_map, map_map] at htail
    have hleft : (List.tail ∘ fun rest : List UInt8 => c :: rest) = id := rfl
    have hright : (List.tail ∘ fun key : List UInt8 => key.drop column) = fun key => key.drop (column + 1) := by
      funext key
      simp
    rw [hleft, map_id, hright] at htail
    exact htail
  · have hmem : k.drop column ∈ group.map (c :: ·) := by
      rw [heq]
      exact mem_map_of_mem hk
    obtain ⟨rest, -, hrest⟩ := mem_map.mp hmem
    have hlength := congrArg List.length hrest
    rw [length_cons, length_drop] at hlength
    omega

theorem Slice.byteAt (h : Slice keys first stop column ((c :: rest) :: rests)) :
    byteAt keys first column = .ok c := by
  obtain ⟨-, ⟨key, hkey, hdrop, -⟩, -⟩ := h.cons
  have hbyte : key[column]? = some c := by
    rw [← Nat.add_zero column, ← List.getElem?_drop, hdrop]
    rfl
  simp only [DomainSet.byteAt, index, hkey, hbyte]

/-- The loop over the keys with the same byte ends behind all of them. -/
theorem sameByte_slice {from₀ : Int} (hfirst : byteAt keys from₀ column = .ok c)
    (h : Slice keys first stop column rests) (hne : ∀ k ∈ rests, k ≠ []) :
    ∃ group back : Keys, rests = group.map (c :: ·) ++ back ∧ (∀ d rest, back.head? = some (d :: rest) → d ≠ c) ∧
      sameByte keys stop column from₀ first = .ok ((first + group.length : Nat) : Int) := by
  induction rests generalizing first with
  | nil =>
    have hlength := h.length
    have hle := h.first_le
    rw [length_nil] at hlength
    refine ⟨[], [], rfl, nofun, ?_⟩
    rw [sameByte, if_neg (by omega)]
    rfl
  | cons key rests ih =>
    obtain ⟨hlt, -, hnext⟩ := h.cons
    cases key with
    | nil => exact absurd rfl (hne [] mem_cons_self)
    | cons d rest =>
      rw [sameByte, if_pos (by omega)]
      simp only [h.byteAt, hfirst]
      by_cases hdc : d = c
      · obtain ⟨group, back, heq, hback, hsame⟩ := ih hnext fun k hk => hne k (mem_cons_of_mem _ hk)
        refine ⟨rest :: group, back, by rw [heq, hdc]; rfl, hback, ?_⟩
        rw [if_pos hdc]
        have hcast : ((first : Int) + 1) = ((first + 1 : Nat) : Int) := rfl
        rw [hcast, hsame, length_cons]
        congr 2
        omega
      · refine ⟨[], (d :: rest) :: rests, rfl, fun e r he => ?_, ?_⟩
        · cases he
          exact hdc
        · rw [if_neg hdc]
          rfl

/-- A run of rests with the same byte makes a group. -/
theorem groups_run (hne : group ≠ []) (hback : ∀ d rest, back.head? = some (d :: rest) → d ≠ c)
    (hends : ∀ k ∈ back, k ≠ []) : groups (group.map (c :: ·) ++ back) = (c, group) :: groups back := by
  have hone : ∀ rest, addTo c rest (groups back) = (c, [rest]) :: groups back := by
    intro rest
    cases back with
    | nil => rfl
    | cons key back =>
      cases key with
      | nil => exact absurd rfl (hends [] mem_cons_self)
      | cons d r =>
        have hcd : c ≠ d := fun h => hback d r rfl h.symm
        rw [groups]
        cases groups back with
        | nil => simp [addTo, hcd]
        | cons y l =>
          obtain ⟨e, g⟩ := y
          by_cases hde : d = e
          · simp [addTo, hde, hde ▸ hcd]
          · simp [addTo, hde, hcd]
  induction group with
  | nil => exact absurd rfl hne
  | cons rest group ih =>
    rw [map_cons, cons_append, groups]
    cases group with
    | nil => exact hone rest
    | cons rest' group =>
      rw [ih (cons_ne_nil _ _), addTo, if_pos rfl]

/-- A child as the loop finds it. -/
structure Child where
  first : Nat
  last : Nat
  label : UInt8

/-- The child stands for a group. -/
structure Found (keys : Keys) (column : Nat) (c : Child) (g : UInt8 × Keys) : Prop where
  label : c.label = g.1
  nonempty : g.2 ≠ []
  slice : Slice keys c.first c.last (column + 1) g.2

theorem eachChild_slice {σ : Type} (body : σ → Int → Int → UInt8 → σ) (h : Slice keys first stop column rests)
    (hne : ∀ k ∈ rests, k ≠ []) (s : σ) :
    ∃ found : List Child,
      eachChild keys stop column body first s = .ok (found.foldl (fun s c => body s c.first c.last c.label) s) ∧
      List.Forall₂ (Found keys column) found (groups rests) := by
  induction hlen : rests.length using Nat.strongRecOn generalizing first rests s with
  | ind n ih =>
    rw [eachChild]
    cases rests with
    | nil =>
      have hlength := h.length
      have hle := h.first_le
      rw [length_nil] at hlength
      rw [dif_neg (by omega)]
      exact ⟨[], rfl, .nil⟩
    | cons key rests =>
      obtain ⟨hlt, -, -⟩ := h.cons
      cases key with
      | nil => exact absurd rfl (hne [] mem_cons_self)
      | cons c rest =>
        have hbyte := h.byteAt
        obtain ⟨group, back, heq, hback, hsame⟩ := sameByte_slice hbyte h hne
        have hgroup : group ≠ [] := by
          rintro rfl
          rw [map_nil, nil_append] at heq
          exact hback c rest (by rw [← heq]; rfl) rfl
        have hends : ∀ k ∈ back, k ≠ [] := fun k hk => hne k (by rw [heq]; exact mem_append_right _ hk)
        rw [heq] at h
        obtain ⟨hfront, hbehind⟩ := h.split
        rw [length_map] at hfront hbehind
        have hshorter : back.length < n := by
          have hlength := congrArg List.length heq
          rw [hlen, length_append, length_map] at hlength
          have := length_pos_iff.mpr hgroup
          omega
        obtain ⟨found, heach, hfound⟩ := ih back.length hshorter hbehind hends
          (body s first ((first + group.length : Nat) : Int) c) rfl
        refine ⟨⟨first, first + group.length, c⟩ :: found, ?_, ?_⟩
        · rw [dif_pos (by omega)]
          split
          next herr =>
            rw [hsame] at herr
            cases herr
          next last hlast =>
            rw [hsame] at hlast
            cases hlast
            simp only [hbyte, heach, foldl_cons]
        · rw [heq, groups_run hgroup hback hends]
          exact .cons ⟨rfl, hgroup, hfront.child⟩ hfound

end

/-! ## The walks -/

/-- The span stands for a node. -/
def Stands (keys : Keys) (item : Span) (node : Keys) : Prop :=
  node ≠ [] ∧ ∃ first stop column : Nat, item = ⟨first, stop, column⟩ ∧ Slice keys first stop column node

/-- The spans of the children. -/
def spansOf (column : Nat) (found : List Child) : List Span := found.map fun c => ⟨c.first, c.last, (column + 1 : Nat)⟩

/-- What `child` does for the children of a node: their labels, their spans, and no one in the bitmap. -/
def Appends (keys : Keys) (child : Int → Walk → Int → Int → UInt8 → Walk) : Prop :=
  ∀ (column : Nat) (found : List Child) (gs : List (UInt8 × Keys)) (w : Walk),
    List.Forall₂ (Found keys column) found gs →
    ∃ bitmap, setBit bitmap (w.bit + found.length) = setBit w.labelBitmap (w.bit + found.length) ∧
      found.foldl (fun w c => child column w c.first c.last c.label) w =
        ⟨⟨⟨w.leaves, bitmap, w.labels ++ found.map (·.label)⟩, w.bit + found.length, w.node⟩,
          w.next ++ spansOf column found⟩

variable {keys : Keys} {n column : Nat} {nodes : List Keys}

variable {found : List Child} {gs : List (UInt8 × Keys)} {node : Keys} {level : List Span} {key : List UInt8}

theorem found_labels (h : List.Forall₂ (Found keys column) found gs) :
    found.map (·.label) = gs.map (·.1) := by
  induction h with
  | nil => rfl
  | cons hc _ ih => rw [map_cons, map_cons, hc.label, ih]

theorem found_stands (h : List.Forall₂ (Found keys column) found gs) :
    List.Forall₂ (Stands keys) (spansOf column found) (gs.map (·.2)) := by
  induction h with
  | nil => exact .nil
  | cons hc _ ih => exact .cons ⟨hc.nonempty, _, _, _, rfl, hc.slice⟩ ih

/-- Both walks write a node the same way and find its children. -/
theorem visit_stands {item : Span} {child : Int → Walk → Int → Int → UInt8 → Walk} (hchild : Appends keys child)
    (hstands : Stands keys item node) (hsorted : Sorted node) (w : Walk) :
    ∃ items, visit child keys item w = .ok ⟨w.toWriter.emit (entryOf ends groups node), w.next ++ items⟩ ∧
      List.Forall₂ (Stands keys) items (kids node) := by
  obtain ⟨hne, first, stop, column, rfl, hslice⟩ := hstands
  cases node with
  | nil => exact absurd rfl hne
  | cons rest rests =>
    obtain ⟨hlt, ⟨key, hkey, hdrop, hlong⟩, hnext⟩ := hslice.cons
    have hindex : index keys (first : Int) = .ok key := by simp only [index, hkey]
    -- The keys whose children the loop visits: all, or all but the one that ends here.
    have hloop : ∃ (start : Nat) (w' : Walk) (visited : Keys),
        Slice keys start stop column visited ∧ (∀ k ∈ visited, k ≠ []) ∧
        groups visited = groups (rest :: rests) ∧
        w' = ⟨⟨⟨if ends (rest :: rests) then setBit w.leaves w.node else w.leaves, w.labelBitmap, w.labels⟩, w.bit,
          w.node⟩, w.next⟩ ∧
        (if (column : Int) = (key.length : Int) then ((first : Int) + 1, { w with leaves := setBit w.leaves w.node })
          else (↑first, w)) =
          ((start : Int), w') := by
      have htail := hsorted.nonempty_tail
      cases rest with
      | nil =>
        have hcolumn : column = key.length := le_antisymm hlong (drop_eq_nil_iff.mp hdrop)
        refine ⟨first + 1, _, rests, hnext, htail, rfl, rfl, ?_⟩
        rw [if_pos (by rw [hcolumn])]
        rfl
      | cons c rest =>
        have hcolumn : column ≠ key.length := by
          rintro rfl
          rw [drop_length] at hdrop
          cases hdrop
        refine ⟨first, _, _, hslice, fun k hk => ?_, rfl, rfl, ?_⟩
        · rcases mem_cons.mp hk with rfl | hk
          · exact cons_ne_nil _ _
          · exact htail k hk
        · rw [if_neg (by omega)]
          rfl
    obtain ⟨start, w', visited, hvisited, hfull, hgroups, rfl, hif⟩ := hloop
    obtain ⟨found, heach, hfound⟩ := eachChild_slice (child column) hvisited hfull
      (⟨⟨⟨if ends (rest :: rests) then setBit w.leaves w.node else w.leaves, w.labelBitmap, w.labels⟩, w.bit, w.node⟩,
        w.next⟩ : Walk)
    rw [hgroups] at hfound
    obtain ⟨bitmap, hbitmap, hfold⟩ := hchild column found _ _ hfound
    have hlabels := found_labels hfound
    have hlength : found.length = (groups (rest :: rests)).length := hfound.length_eq
    refine ⟨spansOf column found, ?_, found_stands hfound⟩
    rw [hfold] at heach
    simp only [hlength] at heach hbitmap
    simp only [visit, hindex, hif, heach, hbitmap, hlabels, Writer.emit, entryOf, length_map]
    rfl

/-! ### A level at a time -/

theorem int32_of_lt (h : n < 2 ^ 31) : int32 n = n := by
  rw [int32, Int.bmod_eq_of_le]
  · omega
  · omega

/-- The spans fit into 32-bit numbers. -/
structure Fits (keys : Keys) : Prop where
  count : keys.length < 2 ^ 31
  lengths : ∀ key ∈ keys, key.length < 2 ^ 31

theorem Found.fits (hfits : Fits keys) {c : Child} {g : UInt8 × Keys} (h : Found keys column c g) :
    int32 c.first = c.first ∧ int32 c.last = c.last ∧ int32 ((column : Int) + 1) = ((column + 1 : Nat) : Int) := by
  have hlt := h.slice.lt_of_ne_nil h.nonempty
  have hle := h.slice.stop_le
  have hcount := hfits.count
  have hcolumn : column + 1 < 2 ^ 31 := by
    have hpos : ((keys.take c.last).drop c.first) ≠ [] := by
      intro hnil
      have heq := h.slice.eq
      rw [hnil] at heq
      exact h.nonempty heq
    obtain ⟨key, hkey⟩ := exists_mem_of_ne_nil _ hpos
    have hlong := h.slice.long key hkey
    have hlength := hfits.lengths key (mem_of_mem_take (mem_of_mem_drop hkey))
    omega
  exact ⟨int32_of_lt (by omega), int32_of_lt (by omega), int32_of_lt hcolumn⟩

theorem buildChild_appends (hfits : Fits keys) : Appends keys buildChild := by
  intro column found gs w hfound
  refine ⟨w.labelBitmap, rfl, ?_⟩
  induction hfound generalizing w with
  | nil => simp [spansOf]
  | cons hc _ ih =>
    obtain ⟨hfirst, hlast, hcolumn⟩ := hc.fits hfits
    rw [foldl_cons, ih]
    simp [buildChild, spansOf, hfirst, hlast, hcolumn]
    omega

theorem queueChild_appends (keys : Keys) : Appends keys queueChild := by
  intro column found gs w hfound
  induction hfound generalizing w with
  | nil => exact ⟨w.labelBitmap, rfl, by simp [spansOf]⟩
  | cons hc _ ih =>
    rename_i c g found gs _
    obtain ⟨bitmap, hbitmap, hfold⟩ := ih (queueChild column w c.first c.last c.label)
    have hbit : (queueChild column w c.first c.last c.label).bit + found.length = w.bit + (c :: found).length := by
      simp only [queueChild, length_cons]
      omega
    rw [hbit] at hbitmap hfold
    refine ⟨bitmap, ?_, ?_⟩
    · rw [hbitmap]
      exact setBit_extend w.labelBitmap (Nat.le_add_right _ _)
    · rw [foldl_cons, hfold]
      simp [queueChild, spansOf]

/-- What the nodes of a list write. -/
def emitAll (w : Writer) (nodes : List Keys) : Writer := (nodes.map (entryOf ends groups)).foldl Writer.emit w

theorem visitLevel_stands (hfits : Fits keys) (h : List.Forall₂ (Stands keys) level nodes)
    (hsorted : ∀ node ∈ nodes, Sorted node) (w : Walk) :
    ∃ items, visitLevel keys level w = .ok ⟨emitAll w.toWriter nodes, w.next ++ items⟩ ∧
      List.Forall₂ (Stands keys) items (nodes.flatMap kids) := by
  induction h generalizing w with
  | nil => exact ⟨[], by simp [visitLevel, emitAll], .nil⟩
  | cons hitem _ ih =>
    rename_i item node level nodes _
    obtain ⟨items, hvisit, hitems⟩ := visit_stands (buildChild_appends hfits) hitem (hsorted node mem_cons_self) w
    obtain ⟨more, hlevel, hmore⟩ := ih (fun n hn => hsorted n (mem_cons_of_mem _ hn))
      ⟨w.toWriter.emit (entryOf ends groups node), w.next ++ items⟩
    refine ⟨items ++ more, ?_, ?_⟩
    · rw [visitLevel, hvisit]
      simp only [hlevel, append_assoc, emitAll, map_cons, foldl_cons]
    · rw [flatMap_cons]
      exact rel_append hitems hmore

theorem sorted_kids (h : Sorted node) : ∀ kid ∈ kids node, Sorted kid := by
  intro kid hkid
  obtain ⟨g, hg, rfl⟩ := mem_map.mp hkid
  exact h.groups.2 g hg

theorem sorted_below (h : ∀ node ∈ nodes, Sorted node) : ∀ node ∈ nodes.flatMap kids, Sorted node := by
  intro node hnode
  obtain ⟨above, habove, hkid⟩ := mem_flatMap.mp hnode
  exact sorted_kids (h above habove) node hkid

theorem emitAll_append (w : Writer) (front back : List Keys) :
    emitAll w (front ++ back) = emitAll (emitAll w front) back := by
  rw [emitAll, map_append, foldl_append]
  rfl

theorem levels_nil {ν : Type} (children : ν → List ν) (n : Nat) : levels children n [] = [] := by
  induction n with
  | zero => rfl
  | succ n ih => rw [levels, flatMap_nil, ih, append_nil]

/-- The walk over levels writes the nodes of all levels. -/
theorem walkLevels_stands (hfits : Fits keys) {rounds : Nat} (hrounds : n ≤ rounds)
    (h : List.Forall₂ (Stands keys) level nodes) (hsorted : ∀ node ∈ nodes, Sorted node)
    (hbelow : below kids n nodes = []) (w : Writer) :
    walkLevels keys rounds level w = .ok (emitAll w (levels kids n nodes)) := by
  induction n generalizing rounds level nodes w with
  | zero =>
    have hnil : nodes = [] := hbelow
    subst hnil
    cases h
    cases rounds with
    | zero | succ => rfl
  | succ n ih =>
    cases rounds with
    | zero => exact absurd hrounds (Nat.not_succ_le_zero n)
    | succ rounds =>
      cases level with
      | nil =>
        cases h
        rw [levels_nil]
        rfl
      | cons item level =>
        obtain ⟨items, hlevel, hitems⟩ := visitLevel_stands hfits h hsorted { w with next := [] }
        rw [walkLevels]
        · simp only [hlevel, nil_append]
          rw [ih (Nat.le_of_succ_le_succ hrounds) hitems (sorted_below hsorted) hbelow, levels, emitAll_append]
        · exact cons_ne_nil _ _

/-! ### All nodes in a queue -/

/-- The queue goes over the nodes at its front and has their children behind the others then. -/
theorem walkQueue_front {front : List Span} (back : List Span) (h : List.Forall₂ (Stands keys) front nodes)
    (hsorted : ∀ node ∈ nodes, Sorted node) (w : Writer) :
    ∃ items, List.Forall₂ (Stands keys) items (nodes.flatMap kids) ∧ ∀ rounds,
      walkQueue keys (rounds + front.length) ⟨w, front ++ back⟩ =
        walkQueue keys rounds ⟨emitAll w nodes, back ++ items⟩ := by
  induction h generalizing w back with
  | nil => exact ⟨[], .nil, fun rounds => by simp [emitAll]⟩
  | cons hitem _ ih =>
    rename_i item node front nodes _
    obtain ⟨items, hvisit, hitems⟩ := visit_stands (queueChild_appends keys) hitem (hsorted node mem_cons_self)
      ⟨w, front ++ back⟩
    obtain ⟨more, hmore, hwalk⟩ := ih (back ++ items) (fun n hn => hsorted n (mem_cons_of_mem _ hn))
      (w.emit (entryOf ends groups node))
    refine ⟨items ++ more, rel_append hitems hmore, fun rounds => ?_⟩
    rw [length_cons, ← Nat.add_assoc, cons_append, walkQueue, hvisit]
    simp only [append_assoc, hwalk rounds]
    rfl

theorem walkQueue_stands {queue : List Span} (h : List.Forall₂ (Stands keys) queue nodes)
    (hsorted : ∀ node ∈ nodes, Sorted node) (hbelow : below kids n nodes = []) (w : Writer) :
    ∃ enough, ∀ rounds, walkQueue keys (rounds + enough) ⟨w, queue⟩ = .ok (emitAll w (levels kids n nodes)) := by
  induction n generalizing queue nodes w with
  | zero =>
    have hnil : nodes = [] := hbelow
    subst hnil
    cases h
    refine ⟨0, fun rounds => ?_⟩
    rw [walkQueue]
    simp [emitAll, levels]
  | succ n ih =>
    obtain ⟨items, hitems, hwalk⟩ := walkQueue_front [] h hsorted w
    obtain ⟨enough, hrest⟩ := ih hitems (sorted_below hsorted) hbelow (emitAll w nodes)
    refine ⟨enough + queue.length, fun rounds => ?_⟩
    have hstep := hwalk (rounds + enough)
    rw [append_nil, nil_append] at hstep
    rw [← Nat.add_assoc, hstep, hrest rounds, levels, emitAll_append]

/-! ## The result -/

/-- Both walks give the same trie, and it accepts the keys. -/
def Encodes (keys : Keys) : Prop :=
  ∃ t : Trie, (∃ n, ∀ rounds ≥ n, build rounds keys = .ok (content t)) ∧
    (∃ n, ∀ rounds ≥ n, newSuccinctSet rounds keys = .ok t) ∧ ∀ key, t.accepts 0 key = true ↔ key ∈ keys

theorem root_stands (hne : keys ≠ []) : Stands keys ⟨0, keys.length, 0⟩ keys := by
  refine ⟨hne, 0, keys.length, 0, rfl, ?_, Nat.zero_le _, le_refl _, fun _ _ => Nat.zero_le _⟩
  simp

theorem build_encodes {keys : Keys} (hne : keys ≠ []) (hsorted : Sorted keys) (hfits : Fits keys) : Encodes keys := by
  have hroot : List.Forall₂ (Stands keys) [⟨0, keys.length, 0⟩] [keys] := .cons (root_stands hne) .nil
  have hnodes : ∀ node ∈ [keys], Sorted node := fun node hnode => mem_singleton.mp hnode ▸ hsorted
  have hbelow := below_depth hne
  refine ⟨(trieOf keys).toTrie, ⟨depth keys, fun rounds hrounds => ?_⟩, ?_, accepts_trieOf hne hsorted⟩
  · rw [build, int32_of_lt hfits.count, walkLevels_stands hfits hrounds hroot hnodes hbelow]
    rfl
  · obtain ⟨n, hn⟩ := walkQueue_stands hroot hnodes hbelow .empty
    refine ⟨n, fun rounds hrounds => ?_⟩
    obtain ⟨more, rfl⟩ := Nat.exists_eq_add_of_le' hrounds
    rw [newSuccinctSet, hn more]
    rfl

theorem prefix_keys_encoded : Encodes [[1], [1, 2], [2, 3]] :=
  build_encodes (by decide) (by decide) ⟨by decide, by decide⟩

/-! ### A key with too many bytes for the column -/

theorem visit_single (h : n < key.length) (w : Walk) :
    ∃ w', visit buildChild [key] ⟨0, 1, n⟩ w = .ok w' ∧ w'.next = w.next ++ [⟨0, 1, int32 ((n : Int) + 1)⟩] := by
  have hbyte : byteAt [key] 0 n = .ok key[n] := by
    have hget : key[n]? = some key[n] := List.getElem?_eq_getElem h
    simp only [byteAt, index, List.getElem?_cons_zero, hget]
  have hsame : sameByte [key] 1 n 0 0 = .ok 1 := by
    rw [sameByte]
    simp only [hbyte, if_true, Int.zero_lt_one, Int.zero_add]
    rw [sameByte, if_neg (Int.lt_irrefl 1)]
  have heach : eachChild [key] 1 n (buildChild n) 0 w = .ok (buildChild n w 0 1 key[n]) := by
    rw [eachChild, dif_pos Int.zero_lt_one]
    split
    next herr =>
      rw [hsame] at herr
      cases herr
    next last hlast =>
      rw [hsame] at hlast
      cases hlast
      simp only [hbyte]
      rw [eachChild, dif_neg (Int.lt_irrefl 1)]
  have hindex : index [key] 0 = .ok key := rfl
  have hcolumn : (n : Int) ≠ (key.length : Int) := by omega
  simp only [visit, hindex, if_neg hcolumn, heach]
  exact ⟨_, rfl, rfl⟩

theorem visit_wrapped (key : List UInt8) (n : Nat) (w : Walk) :
    visit buildChild [key] ⟨0, 1, .negSucc n⟩ w = .error .indexOutOfRange := by
  have hbyte : byteAt [key] 0 (.negSucc n) = .error .indexOutOfRange := rfl
  have hsame : sameByte [key] 1 (.negSucc n) 0 0 = .error .indexOutOfRange := by
    rw [sameByte]
    simp only [hbyte, Int.zero_lt_one, if_true]
  have heach : eachChild [key] 1 (.negSucc n) (buildChild (.negSucc n)) 0 w = .error .indexOutOfRange := by
    rw [eachChild, dif_pos Int.zero_lt_one]
    split
    next herr =>
      rw [hsame] at herr
      cases herr
      rfl
    next hlast =>
      rw [hsame] at hlast
      cases hlast
  have hindex : index [key] 0 = .ok key := rfl
  have hcolumn : Int.negSucc n ≠ (key.length : Int) := nofun
  simp only [visit, hindex, if_neg hcolumn, heach]

/-- A key of 2³¹ bytes or more: the column becomes negative. -/
theorem walkLevels_long (h : 2 ^ 31 ≤ key.length) {d : Nat} (hn : n + d + 1 = 2 ^ 31) (rounds : Nat) (w : Writer) :
    walkLevels [key] (rounds + d + 2) [⟨0, 1, n⟩] w = .error .indexOutOfRange := by
  induction d generalizing n w with
  | zero =>
    obtain ⟨w', hvisit, hnext⟩ := visit_single (by omega : n < key.length) { w with next := [] }
    have hcolumn : int32 ((n : Int) + 1) = .negSucc (2 ^ 31 - 1) := by
      have : (n : Int) + 1 = 2 ^ 31 := by omega
      rw [this]
      decide
    rw [hcolumn, nil_append] at hnext
    simp only [walkLevels, visitLevel, hvisit, hnext, visit_wrapped]
  | succ d ih =>
    obtain ⟨w', hvisit, hnext⟩ := visit_single (by omega : n < key.length) { w with next := [] }
    have hcolumn : int32 ((n : Int) + 1) = ((n + 1 : Nat) : Int) := int32_of_lt (by omega : n + 1 < 2 ^ 31)
    rw [hcolumn, nil_append] at hnext
    have hrest := ih (by omega : n + 1 + d + 1 = 2 ^ 31) w'.toWriter
    have hrounds : rounds + (d + 1) + 2 = rounds + d + 2 + 1 := by omega
    rw [hrounds, walkLevels]
    · simp only [visitLevel, hvisit, hnext, hrest]
    · exact cons_ne_nil _ _

/-- One such key is a strictly increasing list. -/
theorem long_key_not_encoded : ∃ keys : Keys, keys ≠ [] ∧ Sorted keys ∧ ¬Encodes keys := by
  refine ⟨[List.replicate (2 ^ 31) 97], cons_ne_nil _ _, pairwise_singleton _ _, ?_⟩
  rintro ⟨t, ⟨n, hbuild⟩, -⟩
  have hok := hbuild (n + (2 ^ 31 - 1) + 2) (by omega)
  have hlong : 2 ^ 31 ≤ (List.replicate (2 ^ 31) (97 : UInt8)).length := by rw [length_replicate]
  have herr := walkLevels_long hlong (by omega : 0 + (2 ^ 31 - 1) + 1 = 2 ^ 31) n .empty
  have hroot : int32 (([List.replicate (2 ^ 31) (97 : UInt8)].length : Nat) : Int) = 1 := by
    rw [length_singleton]
    decide
  rw [build, hroot] at hok
  rw [show ((0 : Nat) : Int) = 0 from rfl] at herr
  rw [herr] at hok
  cases hok

end SingBox.DomainSet
