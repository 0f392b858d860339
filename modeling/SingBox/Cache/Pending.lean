import SingBox.Cache.File
import SingBox.Lib.Text

/-!
# No pending save is lost or overtaken

As long as the cache is not cleared under a flusher that has read its entry, a key has one
flusher while it has a pending entry, and that flusher leaves the row of the last value
behind. Where a clear comes between, a flusher from before it goes on: it writes a row that
was cleared, or it takes an entry from after the clear for its own.
-/
namespace SingBox.Cache

open SingBox.Lib Function Option File

variable {β : Type}

/-- No save fails. -/
def Label.saves : Label β → Bool
  | .flush _ fails => !fails
  | _ => true

/-- The flusher has an entry in hand. -/
def Flusher.holds : Flusher β → Bool
  | .saving _ | .comparing _ => true
  | _ => false

/-- No flusher of the key holds an entry when `ClearDNSCache` begins, and nothing is queued for the key
before that is done and the flusher whose entry was cleared has returned. -/
def File.quiet (k : SaveCacheKey) (c : File β) : Label β → Bool
  | .clearPending => !c.flushers.any fun f => f.1 == k && f.2.holds
  | .queue k' _ => k' != k || c.clearing == 0 && ((c.saveDNSCache k).isSome || !c.flushing k)
  | _ => true

/-- The saves queued for a key. -/
def queued (k : SaveCacheKey) (past : List (File β × Label β)) : Nat :=
  past.countP fun e => match e.2 with
    | .queue k' _ => k' == k
    | _ => false

/-- A flusher is not ahead of the entry, and the row is the entry's once it was saved. -/
def Flusher.Follows (row : Option (Value β)) (entry : Entry β) : Flusher β → Prop
  | .saving read => read.sequence ≤ entry.sequence ∧ (read.sequence = entry.sequence → read.value = entry.value)
  | .comparing read => read.sequence ≤ entry.sequence ∧ (read.sequence = entry.sequence → row = some entry.value.stored)
  | _ => True

/-- Flusher `i` is one of the key's and stands at `f`. -/
def File.Runs (c : File β) (k : SaveCacheKey) (i : Nat) (f : Flusher β) : Prop :=
  c.flushers[i]? = some (k, f) ∧ f.running = true

/-- What holds of a key in every state. -/
structure Kept (database : Database β) (k : SaveCacheKey) (past : List (File β × Label β)) (c : File β) : Prop where
  single : ∀ i j f g, c.Runs k i f → c.Runs k j g → i = j
  entry : ∀ e, c.saveDNSCache k = some e → e.saving = true ∧ c.clearing = 0 ∧ e.sequence.toNat ≤ queued k past ∧
    expected database k past = some e.value.stored ∧ ∃ i f, c.Runs k i f
  flusher : ∀ i f, c.Runs k i f →
    (∃ e, c.saveDNSCache k = some e ∧ f.Follows (c.loadRow k) e) ∨ c.saveDNSCache k = none ∧ f = .reading
  row : c.saveDNSCache k = none → c.clearing = 0 → c.loadRow k = expected database k past
  cleared : c.clearing ≠ 0 → expected database k past = none

section
variable {database : Database β} {k k' : SaveCacheKey} {past past' : List (File β × Label β)} {c c' : File β}

theorem rowKey_inj (h : k.transportName = k'.transportName) (hrow : k.rowKey = k'.rowKey) : k = k' := by
  obtain ⟨t, q, n⟩ := k
  obtain ⟨t', q', n'⟩ := k'
  simp only [SaveCacheKey.rowKey, List.cons.injEq] at h hrow
  obtain ⟨hhigh, hlow, hq⟩ := hrow
  have hn : n = n' := uint16_ext hhigh hlow
  rw [h, hq, hn]

theorem loadRow_saveRow (v : Value β) : (c.saveRow k v).loadRow k = some v.stored := by
  simp [loadRow, saveRow]

theorem loadRow_saveRow_ne (v : Value β) (h : k' ≠ k) : (c.saveRow k' v).loadRow k = c.loadRow k := by
  unfold loadRow saveRow
  dsimp only
  by_cases ht : k.transportName = k'.transportName
  · rw [← ht, update_self, update_of_ne]
    exact fun hrow => h (rowKey_inj ht hrow).symm
  · rw [update_of_ne ht]

theorem runs_append (hne : k' ≠ k) (i : Nat) (f : Flusher β) :
    ((c.flushers ++ [(k', .reading)])[i]? = some (k, f) ∧ f.running = true) ↔ c.Runs k i f := by
  unfold File.Runs
  rw [List.getElem?_append]
  split
  · rfl
  next hi =>
    rw [List.getElem?_eq_none (Nat.le_of_not_lt hi)]
    cases i - c.flushers.length <;> simp [hne]

variable {i : Nat} {f : Flusher β} {fails : Bool}

/-- A step of flusher `i` of the key: the others stand where they stood. -/
theorem runs_set (hi : c.flushers[i]? = some (k', f)) (f' : Flusher β) (j : Nat) (g : Flusher β) :
    ((c.flushers.set i (k', f'))[j]? = some (k, g) ∧ g.running = true) ↔
      (j ≠ i ∧ c.Runs k j g) ∨ (j = i ∧ k' = k ∧ f' = g ∧ g.running = true) := by
  have hlt := (List.getElem?_eq_some_iff.mp hi).1
  unfold File.Runs
  by_cases hj : j = i
  · subst hj
    simp [hlt, and_assoc]
  · simp [hj, List.getElem?_set_ne (Ne.symm hj)]

theorem not_runs (hidle : c.flushing k = false) (i : Nat) (f : Flusher β) : ¬ c.Runs k i f := by
  rintro ⟨hi, hrun⟩
  rw [flushing, List.any_eq_false] at hidle
  have := hidle (k, f) (List.mem_of_getElem? hi)
  simp [hrun] at this

/-- The key has an entry and one flusher, which is not ahead of it. -/
theorem Kept.of_entry {e : Entry β} (he : c.saveDNSCache k = some e) (hsaving : e.saving = true)
    (hclearing : c.clearing = 0) (hle : e.sequence.toNat ≤ queued k past)
    (hexpected : expected database k past = some e.value.stored)
    (hi : c.Runs k i f) (honly : ∀ j g, c.Runs k j g → j = i ∧ g = f) (hfollows : f.Follows (c.loadRow k) e) :
    Kept database k past c := by
  constructor
  · intro j l g g' hg hg'
    rw [(honly j g hg).1, (honly l g' hg').1]
  · intro e' he'
    cases some.inj (he.symm.trans he')
    exact ⟨hsaving, hclearing, hle, hexpected, i, f, hi⟩
  · intro j g hg
    rw [(honly j g hg).2]
    exact .inl ⟨e, he, hfollows⟩
  · intro hnone
    rw [he] at hnone
    cases hnone
  · exact fun hne => absurd hclearing hne

section
variable (h : Kept database k past c)
include h

theorem Kept.frame (hentry : c'.saveDNSCache k = c.saveDNSCache k)
    (hrow : c'.loadRow k = c.loadRow k) (hclearing : c'.clearing = c.clearing)
    (hruns : ∀ i f, c'.Runs k i f ↔ c.Runs k i f) (hqueued : queued k past' = queued k past)
    (hexpected : expected database k past' = expected database k past) : Kept database k past' c' := by
  constructor
  · exact fun i j f g hf hg => h.single i j f g ((hruns i f).mp hf) ((hruns j g).mp hg)
  · intro e he
    obtain ⟨hsaving, hzero, hle, hexp, i, f, hf⟩ := h.entry e (hentry ▸ he)
    exact ⟨hsaving, hclearing.trans hzero, hqueued ▸ hle, hexpected.trans hexp, i, f, (hruns i f).mpr hf⟩
  · intro i f hf
    rw [hrow, hentry]
    exact h.flusher i f ((hruns i f).mp hf)
  · rw [hentry, hclearing, hrow, hexpected]
    exact h.row
  · rw [hclearing, hexpected]
    exact h.cleared

theorem Kept.queue_other (hne : k' ≠ k) (v : Value β) :
    Kept database k ((c, .queue k' v) :: past) (c.queueDNSCacheSave k' v) := by
  refine h.frame ?_ rfl rfl (fun i f => ?_) ?_ ?_
  · simp [queueDNSCacheSave, update_of_ne hne.symm]
  · simp only [queueDNSCacheSave, File.Runs]
    split_ifs
    · rfl
    · exact runs_append hne i f
  · simp [queued, hne]
  · simp [expected, hne]

theorem Kept.clearPending (hquiet : c.quiet k .clearPending = true) :
    Kept database k ((c, .clearPending) :: past)
      { c with saveDNSCache := fun _ => none, clearing := c.clearing + 1 } := by
  refine ⟨h.single, fun e he => (nomatch he), fun i f hf => .inr ⟨rfl, ?_⟩, fun _ => nofun, fun _ => rfl⟩
  simp only [quiet, Bool.not_eq_true', List.any_eq_false] at hquiet
  have hholds := hquiet (k, f) (List.mem_of_getElem? hf.1)
  cases f with
  | reading => rfl
  | returned => cases hf.2
  | saving | comparing => simp [Flusher.holds] at hholds

/-- The entry is renewed under its flusher. -/
theorem Kept.renew {e : Entry β} (he : c.saveDNSCache k = some e) (v : Value β) (hcount : queued k past + 1 < 2 ^ 64) :
    Kept database k ((c, .queue k v) :: past)
      { c with saveDNSCache := update c.saveDNSCache k (some ⟨v, e.sequence + 1, true⟩) } := by
  obtain ⟨_, hclearing, hle, _, i, f, hf⟩ := h.entry e he
  have hqueued : queued k ((c, .queue k v) :: past) = queued k past + 1 := by simp [queued]
  have hnext : (e.sequence + 1).toNat = e.sequence.toNat + 1 := by
    rw [UInt64.toNat_add, UInt64.toNat_one]
    omega
  have hfollows : f.Follows (c.loadRow k) ⟨v, e.sequence + 1, true⟩ := by
    obtain ⟨e', he', hold⟩ := (h.flusher i f hf).resolve_right fun hnone => by simp [he] at hnone
    cases some.inj (he.symm.trans he')
    -- what the flusher has read is older than the new value
    have holder : ∀ read : Entry β, read.sequence ≤ e.sequence →
        read.sequence ≤ e.sequence + 1 ∧ read.sequence ≠ e.sequence + 1 := by
      intro read hread
      rw [UInt64.le_iff_toNat_le] at hread ⊢
      refine ⟨by omega, fun heq => ?_⟩
      have := congrArg UInt64.toNat heq
      omega
    cases f with
    | saving read | comparing read =>
      exact ⟨(holder read hold.1).1, fun heq => absurd heq (holder read hold.1).2⟩
    | reading | returned => trivial
  refine .of_entry (update_self ..) rfl hclearing (by dsimp only; omega) (by simp [expected]) hf
    (fun j g hg => ?_) hfollows
  have hj := h.single j i g f hg hf
  subst hj
  exact ⟨rfl, congrArg Prod.snd (some.inj (hg.1.symm.trans hf.1))⟩

omit h in
/-- A key without an entry and without a flusher gets both. -/
theorem Kept.enter (hclearing : c.clearing = 0) (hidle : c.flushing k = false) (v : Value β) :
    Kept database k ((c, .queue k v) :: past)
      { c with
        saveDNSCache := update c.saveDNSCache k (some ⟨v, 1, true⟩)
        flushers := c.flushers ++ [(k, .reading)] } := by
  refine .of_entry (i := c.flushers.length) (f := .reading) (update_self ..) rfl hclearing ?_ (by simp [expected])
    ⟨by simp, rfl⟩ ?_ trivial
  · simp [queued]
  · rintro j g ⟨hg, hrun⟩
    dsimp only at hg
    rw [List.getElem?_append] at hg
    split at hg
    · exact absurd ⟨hg, hrun⟩ (not_runs hidle j g)
    cases hj : j - c.flushers.length with
    | zero =>
      rw [hj] at hg
      cases hg
      exact ⟨by omega, rfl⟩
    | succ j => simp [hj] at hg

theorem Kept.queue (hclearing : c.clearing = 0) (hidle : (c.saveDNSCache k).isSome ∨ c.flushing k = false) (v : Value β)
    (hcount : queued k past + 1 < 2 ^ 64) :
    Kept database k ((c, .queue k v) :: past) (c.queueDNSCacheSave k v) := by
  cases he : c.saveDNSCache k with
  | some e => simpa [queueDNSCacheSave, he, (h.entry e he).1] using h.renew he v hcount
  | none =>
    have hflushing := hidle.resolve_left (by simp [he])
    simpa [queueDNSCacheSave, he] using Kept.enter hclearing hflushing v

theorem Kept.flush_other (hne : k' ≠ k) (hi : c.flushers[i]? = some (k', f))
    (hstep : c.flush i k' fails f = some c') :
    Kept database k ((c, .flush i fails) :: past) c' := by
  have hruns : ∀ f' j g, ((c.flushers.set i (k', f'))[j]? = some (k, g) ∧ g.running = true) ↔ c.Runs k j g := by
    intro f' j g
    rw [runs_set hi]
    constructor
    · rintro (⟨_, hg⟩ | ⟨_, heq, _⟩)
      · exact hg
      · exact absurd heq hne
    · intro hg
      refine .inl ⟨?_, hg⟩
      rintro rfl
      cases some.inj (hi.symm.trans hg.1)
      exact hne rfl
  cases f with
  | reading =>
    cases hstep
    exact h.frame rfl rfl rfl (hruns _) rfl rfl
  | saving e =>
    cases hstep
    refine h.frame ?_ ?_ ?_ (hruns _) rfl rfl
    · cases fails <;> rfl
    · cases fails
      · exact loadRow_saveRow_ne e.value hne
      · rfl
    · cases fails <;> rfl
  | comparing e =>
    simp only [flush] at hstep
    split at hstep
    · cases hstep
      exact h.frame rfl rfl rfl (hruns _) rfl rfl
    · split at hstep
      · cases hstep
        exact h.frame rfl rfl rfl (hruns _) rfl rfl
      · cases hstep
        exact h.frame (update_of_ne hne.symm _ _) rfl rfl (hruns _) rfl rfl
  | returned => cases hstep

/-- A step of the key's flusher that leaves the entry where it is. -/
theorem Kept.flush_on {f' : Flusher β} (hi : c.Runs k i f) (hf' : f'.running = true)
    {e : Entry β} (he : c.saveDNSCache k = some e) (db : Database β)
    (hfollows : f'.Follows (db k.transportName k.rowKey) e) :
    Kept database k ((c, .flush i fails) :: past)
      { c with database := db, flushers := c.flushers.set i (k, f') } := by
  obtain ⟨hsaving, hclearing, hle, hexpected, _⟩ := h.entry e he
  refine .of_entry he hsaving hclearing hle hexpected ((runs_set hi.1 f' i f').mpr (.inr ⟨rfl, rfl, rfl, hf'⟩))
    (fun j g hg => ?_) hfollows
  rcases (runs_set hi.1 f' j g).mp hg with ⟨hne, hj⟩ | ⟨heq, _, hg', _⟩
  · exact absurd (h.single j i g f hj hi) hne
  · exact ⟨heq, hg'.symm⟩

/-- The key's flusher returns, and there is no entry for it any more. -/
theorem Kept.flush_done (hi : c.Runs k i f) {entries : SaveCacheKey → Option (Entry β)} (hnone : entries k = none)
    (hrow : c.clearing = 0 → c.loadRow k = expected database k past) :
    Kept database k ((c, .flush i fails) :: past)
      { c with saveDNSCache := entries, flushers := c.flushers.set i (k, .returned) } := by
  have hidle : ∀ (j : Nat) (g : Flusher β),
      ¬((c.flushers.set i (k, .returned))[j]? = some (k, g) ∧ g.running = true) := by
    intro j g hg
    rcases (runs_set hi.1 .returned j g).mp hg with ⟨hne, hj⟩ | ⟨_, _, rfl, hreturned⟩
    · exact hne (h.single j i g _ hj hi)
    · cases hreturned
  refine ⟨fun j l g g' hg => absurd hg (hidle j g), fun e he => ?_, fun j g hg => absurd hg (hidle j g),
    fun _ => hrow, h.cleared⟩
  dsimp only at he
  rw [hnone] at he
  cases he

theorem Kept.flush (hi : c.flushers[i]? = some (k, f))
    (hstep : c.flush i k false f = some c') : Kept database k ((c, .flush i false) :: past) c' := by
  cases f with
  | reading =>
    have hrun : c.Runs k i .reading := ⟨hi, rfl⟩
    cases he : c.saveDNSCache k with
    | none =>
      simp only [flush, he] at hstep
      cases hstep
      exact h.flush_done hrun he (h.row he)
    | some e =>
      simp only [flush, he] at hstep
      cases hstep
      have hfollows : (Flusher.saving e).Follows (c.loadRow k) e := ⟨UInt64.le_refl _, fun _ => rfl⟩
      exact h.flush_on hrun rfl he c.database hfollows
  | saving read =>
    have hrun : c.Runs k i (.saving read) := ⟨hi, rfl⟩
    obtain ⟨e, he, hle, hsame⟩ := (h.flusher i _ hrun).resolve_right nofun
    cases hstep
    have hfollows : (Flusher.comparing read).Follows ((c.saveRow k read.value).loadRow k) e := by
      refine ⟨hle, fun heq => ?_⟩
      rw [loadRow_saveRow, hsame heq]
    exact h.flush_on hrun rfl he (c.saveRow k read.value).database hfollows
  | comparing read =>
    have hrun : c.Runs k i (.comparing read) := ⟨hi, rfl⟩
    obtain ⟨e, he, hle, hrow⟩ := (h.flusher i _ hrun).resolve_right nofun
    simp only [flush, he] at hstep
    split at hstep
    · cases hstep
      have hfollows : Flusher.reading.Follows (c.loadRow k) e := trivial
      exact h.flush_on hrun rfl he c.database hfollows
    next heq =>
      cases hstep
      refine h.flush_done hrun (update_self _ _ _) fun _ => ?_
      exact (hrow (Decidable.not_not.mp heq).symm).trans (h.entry e he).2.2.2.1.symm
  | returned => cases hstep

theorem Kept.clearDatabase (hclearing : c.clearing ≠ 0) :
    Kept database k ((c, .clearDatabase) :: past)
      { c with database := fun _ _ => none, clearing := c.clearing - 1 } := by
  have hexpected := h.cleared hclearing
  have hentry : c.saveDNSCache k = none := by
    cases he : c.saveDNSCache k with
    | none => rfl
    | some e => exact absurd (h.entry e he).2.1 hclearing
  refine ⟨h.single, fun e he => ?_, fun i f hf => .inr ⟨hentry, ?_⟩, fun _ _ => hexpected.symm, fun _ => hexpected⟩
  · dsimp only at he
    rw [hentry] at he
    cases he
  · obtain ⟨e, he, _⟩ | ⟨_, hreading⟩ := h.flusher i f hf
    · rw [hentry] at he
      cases he
    · exact hreading

theorem Kept.step {l : Label β} (hsaves : l.saves = true) (hquiet : c.quiet k l = true)
    (hcount : queued k ((c, l) :: past) < 2 ^ 64) (hstep : c.step l = some c') :
    Kept database k ((c, l) :: past) c' := by
  cases l with
  | queue k' v =>
    cases hstep
    by_cases hk : k' = k
    · subst hk
      simp only [quiet, bne_self_eq_false, Bool.false_or, Bool.and_eq_true, beq_iff_eq, Bool.or_eq_true,
        Bool.not_eq_true'] at hquiet
      exact h.queue hquiet.1 hquiet.2 v (by simpa [queued] using hcount)
    · exact h.queue_other hk v
  | flush i fails =>
    have hfails : fails = false := by simpa [Label.saves] using hsaves
    subst hfails
    simp only [File.step] at hstep
    split at hstep
    next k' f hi =>
      by_cases hk : k' = k
      · subst hk
        exact h.flush hi hstep
      · exact h.flush_other hk hi hstep
    · cases hstep
  | clearPending =>
    cases hstep
    exact h.clearPending hquiet
  | clearDatabase =>
    simp only [File.step] at hstep
    split at hstep
    · cases hstep
    next hclearing =>
      cases hstep
      exact h.clearDatabase hclearing

end

theorem kept_run (hrun : (machine database).Run past c)
    (hal : System.Along (fun (c : File β) l => l.saves = true ∧ c.quiet k l = true) past)
    (hcount : queued k past < 2 ^ 64) : Kept database k past c := by
  refine System.Run.invariant_past (I := fun past c => queued k past < 2 ^ 64 → Kept database k past c)
    ?_ ?_ hrun hal hcount
  · rintro c rfl _
    constructor
    · simp [File.start, File.Runs]
    · simp [File.start]
    · simp [File.start, File.Runs]
    · exact fun _ _ => rfl
    · exact fun hne => absurd rfl hne
  · intro past c c' l _ hkept hl hstep hbound
    exact (hkept (Nat.lt_of_le_of_lt (List.sublist_cons_self _ past).countP_le hbound)).step hl.1 hl.2 hbound hstep

end

/-- With no flusher running, the cache holds for a key the value queued last behind the last
clear, if no flusher of the key was at work on a cleared entry. -/
theorem load_eq_last_queued (database : Database β) (k : SaveCacheKey) (past : List (File β × Label β)) (c : File β)
    (hrun : (machine database).Run past c) (hsaves : System.Along (fun _ l => Label.saves l = true) past)
    (hquiet : System.Along (fun c l => c.quiet k l = true) past) (hcount : queued k past < 2 ^ 64)
    (hidle : c.flushing k = false) (hclearing : c.clearing = 0) :
    c.loadDNSCache k = expected database k past := by
  have hkept := kept_run hrun (fun e he => ⟨hsaves e he, hquiet e he⟩) hcount
  cases he : c.saveDNSCache k with
  | none => simpa only [loadDNSCache, he] using hkept.row he hclearing
  | some e =>
    obtain ⟨_, _, _, _, i, f, hf⟩ := hkept.entry e he
    exact absurd hf (not_runs hidle i f)

def emptyRun (ls : List (Label String)) : Option (File String) :=
  (machine fun _ _ => none).exec ls (.start fun _ _ => none)

theorem emptyRun_run {ls : List (Label String)} {c : File String} (h : emptyRun ls = some c) :
    (machine fun _ _ => none).Run ((machine fun _ _ => none).trace ls (.start fun _ _ => none) []) c :=
  System.run_exec (.start _ rfl) h

def sampleKey : SaveCacheKey := ⟨[115], [97, 46], 1⟩

/-- The flusher starts again for a value queued under it. -/
def queuedUnderFlusher : List (Label String) :=
  [.queue sampleKey ⟨"first", 1500000000⟩, .flush 0 false, .flush 0 false, .queue sampleKey ⟨"second", 2500000000⟩,
    .flush 0 false, .flush 0 false, .flush 0 false, .flush 0 false]

theorem load_eq_last_queued_sample :
    ∃ c, emptyRun queuedUnderFlusher = some c ∧ c.loadDNSCache sampleKey = some ⟨"second", 2000000000⟩ := by
  let c := (emptyRun queuedUnderFlusher).get (by decide +kernel)
  have hc : emptyRun queuedUnderFlusher = some c := (some_get _).symm
  refine ⟨c, hc, (load_eq_last_queued _ sampleKey _ c (emptyRun_run hc) ?_ ?_ ?_ ?_ ?_).trans ?_⟩
  · exact System.along_exec (by decide +kernel)
  · exact System.along_exec (by decide +kernel)
  · decide +kernel
  · decide +kernel
  · decide +kernel
  · decide +kernel

/-- The flusher has read the entry when the cache is cleared, and saves it behind that. -/
def clearedUnderFlusher : List (Label String) :=
  [.queue sampleKey ⟨"first", 1500000000⟩, .flush 0 false, .clearPending, .clearDatabase, .flush 0 false,
    .flush 0 false]

/-- The value is back although nothing was queued behind the clear. -/
theorem cleared_value_returns :
    ∃ past c, (machine fun _ _ => none).Run past c ∧ System.Along (fun _ l => Label.saves l = true) past ∧
      (∀ k, c.flushing k = false) ∧ c.clearing = 0 ∧ expected (fun _ _ => none) sampleKey past = none ∧
      c.loadDNSCache sampleKey = some ⟨"first", 1000000000⟩ := by
  let c := (emptyRun clearedUnderFlusher).get (by decide +kernel)
  have hc : emptyRun clearedUnderFlusher = some c := (some_get _).symm
  refine ⟨_, c, emptyRun_run hc, System.along_exec (by decide +kernel), fun k => ?_, ?_, ?_, ?_⟩
  · have hreturned : c.flushers.all (fun f => !f.2.running) = true := by decide +kernel
    rw [List.all_eq_true] at hreturned
    rw [flushing, List.any_eq_false]
    intro f hf
    have := hreturned f hf
    simp_all
  · decide +kernel
  · decide +kernel
  · decide +kernel

end SingBox.Cache
