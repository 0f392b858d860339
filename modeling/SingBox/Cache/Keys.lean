import SingBox.Cache.Transparent
import SingBox.Cache.Pending

/-!
# The keys of the persistent cache

The cache in memory is keyed by the whole `dnsCacheKey`. The cache file flattens it into
the name of a bucket and the key of a row, which keep everything apart but the class of
the question and the address of a client subnet that is not valid.
-/
namespace SingBox.Cache

open SingBox.Lib List DnsCacheKey Client

/-- A tag free of control characters. -/
def Clean (tag : Bytes) : Prop := ∀ x ∈ tag, 32 ≤ x.toNat

/-- The subnet of a key in the name of its bucket. -/
def DnsCacheKey.subnetText (k : DnsCacheKey) : Bytes :=
  if k.clientSubnet.isValid then 0 :: k.clientSubnet.string else []

def DnsCacheKey.environmentText (k : DnsCacheKey) : Bytes :=
  if k.environment ≠ 0 then 1 :: formatUint 36 k.environment.toNat else []

/-- The keys lead to one row. -/
structure SameRow (k k' : DnsCacheKey) : Prop where
  name : k.question.name = k'.question.name
  qtype : k.question.qtype = k'.question.qtype
  tag : k.transportTag = k'.transportTag
  subnet : k.clientSubnet.isValid = true ∨ k'.clientSubnet.isValid = true → k.clientSubnet = k'.clientSubnet
  environment : k.environment = k'.environment

section
variable {k k' : DnsCacheKey}

theorem subnetText_eq_iff : k.subnetText = k'.subnetText ↔
    (k.clientSubnet.isValid = true ∨ k'.clientSubnet.isValid = true → k.clientSubnet = k'.clientSubnet) := by
  unfold subnetText
  cases hv : k.clientSubnet.isValid with
  | true =>
    cases hv' : k'.clientSubnet.isValid with
    | true =>
      simp only [if_true, List.cons.injEq, true_and, true_or, forall_const]
      exact ⟨NetIP.Prefix.string_inj hv hv', fun h => congrArg _ h⟩
    | false =>
      simp only [if_true, Bool.false_eq_true, if_false, reduceCtorEq, true_or, forall_const, false_iff]
      rintro h
      rw [h, hv'] at hv
      cases hv
  | false =>
    cases hv' : k'.clientSubnet.isValid with
    | true =>
      simp only [if_true, Bool.false_eq_true, if_false, reduceCtorEq, or_true, forall_const, false_iff]
      rintro h
      rw [h, hv'] at hv
      cases hv
    | false => simp

theorem environmentText_eq_iff : k.environmentText = k'.environmentText ↔ k.environment = k'.environment := by
  constructor
  · intro h
    unfold environmentText at h
    split at h <;> split at h
    · rw [List.cons.injEq] at h
      exact UInt64.toNat_inj.mp (formatUint_inj (by decide) (by decide) h.2)
    · cases h
    · cases h
    · simp_all
  · intro h
    rw [environmentText, h, environmentText]

theorem persistentName_eq : k.persistentName = k.transportTag ++ (k.subnetText ++ k.environmentText) := by
  simp only [persistentName, subnetText, environmentText, append_assoc]

theorem persistentName_inj (h : Clean k.transportTag) (h' : Clean k'.transportTag)
    (heq : k.persistentName = k'.persistentName) :
    k.transportTag = k'.transportTag ∧ k.subnetText = k'.subnetText ∧ k.environmentText = k'.environmentText := by
  have hhead : ∀ {k : DnsCacheKey}, ∀ x ∈ (k.subnetText ++ k.environmentText).head?, ¬ 32 ≤ x.toNat := by
    intro k x hx
    unfold subnetText environmentText at hx
    split at hx <;> split at hx <;> simp at hx <;> subst hx <;> decide
  have hsubnet : ∀ {k : DnsCacheKey}, ∀ x ∈ k.subnetText, x ≠ 1 := by
    intro k x hx
    unfold subnetText at hx
    split at hx
    next hv =>
      rcases mem_cons.mp hx with rfl | hx
      · decide
      · have := NetIP.Prefix.mem_string hv x hx
        rintro rfl
        simp at this
    · cases hx
  have henv : ∀ {k : DnsCacheKey}, ∀ x ∈ k.environmentText.head?, ¬ x ≠ 1 := by
    intro k x hx
    unfold environmentText at hx
    split at hx <;> simp_all
  rw [persistentName_eq, persistentName_eq] at heq
  obtain ⟨htag, hrest⟩ := append_inj_of_all (p := fun x : UInt8 => 32 ≤ x.toNat) h h' hhead hhead heq
  exact ⟨htag, append_inj_of_all (p := fun x : UInt8 => x ≠ 1) hsubnet hsubnet henv henv hrest⟩

theorem saveKey_eq_iff (h : Clean k.transportTag) (h' : Clean k'.transportTag) :
    k.saveKey = k'.saveKey ↔ SameRow k k' := by
  rw [saveKey, saveKey, SaveCacheKey.mk.injEq]
  constructor
  · rintro ⟨hpersistent, hname, hqtype⟩
    obtain ⟨htag, hsubnet, henvironment⟩ := persistentName_inj h h' hpersistent
    exact ⟨hname, hqtype, htag, subnetText_eq_iff.mp hsubnet, environmentText_eq_iff.mp henvironment⟩
  · rintro ⟨hname, hqtype, htag, hsubnet, henvironment⟩
    refine ⟨?_, hname, hqtype⟩
    rw [persistentName_eq, persistentName_eq, htag, subnetText_eq_iff.mpr hsubnet,
      environmentText_eq_iff.mpr henvironment]

end

section
variable {β : Type}

def Label.isQueue : Label β → Bool
  | .queue .. => true
  | _ => false

/-- The file holds something for one key only. -/
structure Only (k : SaveCacheKey) (c : File β) : Prop where
  entry : ∀ k', k' ≠ k → c.saveDNSCache k' = none
  row : ∀ k', k' ≠ k → c.loadRow k' = none
  flusher : ∀ f ∈ c.flushers, f.1 = k

theorem only_queue (k : SaveCacheKey) (v : Value β) : Only k ((File.start fun _ _ => none).queueDNSCacheSave k v) := by
  refine ⟨fun k' hk => ?_, fun _ _ => rfl, fun f hf => ?_⟩
  · simp [File.queueDNSCacheSave, File.start, Function.update_of_ne hk]
  · simp only [File.queueDNSCacheSave, File.start, Bool.false_eq_true, if_false, nil_append,
      mem_singleton] at hf
    rw [hf]

variable {k : SaveCacheKey} {c c' : File β}

theorem Only.step (h : Only k c) {l : Label β} (hl : l.isQueue = false) (hstep : c.step l = some c') : Only k c' := by
  have hset : ∀ i f, ∀ g ∈ c.flushers.set i (k, f), g.1 = k := by
    intro i f g hg
    rcases mem_or_eq_of_mem_set hg with hg | rfl
    · exact h.flusher g hg
    · rfl
  cases l with
  | queue => cases hl
  | flush i fails =>
    simp only [File.step] at hstep
    split at hstep
    next k' f hi =>
      have hk : k' = k := h.flusher _ (mem_of_getElem? hi)
      subst hk
      cases f with
      | reading =>
        cases hstep
        exact ⟨h.entry, h.row, hset _ _⟩
      | saving e =>
        cases hstep
        cases fails with
        | true => exact ⟨h.entry, h.row, hset _ _⟩
        | false => exact ⟨h.entry, fun k'' hk => (loadRow_saveRow_ne e.value hk.symm).trans (h.row k'' hk), hset _ _⟩
      | comparing e =>
        simp only [File.flush] at hstep
        split at hstep
        · cases hstep
          exact ⟨h.entry, h.row, hset _ _⟩
        · split at hstep
          · cases hstep
            exact ⟨h.entry, h.row, hset _ _⟩
          · cases hstep
            exact ⟨fun k'' hk => (Function.update_of_ne hk _ _).trans (h.entry k'' hk), h.row, hset _ _⟩
      | returned => cases hstep
    · cases hstep
  | clearPending =>
    cases hstep
    exact ⟨fun _ _ => rfl, h.row, h.flusher⟩
  | clearDatabase =>
    simp only [File.step] at hstep
    split at hstep
    · cases hstep
    · cases hstep
      exact ⟨h.entry, fun _ _ => rfl, h.flusher⟩

theorem Only.exec (h : Only k c) {ls : List (Label β)} (hls : ∀ l ∈ ls, l.isQueue = false) {database : Database β}
    (hexec : (machine database).exec ls c = some c') :
    Only k c' := by
  induction ls generalizing c with
  | nil =>
    cases hexec
    exact h
  | cons l ls ih =>
    obtain ⟨hl, hrest⟩ := forall_mem_cons.mp hls
    obtain ⟨d, hd, hexec⟩ := Option.bind_eq_some_iff.mp hexec
    exact ih (h.step hl hd) hrest hexec

end

/-- A response stored for one key, and whatever flushing and clearing happens behind that: it is
returned for another key only if the two are equal, if and only if keys with one row do not differ
in the class of the question or in client subnets that are not valid. -/
theorem persistent_only_if_equal_iff {β : Type} (codec : Codec β) (c : Client β) (k₁ k₂ : DnsCacheKey) (message : Msg)
    (packed : β) (timeToLive : UInt32) (now : Int) (hclean₁ : Clean k₁.transportTag) (hclean₂ : Clean k₂.transportTag)
    (hpack : codec.pack message = some packed) (httl : timeToLive ≠ 0) :
    (∀ file ls file' later response,
        (storeCache codec { c with store := .persistent (File.start fun _ _ => none) } k₁ message timeToLive
          now).store = .persistent file →
        (∀ l ∈ ls, Label.isQueue l = false) → (machine fun _ _ => none).exec ls file = some file' →
        loadResponse codec { c with store := .persistent file' } k₂ later = some response → k₁ = k₂) ↔
      (SameRow k₁ k₂ → k₁.question.qclass = k₂.question.qclass ∧ k₁.clientSubnet = k₂.clientSubnet) := by
  let file₁ : File β :=
    (File.start fun _ _ => none).queueDNSCacheSave k₁.saveKey ⟨packed, now + second * timeToLive.toNat⟩
  have hstored : (storeCache codec { c with store := .persistent (File.start fun _ _ => none) } k₁ message
      timeToLive now).store = .persistent file₁ := by
    simp only [storeCache, httl, if_false, hpack, file₁]
  constructor
  · intro honly hrow
    have hkey : k₁.saveKey = k₂.saveKey := (saveKey_eq_iff hclean₁ hclean₂).mpr hrow
    -- the response is there right behind `storeCache`
    have hload : ∃ response,
        loadResponse codec { c with store := .persistent file₁ } k₂ now = some response := by
      have hfresh : ¬now > now + second * timeToLive.toNat := by
        have : (0 : Int) ≤ second * timeToLive.toNat := Int.mul_nonneg (by decide) (Int.natCast_nonneg _)
        omega
      simp only [loadResponse, File.loadDNSCache, file₁, File.queueDNSCacheSave, ← hkey, Function.update_self,
        codec.unpack_pack hpack, judgeExpiry, hfresh, if_false]
      split <;> exact ⟨_, rfl⟩
    obtain ⟨response, hresponse⟩ := hload
    have heq := honly _ [] _ now response hstored (forall_mem_nil _) rfl hresponse
    exact ⟨congrArg (fun k => k.question.qclass) heq, congrArg (fun k => k.clientSubnet) heq⟩
  · intro hcondition file ls file' later response hfile hls hexec hload
    rw [hstored] at hfile
    cases hfile
    have hall := (only_queue k₁.saveKey ⟨packed, now + second * timeToLive.toNat⟩).exec hls hexec
    have hkey : k₁.saveKey = k₂.saveKey := by
      by_contra hne
      have hnone : file'.loadDNSCache k₂.saveKey = none := by
        simp only [File.loadDNSCache, hall.entry _ (Ne.symm hne), hall.row _ (Ne.symm hne)]
      simp only [loadResponse, hnone] at hload
      cases hload
    have hrow := (saveKey_eq_iff hclean₁ hclean₂).mp hkey
    obtain ⟨hclass, hsubnet⟩ := hcondition hrow
    obtain ⟨⟨name, qtype, qclass⟩, tag, subnet, environment⟩ := k₁
    obtain ⟨⟨name', qtype', qclass'⟩, tag', subnet', environment'⟩ := k₂
    obtain ⟨hname, hqtype, htag, _, henvironment⟩ := hrow
    simp only at hname hqtype htag henvironment hclass hsubnet
    rw [hname, hqtype, htag, henvironment, hclass, hsubnet]

def sampleCacheKey (qclass : UInt16) : DnsCacheKey := ⟨⟨[97, 46], 1, qclass⟩, [115], .zero, 0⟩

/-- Requests of one class with different names stay apart. -/
theorem persistent_only_if_equal_iff_name :
    Clean (sampleCacheKey 1).transportTag ∧ ∀ file ls file' later response,
      (storeCache plainCodec { memoryClient with store := .persistent (File.start fun _ _ => none) }
        (sampleCacheKey 1) sampleResponse 300 0).store = .persistent file →
      (∀ l ∈ ls, Label.isQueue l = false) → (machine fun _ _ => none).exec ls file = some file' →
      loadResponse plainCodec { memoryClient with store := .persistent file' }
        ⟨⟨[98, 46], 1, 1⟩, [115], .zero, 0⟩ later = some response →
      sampleCacheKey 1 = ⟨⟨[98, 46], 1, 1⟩, [115], .zero, 0⟩ :=
  have hclean : Clean (sampleCacheKey 1).transportTag := by simp [Clean, sampleCacheKey]
  ⟨hclean, (persistent_only_if_equal_iff plainCodec memoryClient (sampleCacheKey 1) ⟨⟨[98, 46], 1, 1⟩, [115], .zero, 0⟩
    sampleResponse sampleResponse 300 0 hclean hclean rfl (by decide)).mpr fun hrow => absurd hrow.name (by decide)⟩

/-- A response of the class `IN` is returned for the class `CHAOS`. -/
theorem persistent_answers_other_class :
    ∃ file response,
      (storeCache plainCodec { memoryClient with store := .persistent (File.start fun _ _ => none) }
        (sampleCacheKey 1) sampleResponse 300 0).store = .persistent file ∧
      loadResponse plainCodec { memoryClient with store := .persistent file } (sampleCacheKey 3) 0 =
        some response ∧ sampleCacheKey 1 ≠ sampleCacheKey 3 := by
  refine ⟨_, (sampleResponse.normalizeTTL 300, false), rfl, ?_, by decide⟩
  decide +kernel

end SingBox.Cache
