import SingBox.RuleSet.Files

/-!
# The cache of a remote rule set

A rule set is fetched with the etag of what is in memory. On `304 Not Modified` the cached one is
read again and saved with the time and the URL of now. A save may fail before the file of the
content is replaced, or behind it.
-/
namespace SingBox.RuleSet

open Lib Lib.Wire Option

/-- A SHA-256 sum. -/
abbrev Digest := { bytes : List UInt8 // bytes.length = 32 }

/-- What a process is configured with: the rule set it fetches, the contents it can read, and the
content at the initial path. -/
structure Config where
  url : String
  accepts : Slice → Bool
  initial : Option Slice

/-- What a URL answered: a content with its etag, or that the one of the etag sent is current. -/
inductive Event where
  | served (url : String) (etag content : Slice) (time : Time)
  | notModified (url : String) (etag : Slice) (time : Time)
  deriving DecidableEq

/-- How `SaveRuleSet` ends: it fails with `n` bytes written or behind the rename, or succeeds. -/
inductive Outcome where
  | failed (n : Nat) (removed : Bool)
  | renamed
  | done

inductive Response where
  | failed
  | notModified
  | ok (content etag : Slice)

/-- `RemoteRuleSet`, with the cache file and what the URLs answered so far, the last first. `early` is
what was in the cache before it had hashes of URLs. -/
structure RemoteRuleSet where
  config : Config
  content : Option Slice
  lastUpdated : Option Time
  lastEtag : Slice
  disk : Disk
  log : List Event
  early : Option SavedBinary

inductive RemoteLabel where
  | restart (config : Config) (moved : Outcome)
  | fetch (time : Time) (response : Response) (outcome : Outcome)

open RemoteRuleSet

section
variable (sha256 : List UInt8 → Digest) (key : Key)

def urlHash (url : String) : Slice :=
  ⟨(sha256 url.toUTF8.toList).1, lt_of_eq_of_lt (sha256 url.toUTF8.toList).2 (by decide)⟩

def fileHash (bytes : List UInt8) : List UInt8 := (sha256 bytes).1

def Disk.saveRuleSet (d : Disk) (set : SavedBinary) : Outcome → Disk
  | .failed n false => d.write (fileHash sha256) key set n
  | .failed n true => (d.write (fileHash sha256) key set n).removeWriting (fileHash sha256) key
  | .renamed => (d.write (fileHash sha256) key set set.content.1.length).rename (fileHash sha256) key set
  | .done => ((d.write (fileHash sha256) key set set.content.1.length).rename (fileHash sha256) key set).commit key set

/-- The start of the cache file, with how the move of this rule set ends. -/
def Disk.start (d : Disk) (outcome : Outcome) : Disk :=
  let moved :=
    match (d.legacy.lookup key).map SavedBinary.unmarshalBinary with
    | some (.ok set) => d.saveRuleSet sha256 key set outcome
    | _ => d
  moved.pruneRuleSetFiles (fileHash sha256)

namespace RemoteRuleSet

/-- What `StartContext` finds in the cache and takes. -/
def restored (config : Config) (d : Disk) : Option SavedBinary :=
  (d.loadRuleSet (fileHash sha256) key).filter fun savedSet =>
    (savedSet.urlHash.1 = [] || savedSet.urlHash = urlHash sha256 config.url) && config.accepts savedSet.content

/-- `StartContext` up to the fetch that it makes where it found no content. -/
def startContext (config : Config) (d : Disk) (log : List Event) (early : Option SavedBinary) : RemoteRuleSet :=
  match restored sha256 key config d with
  | some savedSet => ⟨config, some savedSet.content, some savedSet.lastUpdated, savedSet.lastEtag, d, log, early⟩
  | none => ⟨config, config.initial.filter config.accepts, none, noBytes, d, log, early⟩

/-- `fetch`, answered at `time`. -/
def fetch (s : RemoteRuleSet) (time : Time) (outcome : Outcome) : Response → RemoteRuleSet
  | .failed => s
  | .notModified =>
    { s with
      lastUpdated := some time
      log := .notModified s.config.url s.lastEtag time :: s.log
      disk :=
        match s.disk.loadRuleSet (fileHash sha256) key with
        | none => s.disk
        | some saved =>
          let saved := { saved with lastUpdated := time, urlHash := urlHash sha256 s.config.url }
          s.disk.saveRuleSet sha256 key saved outcome }
  | .ok content etag =>
    let s := { s with log := .served s.config.url etag content time :: s.log }
    if s.config.accepts content then
      { s with
        content := some content
        lastUpdated := some time
        lastEtag := etag
        disk := s.disk.saveRuleSet sha256 key ⟨content, time, etag, urlHash sha256 s.config.url⟩ outcome }
    else s

def step (s : RemoteRuleSet) : RemoteLabel → RemoteRuleSet
  | .restart config moved => startContext sha256 key config (s.disk.start sha256 key moved) s.log s.early
  | .fetch time response outcome => s.fetch sha256 key time outcome response

end RemoteRuleSet

/-- A rule set over restarts; the cache has at first nothing, or a content without the hash of a URL. -/
def remoteRuleSets : System RemoteRuleSet RemoteLabel where
  init s := ∃ config d, d.records.lookup key = none ∧
    (∀ saved, d.loadRuleSet (fileHash sha256) key = some saved → saved.urlHash = noBytes) ∧
    s = startContext sha256 key config d [] (d.loadRuleSet (fileHash sha256) key)
  step s l := some (s.step sha256 key l)

/-- The URL answered, at this time, that the content with this etag is current: the only one it had
served with the etag until then. -/
def Confirmed (log : List Event) (url : String) (etag content : Slice) (time : Time) : Prop :=
  ∃ later earlier, log = later ++ .notModified url etag time :: earlier ∧ etag ≠ noBytes ∧
    (∃ t, .served url etag content t ∈ earlier) ∧
      ∀ content' t, .served url etag content' t ∈ earlier → content' = content

/-- A URL with the saved hash served the content with the saved etag, and served or confirmed it at
the saved time, which is in seconds. -/
def Backed (log : List Event) (saved : SavedBinary) : Prop :=
  ∃ url, urlHash sha256 url = saved.urlHash ∧ (∃ t, .served url saved.lastEtag saved.content t ∈ log) ∧
    ∃ t : Time, t.unix = saved.lastUpdated.unix ∧
      (.served url saved.lastEtag saved.content t ∈ log ∨ Confirmed log url saved.lastEtag saved.content t)

/-- What the cache holds is what its URL served, or is from before there were hashes of URLs. -/
def Genuine (log : List Event) (early : Option SavedBinary) (saved : SavedBinary) : Prop :=
  saved.urlHash = noBytes ∧ early = some saved ∨ Backed sha256 log saved

end

/-- The content that an answer of this URL has with this etag. -/
def Event.contentOf (url : String) (etag : Slice) : Event → Option Slice
  | .served url' etag' content _ => if url' = url ∧ etag' = etag then some content else none
  | .notModified .. => none

def Event.url : Event → String
  | .served url .. | .notModified url .. => url

/-- The cached rule set has the etag that is sent and the hash of the URL it is sent to. -/
def RemoteRuleSet.current (sha256 : List UInt8 → Digest) (s : RemoteRuleSet) (saved : SavedBinary) : Bool :=
  saved.lastEtag == s.lastEtag && s.lastEtag != noBytes && saved.urlHash == urlHash sha256 s.config.url

/-- No other URL has answered that has the hash of this one, and this one has served one content at most with the etag
that is sent. -/
def RemoteRuleSet.unambiguous (sha256 : List UInt8 → Digest) (s : RemoteRuleSet) : Bool :=
  let contents := s.log.filterMap (Event.contentOf s.config.url s.lastEtag)
  (s.log.all fun e => urlHash sha256 e.url != urlHash sha256 s.config.url || e.url == s.config.url) &&
    contents.all fun content => contents.all (content == ·)

/-- The file has this content, or the record gives another size. -/
def Disk.mayRename (sha256 : List UInt8 → Digest) (key : Key) (d : Disk) (content : Slice) : Bool :=
  d.file (fileHash sha256) key == some content ||
    match (d.records.lookup key).map parseRuleSetRecord with
    | some (.ok (_, size)) => size != content.1.length
    | _ => true

/-- `304 Not Modified` finds nothing in the cache, or a rule set of its etag and URL, and tells which content it is
about; and a save fails behind the rename only where the file had its content or the record gives another size. -/
def RemoteRuleSet.steady (sha256 : List UInt8 → Digest) (key : Key) (s : RemoteRuleSet) : RemoteLabel → Bool
  | .fetch _ .notModified _ =>
    (s.disk.loadRuleSet (fileHash sha256) key).all fun saved => s.current sha256 saved && s.unambiguous sha256
  | .fetch _ (.ok content _) .renamed => s.disk.mayRename sha256 key content
  | _ => true

section
variable {sha256 : List UInt8 → Digest} {key : Key} {d : Disk} {G E : SavedBinary → Prop} {set : SavedBinary}

/-- The record is one with `G`, and a file of its size has its content; the rule set of an earlier
version has `E`. -/
structure Honest (sha256 : List UInt8 → Digest) (key : Key) (d : Disk) (G E : SavedBinary → Prop) : Prop where
  legacy : ∀ setBinary, d.legacy.lookup key = some setBinary → d.records.lookup key = none ∧
    ∀ set, SavedBinary.unmarshalBinary setBinary = .ok set → E set
  record : ∀ record, d.records.lookup key = some record → ∃ set, G set.stored ∧ record = ruleSetRecord set ∧
    ∀ content, d.file (fileHash sha256) key = some content → content.1.length = set.content.1.length →
      content = set.content

theorem Honest.mono {G' : SavedBinary → Prop} (hs : Honest sha256 key d G E) (h : ∀ set, G set → G' set) :
    Honest sha256 key d G' E where
  legacy := hs.legacy
  record := by
    intro record hrecord
    obtain ⟨set, hset, hrest⟩ := hs.record record hrecord
    exact ⟨set, h _ hset, hrest⟩

variable {saved : SavedBinary}

section
variable (hs : Honest sha256 key d G E)
include hs

theorem Honest.loaded (hE : ∀ set, E set → G set) (h : d.loadRuleSet (fileHash sha256) key = some saved) :
    G saved := by
  rcases loadRuleSet_cases h with ⟨record, parsed, content, hrecord, hparse, hfile, rfl⟩ | ⟨setBinary, hlegacy, hun⟩
  · obtain ⟨set, hset, rfl, hcontent⟩ := hs.record record hrecord
    rw [parseRuleSetRecord_ruleSetRecord] at hparse
    obtain ⟨rfl, hlength⟩ := Prod.mk.inj (Except.ok.inj hparse)
    rw [hcontent content hfile hlength.symm]
    exact hset
  · exact hE saved ((hs.legacy setBinary hlegacy).2 saved hun)

theorem Honest.mayRename_loaded (h : d.loadRuleSet (fileHash sha256) key = some saved) :
    d.mayRename sha256 key saved.content := by
  rcases loadRuleSet_cases h with ⟨record, parsed, content, hrecord, hparse, hfile, rfl⟩ | ⟨setBinary, hlegacy, hun⟩
  · simp [Disk.mayRename, hfile]
  · simp [Disk.mayRename, (hs.legacy setBinary hlegacy).1]

/-- A save keeps the cache honest if the rule set it completes is, and if a failure behind the rename
shows. -/
theorem Honest.save {outcome : Outcome} (hdone : outcome = .done → G set.stored)
    (hrenamed : outcome = .renamed → d.mayRename sha256 key set.content) :
    Honest sha256 key (d.saveRuleSet sha256 key set outcome) G E := by
  rcases outcome with ⟨n, _ | _⟩ | _ | _
  · exact ⟨hs.legacy, (file_write (d := d) n).symm ▸ hs.record⟩
  · exact ⟨hs.legacy, (file_removeWriting.trans (file_write (d := d) n)).symm ▸ hs.record⟩
  · refine ⟨hs.legacy, fun record hrecord => ?_⟩
    obtain ⟨saved, hsaved, rfl, hfile⟩ := hs.record record hrecord
    refine ⟨saved, hsaved, rfl, fun content hcontent hlength => ?_⟩
    cases file_rename_self.symm.trans hcontent
    have hmay := hrenamed rfl
    simp only [Disk.mayRename, show d.records.lookup key = some (ruleSetRecord saved) from hrecord, map_some,
      parseRuleSetRecord_ruleSetRecord, Bool.or_eq_true, beq_iff_eq, bne_iff_ne] at hmay
    rcases hmay with hsame | hsize
    · exact hfile _ hsame hlength
    · exact absurd hlength.symm hsize
  · refine ⟨fun setBinary hlegacy => ?_, fun record hrecord => ?_⟩
    · exact absurd rfl (Table.lookup_erase_eq_some.mp hlegacy).1
    · rcases Table.lookup_insert_eq_some.mp hrecord with ⟨_, rfl⟩ | ⟨hne, _⟩
      · refine ⟨set, hdone rfl, rfl, fun content hcontent _ => ?_⟩
        cases file_rename_self.symm.trans hcontent
        rfl
      · exact absurd rfl hne

theorem Honest.prune :
    Honest sha256 key (d.pruneRuleSetFiles (fileHash sha256)) G E := by
  refine ⟨hs.legacy, fun record hrecord => ?_⟩
  have hpruned : (d.pruneRuleSetFiles (fileHash sha256)).file (fileHash sha256) key = d.file (fileHash sha256) key :=
    file_prune hrecord
  obtain ⟨set, hset, rfl, hfile⟩ := hs.record record hrecord
  exact ⟨set, hset, rfl, fun content hcontent => hfile content (hpruned.symm.trans hcontent)⟩

theorem Honest.start (hE : ∀ set, E set → G set) (outcome : Outcome) :
    Honest sha256 key (d.start sha256 key outcome) G E := by
  unfold Disk.start
  refine Honest.prune ?_
  cases hlegacy : d.legacy.lookup key with
  | none => exact hs
  | some setBinary =>
    obtain ⟨hnone, hearly⟩ := hs.legacy setBinary hlegacy
    cases hun : SavedBinary.unmarshalBinary setBinary with
    | error err =>
      simp only [map_some, hun]
      exact hs
    | ok set =>
      simp only [map_some, hun]
      refine hs.save (fun _ => ?_) (fun _ => by simp [Disk.mayRename, hnone])
      rw [unmarshalBinary_stored hun]
      exact hE set (hearly set hun)

end

variable {s s' : RemoteRuleSet} {log : List Event}

variable {url : String} {etag content : Slice} {time : Time} {early : Option SavedBinary}

theorem Confirmed.later (h : Confirmed log url etag content time) (e : Event) :
    Confirmed (e :: log) url etag content time := by
  obtain ⟨later, earlier, rfl, hrest⟩ := h
  exact ⟨e :: later, earlier, rfl, hrest⟩

theorem Backed.later (h : Backed sha256 log saved) (e : Event) :
    Backed sha256 (e :: log) saved := by
  obtain ⟨url, hurl, ⟨t, ht⟩, now, hnow, hserved⟩ := h
  refine ⟨url, hurl, ⟨t, List.mem_cons_of_mem _ ht⟩, now, hnow, ?_⟩
  rcases hserved with hserved | hconfirmed
  · exact .inl (List.mem_cons_of_mem _ hserved)
  · exact .inr (hconfirmed.later e)

theorem Genuine.later (h : Genuine sha256 log early saved) (e : Event) :
    Genuine sha256 (e :: log) early saved := by
  rcases h with h | h
  · exact .inl h
  · exact .inr (h.later e)

/-- The cache of the rule set is honest about what its URLs served. -/
def RemoteRuleSet.Honest (sha256 : List UInt8 → Digest) (key : Key) (s : RemoteRuleSet) : Prop :=
  RuleSet.Honest sha256 key s.disk (Genuine sha256 s.log s.early) fun set =>
    set.urlHash = noBytes ∧ s.early = some set

theorem contentOf_eq_some {e : Event} :
    e.contentOf url etag = some content ↔ ∃ t, e = .served url etag content t := by
  cases e with
  | notModified url' etag' t => simp [Event.contentOf]
  | served url' etag' content' t => simp [Event.contentOf, and_assoc]

theorem urlHash_ne_noBytes (sha256 : List UInt8 → Digest) (url : String) : urlHash sha256 url ≠ noBytes := by
  intro h
  have hlength := (sha256 url.toUTF8.toList).2
  rw [show (sha256 url.toUTF8.toList).1 = [] from congrArg Subtype.val h] at hlength
  cases hlength

/-- What is cached with the hash of the URL was served by it, so that a `304` to its etag confirms it. -/
theorem Genuine.confirmed (h : Genuine sha256 s.log s.early saved) (hcurrent : s.current sha256 saved)
    (hone : s.unambiguous sha256) (time : Time) :
    (∃ t, .served s.config.url saved.lastEtag saved.content t ∈ s.log) ∧
      Confirmed (.notModified s.config.url s.lastEtag time :: s.log) s.config.url saved.lastEtag saved.content
        time := by
  simp only [current, Bool.and_eq_true, beq_iff_eq, bne_iff_ne] at hcurrent
  obtain ⟨⟨hetag, hne⟩, hhash⟩ := hcurrent
  simp only [unambiguous, Bool.and_eq_true, List.all_eq_true, Bool.or_eq_true, bne_iff_ne, beq_iff_eq,
    List.mem_filterMap] at hone
  obtain ⟨hurls, hcontents⟩ := hone
  have hserved : ∃ t, .served s.config.url saved.lastEtag saved.content t ∈ s.log := by
    rcases h with ⟨hempty, _⟩ | ⟨url, hurl, ⟨t, hmem⟩, _⟩
    · exact absurd (hhash.symm.trans hempty) (urlHash_ne_noBytes sha256 s.config.url)
    · have hsame : url = s.config.url := (hurls _ hmem).resolve_left (not_not.mpr (hurl.trans hhash))
      exact ⟨t, hsame ▸ hmem⟩
  refine ⟨hserved, [], s.log, by rw [hetag, List.nil_append], hetag ▸ hne, hserved, fun content t hmem => ?_⟩
  obtain ⟨t', hmem'⟩ := hserved
  rw [hetag] at hmem hmem'
  exact hcontents _ ⟨_, hmem, contentOf_eq_some.mpr ⟨t, rfl⟩⟩ _ ⟨_, hmem', contentOf_eq_some.mpr ⟨t', rfl⟩⟩

theorem RemoteRuleSet.Honest.fetch (hs : s.Honest sha256 key) {outcome : Outcome} {response : Response}
    (hsteady : s.steady sha256 key (.fetch time response outcome)) :
    (s.fetch sha256 key time outcome response).Honest sha256 key := by
  cases response with
  | failed => exact hs
  | notModified =>
    have hlater := RuleSet.Honest.mono hs fun set hset => hset.later (.notModified s.config.url s.lastEtag time)
    unfold RemoteRuleSet.Honest RemoteRuleSet.fetch
    cases hload : s.disk.loadRuleSet (fileHash sha256) key with
    | none => exact hlater
    | some saved =>
      obtain ⟨hcurrent, hone⟩ : s.current sha256 saved ∧ s.unambiguous sha256 := by
        simpa [steady, hload] using hsteady
      have hgenuine : Genuine sha256 s.log s.early saved := RuleSet.Honest.loaded hs (fun _ h => .inl h) hload
      obtain ⟨⟨t, hserved⟩, hconfirmed⟩ := hgenuine.confirmed hcurrent hone time
      have hmay := RuleSet.Honest.mayRename_loaded hs hload
      refine hlater.save (fun _ => .inr ?_) (fun _ => hmay)
      exact ⟨s.config.url, rfl, ⟨t, List.mem_cons_of_mem _ hserved⟩, time, rfl, .inr hconfirmed⟩
  | ok content etag =>
    have hlater := RuleSet.Honest.mono hs fun set hset => hset.later (.served s.config.url etag content time)
    unfold RemoteRuleSet.Honest RemoteRuleSet.fetch
    cases hacc : s.config.accepts content with
    | false => simpa [hacc] using hlater
    | true =>
      simp only [hacc, if_true]
      refine hlater.save (fun _ => .inr ?_) ?_
      · have hmem : Event.served s.config.url etag content time ∈ .served s.config.url etag content time :: s.log :=
          List.mem_cons_self
        exact ⟨s.config.url, rfl, ⟨time, hmem⟩, time, rfl, .inl hmem⟩
      · rintro rfl
        exact hsteady

theorem honest_startContext {config : Config}
    (hd : RuleSet.Honest sha256 key d (Genuine sha256 log early) fun set => set.urlHash = noBytes ∧ early = some set) :
    (startContext sha256 key config d log early).Honest sha256 key := by
  unfold startContext
  split <;> exact hd

theorem honest_run {past : List (RemoteRuleSet × RemoteLabel)} (hrun : (remoteRuleSets sha256 key).Run past s)
    (hal : System.Along (fun s l => s.steady sha256 key l = true) past) : s.Honest sha256 key := by
  refine hrun.invariant ?_ ?_ hal
  · rintro s ⟨config, d, hnone, hhash, rfl⟩
    refine honest_startContext ⟨fun setBinary hlegacy => ⟨hnone, fun set hun => ?_⟩, fun record hrecord => ?_⟩
    · have hload : d.loadRuleSet (fileHash sha256) key = some set := by
        cases setBinary with
        | nil => cases hun
        | cons b setBinary => simp [Disk.loadRuleSet, Disk.loadRuleSetFile, hnone, hlegacy, hun, Except.toOption]
      exact ⟨hhash set hload, hload⟩
    · rw [hnone] at hrecord
      cases hrecord
  · intro s s' l hs hl h
    cases some.inj h
    cases l with
    | restart config moved => exact honest_startContext (RuleSet.Honest.start hs (fun _ h => .inl h) moved)
    | fetch time response outcome => exact hs.fetch hl

/-- In a steady run what the cache holds was served with its etag by the URL of its hash, and served or
confirmed by it at its time, or is from before there were hashes. So a start takes from the cache what
the URL it is configured with served, or content of such a time. -/
theorem cached_content_is_genuine {past : List (RemoteRuleSet × RemoteLabel)}
    (hrun : (remoteRuleSets sha256 key).Run past s)
    (hal : System.Along (fun s l => s.steady sha256 key l = true) past) :
    (∀ saved, s.disk.loadRuleSet (fileHash sha256) key = some saved → Genuine sha256 s.log s.early saved) ∧
      ∀ config moved saved, restored sha256 key config (s.disk.start sha256 key moved) = some saved →
        saved.urlHash = noBytes ∧ s.early = some saved ∨
        ∃ url t, urlHash sha256 url = urlHash sha256 config.url ∧
          .served url saved.lastEtag saved.content t ∈ s.log := by
  have hs := honest_run hrun hal
  refine ⟨fun saved hload => hs.loaded (fun _ h => .inl h) hload, fun config moved saved hrestored => ?_⟩
  obtain ⟨hload, haccepted⟩ := filter_eq_some_iff.mp hrestored
  have hstart := RuleSet.Honest.start hs (fun _ h => .inl h) moved
  rcases hstart.loaded (fun _ h => .inl h) hload with hearly | ⟨url, hurl, ⟨t, hserved⟩, _⟩
  · exact .inl hearly
  have hhash : saved.urlHash = urlHash sha256 config.url := by
    simp only [Bool.and_eq_true, Bool.or_eq_true, decide_eq_true_eq] at haccepted
    exact haccepted.1.resolve_left fun hempty => urlHash_ne_noBytes sha256 url (hurl.trans (Subtype.ext hempty))
  exact .inr ⟨url, t, hurl.trans hhash, hserved⟩

end

/-- A hash that is the text itself, for short texts. -/
def plainHash (bytes : List UInt8) : Digest :=
  ⟨(bytes ++ List.replicate 32 0).take 32, by simp⟩

abbrev remote : System RemoteRuleSet RemoteLabel := remoteRuleSets plainHash ([], "set")

def configured (url : String) : Config := ⟨url, fun _ => true, none⟩

def fresh : RemoteRuleSet :=
  startContext plainHash ([], "set") (configured "https://a") ⟨∅, ∅, ∅⟩ [] none

theorem remote_run {ls : List RemoteLabel} {s : RemoteRuleSet} (h : remote.exec ls fresh = some s) :
    remote.Run (remote.trace ls fresh []) s :=
  System.run_exec (.start _ ⟨configured "https://a", ⟨∅, ∅, ∅⟩, rfl, by simp [Disk.loadRuleSet, Disk.loadRuleSetFile],
    rfl⟩) h

def confirmedLater : List RemoteLabel :=
  [.fetch ⟨1, 0⟩ (.ok (byte 1) (byte 11)) .done, .fetch ⟨2, 0⟩ .notModified .done]

theorem cached_content_is_genuine_confirmed :
    ∃ s, remote.exec confirmedLater fresh = some s ∧
      s.disk.loadRuleSet (fileHash plainHash) ([], "set") =
        some ⟨byte 1, ⟨2, 0⟩, byte 11, urlHash plainHash "https://a"⟩ ∧
      Genuine plainHash s.log s.early ⟨byte 1, ⟨2, 0⟩, byte 11, urlHash plainHash "https://a"⟩ := by
  let s := (remote.exec confirmedLater fresh).get (by decide +kernel)
  have hs : remote.exec confirmedLater fresh = some s := (some_get _).symm
  have hload : s.disk.loadRuleSet (fileHash plainHash) ([], "set") =
      some ⟨byte 1, ⟨2, 0⟩, byte 11, urlHash plainHash "https://a"⟩ := by decide +kernel
  obtain ⟨hall, _⟩ := cached_content_is_genuine (remote_run hs)
    (System.along_exec (by decide +kernel))
  exact ⟨s, hs, hload, hall _ hload⟩

/-- The URL is changed, what the new one serves is not saved, and it then answers that it has not changed. -/
def otherContentConfirmed : List RemoteLabel :=
  [.fetch ⟨1, 0⟩ (.ok (byte 1) (byte 11)) .done, .restart (configured "https://b") .done,
    .fetch ⟨2, 0⟩ (.ok (byte 2) (byte 12)) (.failed 0 true), .fetch ⟨3, 0⟩ .notModified .done]

/-- The content of the first URL is then in the cache as that of the second, which never served it, with
the time of now; and the next start takes it. -/
theorem other_content_looks_fresh :
    ∃ past s saved, remote.Run past s ∧ s.disk.loadRuleSet (fileHash plainHash) ([], "set") = some saved ∧
      ¬ Genuine plainHash s.log s.early saved ∧
      restored plainHash ([], "set") (configured "https://b")
        (s.disk.start plainHash ([], "set") .done) = some saved := by
  let s := (remote.exec otherContentConfirmed fresh).get (by decide +kernel)
  have hs : remote.exec otherContentConfirmed fresh = some s := (some_get _).symm
  let saved : SavedBinary := ⟨byte 1, ⟨3, 0⟩, byte 11, urlHash plainHash "https://b"⟩
  have hlog : s.log = [.notModified "https://b" (byte 12) ⟨3, 0⟩, .served "https://b" (byte 12) (byte 2) ⟨2, 0⟩,
      .served "https://a" (byte 11) (byte 1) ⟨1, 0⟩] := by decide +kernel
  refine ⟨_, s, saved, remote_run hs, by decide +kernel, ?_, by decide +kernel⟩
  rintro (⟨hempty, _⟩ | ⟨url, hurl, ⟨t, hserved⟩, _⟩)
  · revert hempty
    decide +kernel
  have hetag : byte 11 ≠ byte 12 := by decide
  rw [hlog] at hserved
  simp only [List.mem_cons, reduceCtorEq, Event.served.injEq, List.not_mem_nil, or_false, false_or] at hserved
  rcases hserved with ⟨_, h, _⟩ | ⟨rfl, _⟩
  · exact hetag h
  · revert hurl
    decide +kernel

end SingBox.RuleSet
