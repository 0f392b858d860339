import SingBox.RuleSet.Record
import SingBox.Lib.Transition
import SingBox.Lib.Table

/-!
# The files of the rule sets

The content of a rule set is in a file and the rest in the database, and a save writes the one
after the other. A process may fail or end between any two steps of a save; the next start moves
what an earlier version kept in the database and removes the files that no record names.
-/
namespace SingBox.RuleSet

open Lib Lib.Wire Option AList SavedBinary

/-- The directory of the files, the bucket of the records, and the one of an earlier version. -/
structure Disk where
  files : AList fun _ : String => Slice
  records : AList fun _ : Key => List UInt8
  legacy : AList fun _ : Key => List UInt8

section
variable (sha256 : List UInt8 → List UInt8) (d : Disk) (key : Key)

namespace Disk

def file : Option Slice := d.files.lookup (ruleSetFileName sha256 key)

/-- `loadRuleSetFile`; the flag tells that there is a record. -/
def loadRuleSetFile : Option SavedBinary × Bool :=
  match d.records.lookup key with
  | none => (none, false)
  | some record =>
    match parseRuleSetRecord record with
    | .error _ => (none, true)
    | .ok (saved, size) =>
      match d.file sha256 key with
      | none => (none, true)
      | some content => (if content.1.length = size then some { saved with content := content } else none, true)

def loadRuleSet : Option SavedBinary :=
  match d.loadRuleSetFile sha256 key with
  | (saved, true) => saved
  | (_, false) =>
    match d.legacy.lookup key with
    | none | some [] => none
    | some setBinary => (unmarshalBinary setBinary).toOption

def pruneRuleSetFiles : Disk :=
  let named := d.records.keys.map (ruleSetFileName sha256)
  { d with files := (d.files.keys.filter fun name => name ∉ named).foldl (fun files name => files.erase name) d.files }

/-- The first `n` bytes of the content are in the file being written. -/
def write (set : SavedBinary) (n : Nat) : Disk :=
  { d with
    files := d.files.insert (writingName (ruleSetFileName sha256 key))
      ⟨set.content.1.take n, (List.length_take_le' n set.content.1).trans_lt set.content.2⟩ }

def removeWriting : Disk := { d with files := d.files.erase (writingName (ruleSetFileName sha256 key)) }

def rename (set : SavedBinary) : Disk :=
  { d with
    files := (d.files.erase (writingName (ruleSetFileName sha256 key))).insert
      (ruleSetFileName sha256 key) set.content }

/-- The transaction at the end of `saveRuleSetFile`. -/
def commit (set : SavedBinary) : Disk :=
  { d with records := d.records.insert key (ruleSetRecord set), legacy := d.legacy.erase key }

end Disk
end

/-- How far a save is; `before` is the file that the rename replaced. -/
inductive Phase where
  | writing
  | written
  | renamed (before : Option Slice)

structure Saving where
  tag : String
  set : SavedBinary
  phase : Phase

/-- `moving` are the tags that `moveRuleSetsToFiles` has still to move, until the start is over. -/
structure Process where
  cacheID : List UInt8
  moving : Option (List String)
  saving : Option Saving

/-- `saved` are the rule sets that a save was called for, those of an earlier version included, and
`completed` is the rule set of the last save of a key, if that completed. -/
structure Sys where
  disk : Disk
  process : Option Process
  saved : List (Key × SavedBinary)
  completed : AList fun _ : Key => SavedBinary

inductive Label where
  | start (cacheID : List UInt8)
  | move (tag : String)
  | finishStart
  | save (tag : String) (set : SavedBinary)
  | write (n : Nat)
  | finishWrite
  | rename
  | commit
  | fail (removed : Bool)
  | crash

section
variable (sha256 : List UInt8 → List UInt8) (used : List Key)

/-- A step of a process with the tags `used`. A save that fails during the start ends its moves. -/
def Sys.step (s : Sys) : Label → Option Sys
  | .start cacheID =>
    match s.process with
    | some _ => none
    | none =>
      let tags := (s.disk.legacy.keys.filter fun key => key.1 = cacheID).map Prod.snd
      some { s with process := some ⟨cacheID, some tags, none⟩ }
  | .move tag =>
    match s.process with
    | some ⟨cacheID, some tags, none⟩ =>
      if tag ∈ tags then
        match (s.disk.legacy.lookup (cacheID, tag)).map unmarshalBinary with
        | some (.ok set) =>
          some { s with
            process := some ⟨cacheID, some (tags.erase tag), some ⟨tag, set, .writing⟩⟩
            completed := s.completed.erase (cacheID, tag) }
        | _ => some { s with process := some ⟨cacheID, some (tags.erase tag), none⟩ }
      else none
    | _ => none
  | .finishStart =>
    match s.process with
    | some ⟨cacheID, some [], none⟩ =>
      some { s with disk := s.disk.pruneRuleSetFiles sha256, process := some ⟨cacheID, none, none⟩ }
    | _ => none
  | .save tag set =>
    match s.process with
    | some ⟨cacheID, none, none⟩ =>
      if (cacheID, tag) ∈ used then
        some { s with
          process := some ⟨cacheID, none, some ⟨tag, set, .writing⟩⟩
          saved := ((cacheID, tag), set) :: s.saved
          completed := s.completed.erase (cacheID, tag) }
      else none
    | _ => none
  | .write n =>
    match s.process with
    | some ⟨cacheID, _, some ⟨tag, set, .writing⟩⟩ => some { s with disk := s.disk.write sha256 (cacheID, tag) set n }
    | _ => none
  | .finishWrite =>
    match s.process with
    | some ⟨cacheID, moving, some ⟨tag, set, .writing⟩⟩ =>
      some { s with
        disk := s.disk.write sha256 (cacheID, tag) set set.content.1.length
        process := some ⟨cacheID, moving, some ⟨tag, set, .written⟩⟩ }
    | _ => none
  | .rename =>
    match s.process with
    | some ⟨cacheID, moving, some ⟨tag, set, .written⟩⟩ =>
      some { s with
        disk := s.disk.rename sha256 (cacheID, tag) set
        process := some ⟨cacheID, moving, some ⟨tag, set, .renamed (s.disk.file sha256 (cacheID, tag))⟩⟩ }
    | _ => none
  | .commit =>
    match s.process with
    | some ⟨cacheID, moving, some ⟨tag, set, .renamed _⟩⟩ =>
      some { s with
        disk := s.disk.commit (cacheID, tag) set
        process := some ⟨cacheID, moving, none⟩
        completed := s.completed.insert (cacheID, tag) set }
    | _ => none
  | .fail removed =>
    match s.process with
    | some ⟨cacheID, moving, some ⟨_, _, .renamed _⟩⟩ =>
      some { s with process := some ⟨cacheID, moving.map fun _ => [], none⟩ }
    | some ⟨cacheID, moving, some ⟨tag, _, _⟩⟩ =>
      some { s with
        disk := if removed then s.disk.removeWriting sha256 (cacheID, tag) else s.disk
        process := some ⟨cacheID, moving.map fun _ => [], none⟩ }
    | _ => none
  | .crash => if s.process.isSome then some { s with process := none } else none

/-- The rule sets of an earlier version. -/
def earlier (legacy : AList fun _ : Key => List UInt8) : List (Key × SavedBinary) :=
  legacy.entries.filterMap fun row => (unmarshalBinary row.2).toOption.map fun set => (row.1, set)

def ruleSets : System Sys Label where
  init s := ∃ files legacy, (∀ key ∈ legacy, key ∈ used) ∧ s = ⟨⟨files, ∅, legacy⟩, none, earlier legacy, ∅⟩
  step s l := s.step sha256 used l

end

/-- If a save ends between the rename and the transaction, the file has the content that it had, or
the record of the rule set gives another size. -/
def Sys.harmless (s : Sys) : Bool :=
  match s.process with
  | some ⟨cacheID, _, some ⟨tag, set, .renamed before⟩⟩ =>
    before == some set.content ||
      match (s.disk.records.lookup (cacheID, tag)).map parseRuleSetRecord with
      | some (.ok (_, size)) => size != set.content.1.length
      | _ => true
  | _ => true

/-- A save ends early only where that is harmless. -/
def Sys.calm (s : Sys) : Label → Bool
  | .fail _ | .crash => s.harmless
  | _ => true

open Sys

section
variable {sha256 : List UInt8 → List UInt8} {used : List Key} {d : Disk} {key other : Key} {set : SavedBinary}

/-! ### The files each step leaves -/

/-- The file names of different rule sets are different. -/
def Distinct (sha256 : List UInt8 → List UInt8) (used : List Key) : Prop :=
  ∀ key ∈ used, ∀ other ∈ used, ruleSetFileName sha256 key = ruleSetFileName sha256 other → key = other

@[simp] theorem file_write (n : Nat) : (d.write sha256 other set n).file sha256 key = d.file sha256 key :=
  lookup_insert_ne (ruleSetFileName_ne_writingName sha256 key _)

@[simp] theorem file_removeWriting : (d.removeWriting sha256 other).file sha256 key = d.file sha256 key :=
  lookup_erase_ne (ruleSetFileName_ne_writingName sha256 key _)

@[simp] theorem file_commit : (d.commit other set).file sha256 key = d.file sha256 key := rfl

theorem file_rename_self : (d.rename sha256 key set).file sha256 key = some set.content := lookup_insert _

theorem file_rename_ne (hnames : Distinct sha256 used) (hkey : key ∈ used) (hother : other ∈ used) (hne : key ≠ other) :
    (d.rename sha256 other set).file sha256 key = d.file sha256 key := by
  have hname : ruleSetFileName sha256 key ≠ ruleSetFileName sha256 other :=
    fun h => hne (hnames key hkey other hother h)
  have hwriting := ruleSetFileName_ne_writingName sha256 key (ruleSetFileName sha256 other)
  exact (lookup_insert_ne hname).trans (lookup_erase_ne hwriting)

theorem file_prune {record : List UInt8} (h : d.records.lookup key = some record) :
    (d.pruneRuleSetFiles sha256).file sha256 key = d.file sha256 key := by
  have hmem : key ∈ d.records.keys := lookup_isSome.mp (by simp [h])
  have hnamed : ruleSetFileName sha256 key ∈ d.records.keys.map (ruleSetFileName sha256) := List.mem_map_of_mem hmem
  refine (Table.lookup_foldl_erase _ _ _).trans (if_neg fun h => ?_)
  simpa [hnamed] using (List.mem_filter.mp h).2

theorem loadRuleSet_cases {loaded : SavedBinary} (h : d.loadRuleSet sha256 key = some loaded) :
    (∃ record saved content, d.records.lookup key = some record ∧
      parseRuleSetRecord record = .ok (saved, content.1.length) ∧ d.file sha256 key = some content ∧
      loaded = { saved with content := content }) ∨
    ∃ setBinary, d.legacy.lookup key = some setBinary ∧ unmarshalBinary setBinary = .ok loaded := by
  unfold Disk.loadRuleSet Disk.loadRuleSetFile at h
  cases hrecord : d.records.lookup key with
  | none =>
    simp only [hrecord] at h
    cases hlegacy : d.legacy.lookup key with
    | none => simp [hlegacy] at h
    | some setBinary =>
      cases setBinary with
      | nil => simp [hlegacy] at h
      | cons b setBinary =>
        simp only [hlegacy] at h
        cases hun : unmarshalBinary (b :: setBinary) with
        | error err => simp [hun, Except.toOption] at h
        | ok saved =>
          simp only [hun, Except.toOption, Option.some.injEq] at h
          subst h
          exact .inr ⟨b :: setBinary, rfl, hun⟩
  | some record =>
    simp only [hrecord] at h
    cases hparse : parseRuleSetRecord record with
    | error err => simp [hparse] at h
    | ok parsed =>
      obtain ⟨saved, size⟩ := parsed
      simp only [hparse] at h
      cases hfile : d.file sha256 key with
      | none => simp [hfile] at h
      | some content =>
        simp only [hfile, ite_none_right_eq_some, Option.some.injEq] at h
        obtain ⟨rfl, rfl⟩ := h
        exact .inl ⟨record, saved, content, rfl, hparse, rfl, rfl⟩

/-- What is read of any version is kept by writing it. -/
theorem unmarshalBinary_stored {setBinary : List UInt8} (h : unmarshalBinary setBinary = .ok set) :
    set.stored = set := by
  cases setBinary with
  | nil => cases h
  | cons version data =>
    simp only [unmarshalBinary, bind, Except.bind, pure, Except.pure] at h
    cases hcontent : readSlice "content" data with
    | error err => simp [hcontent] at h
    | ok content =>
      cases hunix : readBigEndian 8 content.2 with
      | error err => simp [hcontent, hunix] at h
      | ok unix =>
        cases hetag : readSlice "etag" unix.2 with
        | error err => simp [hcontent, hunix, hetag] at h
        | ok etag =>
          simp only [hcontent, hunix, hetag] at h
          split at h
          · cases h
            rfl
          cases hhash : readSlice "url hash" etag.2 with
          | error err => simp [hhash] at h
          | ok hash =>
            simp only [hhash] at h
            cases h
            rfl

/-! ### Steps -/

/-- The set is saved: that of an earlier version, or a new one. -/
def Sys.Begins (s : Sys) (used : List Key) (key : Key) (set : SavedBinary) (saved : List (Key × SavedBinary)) : Prop :=
  (∃ setBinary, s.disk.legacy.lookup key = some setBinary ∧ unmarshalBinary setBinary = .ok set ∧ saved = s.saved) ∨
    key ∈ used ∧ saved = (key, set) :: s.saved

/-- What a step does, with the state it needs. No save is in progress behind a step that is `idle`. -/
inductive Move (sha256 : List UInt8 → List UInt8) (used : List Key) (s : Sys) : Label → Sys → Prop
  | idle (l : Label) (disk : Disk) (process : Option Process) (hl : s.calm l = true → s.harmless = true)
      (hdisk : disk = s.disk ∨ ∃ key, disk = s.disk.removeWriting sha256 key)
      (hprocess : ∀ p ∈ process, p.saving = none) :
      Move sha256 used s l { s with disk := disk, process := process }
  | finishStart (cacheID : List UInt8) (h : s.process = some ⟨cacheID, some [], none⟩) :
      Move sha256 used s .finishStart
        { s with disk := s.disk.pruneRuleSetFiles sha256, process := some ⟨cacheID, none, none⟩ }
  | save (l : Label) (cacheID : List UInt8) (before moving : Option (List String)) (tag : String) (set : SavedBinary)
      (saved : List (Key × SavedBinary)) (h : s.process = some ⟨cacheID, before, none⟩)
      (hset : s.Begins used (cacheID, tag) set saved) :
      Move sha256 used s l { s with
        process := some ⟨cacheID, moving, some ⟨tag, set, .writing⟩⟩
        saved := saved
        completed := s.completed.erase (cacheID, tag) }
  | write (l : Label) (cacheID : List UInt8) (moving : Option (List String)) (tag : String) (set : SavedBinary)
      (n : Nat) (phase : Phase) (h : s.process = some ⟨cacheID, moving, some ⟨tag, set, .writing⟩⟩)
      (hphase : phase = .writing ∨ phase = .written) :
      Move sha256 used s l { s with
        disk := s.disk.write sha256 (cacheID, tag) set n
        process := some ⟨cacheID, moving, some ⟨tag, set, phase⟩⟩ }
  | rename (cacheID : List UInt8) (moving : Option (List String)) (tag : String) (set : SavedBinary)
      (h : s.process = some ⟨cacheID, moving, some ⟨tag, set, .written⟩⟩) :
      Move sha256 used s .rename { s with
        disk := s.disk.rename sha256 (cacheID, tag) set
        process := some ⟨cacheID, moving, some ⟨tag, set, .renamed (s.disk.file sha256 (cacheID, tag))⟩⟩ }
  | commit (cacheID : List UInt8) (moving : Option (List String)) (tag : String) (set : SavedBinary)
      (before : Option Slice) (h : s.process = some ⟨cacheID, moving, some ⟨tag, set, .renamed before⟩⟩) :
      Move sha256 used s .commit { s with
        disk := s.disk.commit (cacheID, tag) set
        process := some ⟨cacheID, moving, none⟩
        completed := s.completed.insert (cacheID, tag) set }

theorem Sys.step_move {s s' : Sys} {l : Label} (h : s.step sha256 used l = some s') : Move sha256 used s l s' := by
  cases l with
  | start cacheID =>
    cases hp : s.process with
    | some p => simp [step, hp] at h
    | none =>
      simp only [step, hp, Option.some.injEq] at h
      subst h
      exact .idle _ s.disk _ (fun _ => by simp [harmless, hp]) (.inl rfl) (by simp)
  | move tag =>
    rcases hp : s.process with _ | ⟨cacheID, _ | tags, _ | saving⟩
    case some.some.none =>
      simp only [step, hp, ite_none_right_eq_some] at h
      obtain ⟨_, h⟩ := h
      split at h
      next set hset =>
        obtain ⟨setBinary, hlegacy, hset⟩ := map_eq_some_iff.mp hset
        cases h
        exact .save _ cacheID _ _ tag set _ hp (.inl ⟨setBinary, hlegacy, hset, rfl⟩)
      · cases h
        exact .idle _ s.disk _ (fun _ => by simp [harmless, hp]) (.inl rfl) (by simp)
    all_goals simp [step, hp] at h
  | finishStart =>
    rcases hp : s.process with _ | ⟨cacheID, _ | _ | ⟨tag, tags⟩, _ | saving⟩ <;> simp [step, hp] at h
    subst h
    exact .finishStart cacheID hp
  | save tag set =>
    rcases hp : s.process with _ | ⟨cacheID, _ | tags, _ | saving⟩ <;> simp [step, hp] at h
    obtain ⟨hused, h⟩ := h
    subst h
    exact .save _ cacheID _ _ tag set _ hp (.inr ⟨hused, rfl⟩)
  | write n =>
    rcases hp : s.process with _ | ⟨cacheID, moving, _ | ⟨tag, set, _ | _ | before⟩⟩ <;> simp [step, hp] at h
    subst h
    exact .write _ cacheID moving tag set n _ hp (.inl rfl)
  | finishWrite =>
    rcases hp : s.process with _ | ⟨cacheID, moving, _ | ⟨tag, set, _ | _ | before⟩⟩ <;> simp [step, hp] at h
    subst h
    exact .write _ cacheID moving tag set _ _ hp (.inr rfl)
  | rename =>
    rcases hp : s.process with _ | ⟨cacheID, moving, _ | ⟨tag, set, _ | _ | before⟩⟩ <;> simp [step, hp] at h
    subst h
    exact .rename cacheID moving tag set hp
  | commit =>
    rcases hp : s.process with _ | ⟨cacheID, moving, _ | ⟨tag, set, _ | _ | before⟩⟩ <;> simp [step, hp] at h
    subst h
    exact .commit cacheID moving tag set before hp
  | fail removed =>
    rcases hp : s.process with _ | ⟨cacheID, moving, _ | ⟨tag, set, _ | _ | before⟩⟩ <;> simp [step, hp] at h
    all_goals
      subst h
      refine .idle _ _ _ id ?_ (by simp)
    rotate_right
    · exact .inl rfl
    all_goals
      cases removed
      · exact .inl rfl
      · exact .inr ⟨(cacheID, tag), rfl⟩
  | crash =>
    simp only [step, ite_none_right_eq_some, Option.some.injEq] at h
    obtain ⟨_, h⟩ := h
    subst h
    exact .idle _ s.disk _ id (.inl rfl) (by simp)

/-! ### Runs -/

/-- What holds however saves end: the rule set of a save that completed last is on the disk, and
nothing is on the disk that no save was called for. -/
structure Kept (sha256 : List UInt8 → List UInt8) (used : List Key) (s : Sys) : Prop where
  records : ∀ key record, s.disk.records.lookup key = some record → key ∈ used
  legacy : ∀ key setBinary, s.disk.legacy.lookup key = some setBinary → key ∈ used ∧
    ∀ set, unmarshalBinary setBinary = .ok set → (key, set) ∈ s.saved
  saving : ∀ cacheID moving tag set phase, s.process = some ⟨cacheID, moving, some ⟨tag, set, phase⟩⟩ →
    (cacheID, tag) ∈ used ∧ ((cacheID, tag), set) ∈ s.saved ∧ s.completed.lookup (cacheID, tag) = none ∧
      ∀ before, phase = .renamed before → s.disk.file sha256 (cacheID, tag) = some set.content
  completed : ∀ key set, s.completed.lookup key = some set →
    s.disk.records.lookup key = some (ruleSetRecord set) ∧ s.disk.file sha256 key = some set.content

/-- The file of a rule set as it was before the save in progress. -/
def Sys.fileBefore (sha256 : List UInt8 → List UInt8) (s : Sys) (key : Key) : Option Slice :=
  match s.process with
  | some ⟨cacheID, _, some ⟨tag, _, .renamed before⟩⟩ =>
    if key = (cacheID, tag) then before else s.disk.file sha256 key
  | _ => s.disk.file sha256 key

/-- Every record is that of a rule set that was saved, and a file of its size has its content. -/
def Truthful (sha256 : List UInt8 → List UInt8) (s : Sys) : Prop :=
  ∀ key record, s.disk.records.lookup key = some record → ∃ set, (key, set) ∈ s.saved ∧ record = ruleSetRecord set ∧
    ∀ content, s.fileBefore sha256 key = some content → content.1.length = set.content.1.length → content = set.content

variable {s s' : Sys} {l : Label}

theorem stopped {disk : Disk} (h : disk = d ∨ ∃ key, disk = d.removeWriting sha256 key) :
    disk.records = d.records ∧ disk.legacy = d.legacy ∧ ∀ key, disk.file sha256 key = d.file sha256 key := by
  rcases h with rfl | ⟨key, rfl⟩
  · exact ⟨rfl, rfl, fun _ => rfl⟩
  · exact ⟨rfl, rfl, fun _ => file_removeWriting⟩

theorem Kept.begun (hs : Kept sha256 used s) {saved : List (Key × SavedBinary)} (hset : s.Begins used key set saved) :
    key ∈ used ∧ (key, set) ∈ saved ∧ s.saved ⊆ saved := by
  rcases hset with ⟨setBinary, hlegacy, hset, rfl⟩ | ⟨hused, rfl⟩
  · obtain ⟨hused, hsaved⟩ := hs.legacy _ _ hlegacy
    exact ⟨hused, hsaved set hset, List.Subset.refl _⟩
  · exact ⟨hused, List.mem_cons_self, List.subset_cons_self _ _⟩

theorem Kept.move (hnames : Distinct sha256 used) (hs : Kept sha256 used s) (h : Move sha256 used s l s') :
    Kept sha256 used s' := by
  cases h with
  | idle l disk process hl hdisk hprocess =>
    obtain ⟨hrecords, hlegacy, hfiles⟩ := stopped hdisk
    refine ⟨by rw [hrecords]; exact hs.records, by rw [hlegacy]; exact hs.legacy, fun _ _ _ _ _ hp => ?_, ?_⟩
    · cases hprocess _ hp
    · intro key set hkey
      rw [hrecords, hfiles]
      exact hs.completed key set hkey
  | finishStart cacheID h =>
    refine ⟨hs.records, hs.legacy, by simp, fun key set hkey => ?_⟩
    obtain ⟨hrecord, hfile⟩ := hs.completed key set hkey
    exact ⟨hrecord, (file_prune hrecord).trans hfile⟩
  | save l cacheID before moving tag set saved h hset =>
    obtain ⟨hused, hmem, hsub⟩ := hs.begun hset
    refine ⟨hs.records, fun key setBinary hkey => ?_, ?_, fun key set hkey => ?_⟩
    · obtain ⟨hmem, hsaved⟩ := hs.legacy key setBinary hkey
      exact ⟨hmem, fun set hset => hsub (hsaved set hset)⟩
    · rintro _ _ _ _ _ ⟨⟩
      exact ⟨hused, hmem, lookup_erase _ _, nofun⟩
    · exact hs.completed key set (Table.lookup_erase_eq_some.mp hkey).2
  | write l cacheID moving tag set n phase h hphase =>
    refine ⟨hs.records, hs.legacy, ?_, fun key set hkey => ?_⟩
    · rintro _ _ _ _ _ ⟨⟩
      obtain ⟨hused, hsaved, hcompleted, _⟩ := hs.saving _ _ _ _ _ h
      refine ⟨hused, hsaved, hcompleted, ?_⟩
      rintro before rfl
      rcases hphase with hphase | hphase <;> cases hphase
    · obtain ⟨hrecord, hfile⟩ := hs.completed key set hkey
      exact ⟨hrecord, (file_write n).trans hfile⟩
  | rename cacheID moving tag set h =>
    obtain ⟨hused, hsaved, hcompleted, _⟩ := hs.saving _ _ _ _ _ h
    refine ⟨hs.records, hs.legacy, ?_, fun key set hkey => ?_⟩
    · rintro _ _ _ _ _ ⟨⟩
      exact ⟨hused, hsaved, hcompleted, fun _ _ => file_rename_self⟩
    obtain ⟨hrecord, hfile⟩ := hs.completed key set hkey
    have hne : key ≠ (cacheID, tag) := by
      rintro rfl
      rw [hcompleted] at hkey
      cases hkey
    exact ⟨hrecord, (file_rename_ne hnames (hs.records _ _ hrecord) hused hne).trans hfile⟩
  | commit cacheID moving tag set before h =>
    obtain ⟨hused, hsaved, _, hfile⟩ := hs.saving _ _ _ _ _ h
    refine ⟨fun key record hkey => ?_, fun key setBinary hkey => ?_, by simp, fun key other hkey => ?_⟩
    · rcases Table.lookup_insert_eq_some.mp hkey with ⟨rfl, _⟩ | ⟨_, hkey⟩
      · exact hused
      · exact hs.records key record hkey
    · exact hs.legacy key setBinary (Table.lookup_erase_eq_some.mp hkey).2
    · rcases Table.lookup_insert_eq_some.mp hkey with ⟨rfl, rfl⟩ | ⟨hne, hkey⟩
      · exact ⟨lookup_insert _, hfile before rfl⟩
      · obtain ⟨hrecord, hfile⟩ := hs.completed key other hkey
        exact ⟨(lookup_insert_ne hne).trans hrecord, hfile⟩

theorem fileBefore_of_not_saving (h : ∀ p ∈ s.process, p.saving = none) :
    s.fileBefore sha256 key = s.disk.file sha256 key := by
  rcases hp : s.process with _ | ⟨cacheID, moving, _ | w⟩
  · simp [fileBefore, hp]
  · simp [fileBefore, hp]
  · cases h _ hp

theorem fileBefore_cases (hs : Kept sha256 used s) (key : Key) :
    s.fileBefore sha256 key = s.disk.file sha256 key ∨
    ∃ moving set before, s.process = some ⟨key.1, moving, some ⟨key.2, set, .renamed before⟩⟩ ∧
      s.disk.file sha256 key = some set.content ∧ s.fileBefore sha256 key = before := by
  rcases hp : s.process with _ | ⟨cacheID, moving, _ | ⟨tag, set, _ | _ | before⟩⟩
  · simp [fileBefore, hp]
  · simp [fileBefore, hp]
  · simp [fileBefore, hp]
  · simp [fileBefore, hp]
  · by_cases hk : key = (cacheID, tag)
    · subst hk
      exact .inr ⟨moving, set, before, rfl, (hs.saving _ _ _ _ _ hp).2.2.2 _ rfl, by simp [fileBefore, hp]⟩
    · simp [fileBefore, hp, hk]

theorem Truthful.move (hnames : Distinct sha256 used) (hs : Kept sha256 used s) (ht : Truthful sha256 s)
    (hcalm : s.calm l) (h : Move sha256 used s l s') : Truthful sha256 s' := by
  intro key record hrecord
  cases h with
  | write _ _ _ _ _ _ _ h hphase =>
    rcases hphase with rfl | rfl <;> simpa [fileBefore, h] using ht key record hrecord
  | finishStart cacheID h =>
    have hfile : (s.disk.pruneRuleSetFiles sha256).file sha256 key = s.disk.file sha256 key := file_prune hrecord
    simpa [fileBefore, h, hfile] using ht key record hrecord
  | save _ _ _ _ _ _ _ h hset =>
    obtain ⟨set, hsaved, hfile⟩ := ht key record hrecord
    exact ⟨set, (hs.begun hset).2.2 hsaved, by simpa [fileBefore, h] using hfile⟩
  | rename cacheID moving tag set h =>
    obtain ⟨saved, hsaved, rfl, hfile⟩ := ht key record hrecord
    refine ⟨saved, hsaved, rfl, ?_⟩
    by_cases hk : key = (cacheID, tag)
    · simpa [fileBefore, h, hk] using hfile
    · have hused := (hs.saving _ _ _ _ _ h).1
      simpa [fileBefore, h, hk, file_rename_ne hnames (hs.records _ _ hrecord) hused hk] using hfile
  | commit cacheID moving tag set before h =>
    rcases Table.lookup_insert_eq_some.mp hrecord with ⟨rfl, rfl⟩ | ⟨hne, hrecord⟩
    · obtain ⟨_, hsaved, _, hfile⟩ := hs.saving _ _ _ _ _ h
      refine ⟨set, hsaved, rfl, fun content hcontent _ => ?_⟩
      have hfile := hfile before rfl
      simpa [fileBefore, hfile] using hcontent.symm
    · simpa [fileBefore, h, hne] using ht key record hrecord
  | idle l disk process hl hdisk hprocess =>
    obtain ⟨hrecords, -, hfiles⟩ := stopped hdisk
    rw [hrecords] at hrecord
    obtain ⟨saved, hsaved, rfl, hfile⟩ := ht key record hrecord
    refine ⟨saved, hsaved, rfl, fun content hcontent hlength => ?_⟩
    have hafter : s.disk.file sha256 key = some content := by
      rw [← hfiles, ← hcontent]
      exact (fileBefore_of_not_saving (s := { s with disk := disk, process := process }) hprocess).symm
    have hharmless := hl hcalm
    -- the file after an early end is the one of the record, unless the save had replaced it
    rcases fileBefore_cases hs key with hbefore | ⟨moving, set, before, h, hset, hbefore⟩
    · exact hfile content (hbefore.trans hafter) hlength
    cases hset.symm.trans hafter
    have hrecord' : s.disk.records.lookup (key.1, key.2) = some (ruleSetRecord saved) := hrecord
    simp only [harmless, h, hrecord', map_some, parseRuleSetRecord_ruleSetRecord, Bool.or_eq_true,
      beq_iff_eq, bne_iff_ne] at hharmless
    rcases hharmless with hsame | hsize
    · exact hfile _ (hbefore.trans hsame) hlength
    · exact absurd hlength.symm hsize

theorem kept_start (h : (ruleSets sha256 used).init s) : Kept sha256 used s := by
  obtain ⟨files, legacy, hused, rfl⟩ := h
  refine ⟨by simp, fun key setBinary hkey => ?_, by simp, by simp⟩
  have hentry := mem_lookup_iff.mp hkey
  refine ⟨hused key (lookup_isSome.mp (by simp [hkey])), fun set hset => ?_⟩
  exact List.mem_filterMap.mpr ⟨⟨key, setBinary⟩, hentry, by simp [hset, Except.toOption]⟩

section
variable {past : List (Sys × Label)} (hnames : Distinct sha256 used) (hrun : (ruleSets sha256 used).Run past s)
include hnames hrun

theorem kept_run : Kept sha256 used s :=
  hrun.always (fun _ => kept_start) fun _ _ _ hs h => hs.move hnames (step_move h)

theorem truthful_run (hal : System.Along (fun s l => s.calm l = true) past) :
    Truthful sha256 s := by
  induction hrun with
  | start s h =>
    obtain ⟨files, legacy, _, rfl⟩ := h
    intro key record hrecord
    cases hrecord
  | next past s s' l hrun h ih =>
    obtain ⟨hcalm, hpast⟩ := (System.along_cons _ s l past).mp hal
    exact (ih hpast).move hnames (kept_run hnames hrun) hcalm (step_move h)

end

/-- Pruning leaves the rule set of a save that completed last, which is loaded as it was saved. If saves
end early only where that is harmless, every rule set that is loaded while none is being saved is one
that was saved: its content, etag and URL hash, and its time in seconds. -/
theorem saved_rule_sets_survive (hnames : Distinct sha256 used) {past : List (Sys × Label)}
    (hrun : (ruleSets sha256 used).Run past s) :
    (∀ key set, s.completed.lookup key = some set →
      (s.disk.pruneRuleSetFiles sha256).file sha256 key = some set.content ∧
      (s.disk.pruneRuleSetFiles sha256).loadRuleSet sha256 key = some set.stored) ∧
    (System.Along (fun s l => s.calm l = true) past → (∀ p ∈ s.process, p.saving = none) →
      ∀ key loaded, s.disk.loadRuleSet sha256 key = some loaded →
        ∃ set, (key, set) ∈ s.saved ∧ loaded = set.stored) := by
  have hs := kept_run hnames hrun
  refine ⟨fun key set hkey => ?_, fun hal hidle key loaded hload => ?_⟩
  · obtain ⟨hrecord, hfile⟩ := hs.completed key set hkey
    have hpruned := (file_prune hrecord).trans hfile
    have hkept : (s.disk.pruneRuleSetFiles sha256).records.lookup key = _ := hrecord
    simp [Disk.loadRuleSet, Disk.loadRuleSetFile, hkept, hpruned, parseRuleSetRecord_ruleSetRecord, stored]
  rcases loadRuleSet_cases hload with ⟨record, saved, content, hrecord, hparse, hfile, rfl⟩ | ⟨setBinary, hlegacy, hun⟩
  · obtain ⟨set, hsaved, rfl, hcontent⟩ := truthful_run hnames hrun hal key record hrecord
    rw [parseRuleSetRecord_ruleSetRecord] at hparse
    obtain ⟨rfl, hlength⟩ := Prod.mk.inj (Except.ok.inj hparse)
    refine ⟨set, hsaved, ?_⟩
    rw [hcontent content ((fileBefore_of_not_saving hidle).trans hfile) hlength.symm]
    rfl
  · exact ⟨loaded, (hs.legacy key setBinary hlegacy).2 loaded hun, (unmarshalBinary_stored hun).symm⟩

end

def byte (b : UInt8) : Slice := ⟨[b], by simp⟩

/-- A content of one byte, saved with an etag of the same byte. -/
def oneByte (b : UInt8) : SavedBinary := ⟨byte b, ⟨0, 0⟩, byte b, noBytes⟩

/-- One rule set, without a cache ID, and a hash that is the text itself. -/
abbrev single : System Sys Label := ruleSets id [([], "set")]

def emptyDisk : Sys := ⟨⟨∅, ∅, ∅⟩, none, [], ∅⟩

theorem single_distinct : Distinct id [([], "set")] := by
  intro key hkey other hother _
  rw [List.mem_singleton.mp hkey, List.mem_singleton.mp hother]

theorem single_run {ls : List Label} {s : Sys} (h : single.exec ls emptyDisk = some s) :
    single.Run (single.trace ls emptyDisk []) s :=
  System.run_exec (.start _ ⟨∅, ∅, by simp, rfl⟩) h

/-- One rule set is saved, and the save of the other is cut before the rename. -/
def cutInWriting : List Label :=
  [.start [], .finishStart, .save "set" (oneByte 1), .finishWrite, .rename, .commit, .save "set" (oneByte 2), .write 0,
    .crash, .start [], .finishStart]

theorem saved_rule_sets_survive_cutInWriting :
    ∃ s, single.exec cutInWriting emptyDisk = some s ∧ s.disk.loadRuleSet id ([], "set") = some (oneByte 1) ∧
      ∃ set, (([], "set"), set) ∈ s.saved ∧ oneByte 1 = set.stored := by
  let s := (single.exec cutInWriting emptyDisk).get (by decide +kernel)
  have hs : single.exec cutInWriting emptyDisk = some s := (some_get _).symm
  have hload : s.disk.loadRuleSet id ([], "set") = some (oneByte 1) := by decide +kernel
  obtain ⟨_, hall⟩ := saved_rule_sets_survive single_distinct (single_run hs)
  exact ⟨s, hs, hload, hall (System.along_exec (by decide +kernel)) (by decide +kernel) _ _ hload⟩

/-- One rule set is saved, and the save of the other is cut behind the rename. -/
def cutBehindRename : List Label :=
  [.start [], .finishStart, .save "set" (oneByte 1), .finishWrite, .rename, .commit, .save "set" (oneByte 2),
    .finishWrite, .rename, .crash, .start [], .finishStart]

/-- The new content is loaded with the etag of the old one: they have the same size. -/
theorem content_with_other_etag :
    ∃ past s, single.Run past s ∧ (∀ p ∈ s.process, p.saving = none ∧ p.moving = none) ∧
      ∃ loaded, s.disk.loadRuleSet id ([], "set") = some loaded ∧ loaded.content = (oneByte 2).content ∧
        loaded.lastEtag = (oneByte 1).lastEtag ∧ ∀ key set, (key, set) ∈ s.saved → loaded ≠ set.stored := by
  let s := (single.exec cutBehindRename emptyDisk).get (by decide +kernel)
  have hs : single.exec cutBehindRename emptyDisk = some s := (some_get _).symm
  let loaded : SavedBinary := { oneByte 1 with content := (oneByte 2).content }
  have hnone : ∀ saved ∈ s.saved, loaded ≠ saved.2.stored := by decide +kernel
  exact ⟨_, s, single_run hs, by decide +kernel, loaded, by decide +kernel, rfl, rfl,
    fun key set hmem => hnone (key, set) hmem⟩

end SingBox.RuleSet
