import SingBox.Lib.Strings
import SingBox.Lib.Table

/-!
# The options of a Shadowsocks plugin

The plugin reads its options from a text of pairs, `key=value;key;...`, in which a backslash takes the
meaning of the byte behind it away, in a key as well as in a value. A subscription is asked whether it
names a file of this router by a check that knows no backslashes.
-/
namespace SingBox.Parser

open SingBox.Lib.Strings List

inductive PluginError where
  /-- `nothing following final escape in` the text -/
  | finalEscape (text : Bytes)
  /-- `empty key in ""` -/
  | emptyKey
  deriving DecidableEq

abbrev Args := AList fun _ : Bytes => List Bytes

def Args.add (args : Args) (key value : Bytes) : Args :=
  args.insert key ((args.lookup key).getD [] ++ [value])

/-- The loop of `indexUnescaped`: the index of the first unescaped byte of `term`, or the length, and the
text before it without its escapes. -/
def scanUnescaped (term : Bytes) : Bytes → Option (Nat × Bytes)
  | [] => some (0, [])
  | b :: s =>
    if b ∈ term then some (0, [])
    else if b = 92 then
      match s with
      | [] => none
      | c :: s => (scanUnescaped term s).map fun r => (r.1 + 2, c :: r.2)
    else (scanUnescaped term s).map fun r => (r.1 + 1, b :: r.2)

def indexUnescaped (s term : Bytes) : Except PluginError (Nat × Bytes) :=
  match scanUnescaped term s with
  | none => .error (.finalEscape s)
  | some r => .ok r

/-- An option, together with how its key was written. -/
structure Argument where
  raw : Bytes
  key : Bytes
  value : Bytes
  deriving DecidableEq

/-- One turn of the loop of `ParsePluginOptions`: the option at the front of `s`, and what is behind it. -/
def readArgument (s : Bytes) : Except PluginError (Argument × Bytes) :=
  match indexUnescaped s [61, 59] with
  | .error e => .error e
  | .ok (offset, key) =>
    if key = [] then .error .emptyKey
    else if s[offset]? = some 61 then
      let behind := s.drop (offset + 1)
      match indexUnescaped behind [59] with
      | .error e => .error e
      | .ok (length, value) => .ok (⟨s.take offset, key, value⟩, behind.drop (length + 1))
    else .ok (⟨s.take offset, key, ascii "1"⟩, s.drop (offset + 1))

/-- The loop of `ParsePluginOptions`; every turn takes a byte at least. -/
def addArguments : Nat → Bytes → Args → Except PluginError Args
  | 0, _, opts => .ok opts
  | turns + 1, s, opts =>
    if s = [] then .ok opts
    else do
      let (argument, rest) ← readArgument s
      addArguments turns rest (opts.add argument.key argument.value)

def parsePluginOptions (s : Bytes) : Except PluginError Args := addArguments s.length s ∅

def cert : Bytes := ascii "cert"

def equalFold (s t : Bytes) : Bool := s.map lower == t.map lower

def pluginNamesLocalFile (arguments : Bytes) : Bool :=
  (arguments.splitOn 59).any fun argument => equalFold (trimSpace (cut 61 argument).1) cert

/-- The options of `s`, in their order. -/
def arguments : Nat → Bytes → Except PluginError (List Argument)
  | 0, _ => .ok []
  | turns + 1, s =>
    if s = [] then .ok []
    else do
      let (argument, rest) ← readArgument s
      return argument :: (← arguments turns rest)

@[simp] theorem arguments_nil (turns : Nat) : arguments turns [] = .ok [] := by
  cases turns <;> rfl

/-- `raw` is the text `s` with escapes, and a byte of `term` does not end it. -/
inductive Writes (term : Bytes) : Bytes → Bytes → Prop
  | nil : Writes term [] []
  | plain {b : UInt8} {raw s : Bytes} : b ∉ term → b ≠ 92 → Writes term raw s → Writes term (b :: raw) (b :: s)
  | escaped {b : UInt8} {raw s : Bytes} : Writes term raw s → Writes term (92 :: b :: raw) (b :: s)

variable {s key term : Bytes} {a : Argument} {n : Nat}

/-- A text written without a backslash is written as it is. -/
theorem Writes.eq_of_plain {raw : Bytes} (h : Writes term raw s) (hp : 92 ∉ raw) :
    raw = s ∧ ∀ b ∈ raw, b ∉ term := by
  induction h with
  | nil => simp
  | plain hb _ _ ih =>
    obtain ⟨heq, hmem⟩ := ih fun h => hp (mem_cons_of_mem _ h)
    subst heq
    exact ⟨rfl, forall_mem_cons.mpr ⟨hb, hmem⟩⟩
  | escaped => simp at hp

/-- The scan stops behind a written text: at the end, or before a byte of `term`. -/
theorem scanUnescaped_spec (h : scanUnescaped term s = some (n, key)) :
    Writes term (s.take n) key ∧ n ≤ s.length ∧ ∀ b ∈ s[n]?, b ∈ term := by
  fun_induction scanUnescaped term s generalizing n key with
  | case1 =>
    cases h
    exact ⟨.nil, Nat.le_refl _, by simp⟩
  | case2 b s hb =>
    cases h
    exact ⟨.nil, Nat.zero_le _, by simpa using hb⟩
  | case3 => cases h
  | case4 c s _ ih =>
    obtain ⟨⟨m, key'⟩, hr, heq⟩ := Option.map_eq_some_iff.mp h
    cases heq
    obtain ⟨hw, hle, hstop⟩ := ih hr
    exact ⟨.escaped hw, Nat.add_le_add_right hle 2, hstop⟩
  | case5 b s hb hne ih =>
    obtain ⟨⟨m, key'⟩, hr, heq⟩ := Option.map_eq_some_iff.mp h
    cases heq
    obtain ⟨hw, hle, hstop⟩ := ih hr
    exact ⟨.plain hb hne hw, Nat.add_le_add_right hle 1, hstop⟩

theorem indexUnescaped_spec (h : indexUnescaped s term = .ok (n, key)) :
    Writes term (s.take n) key ∧ n ≤ s.length ∧ ∀ b ∈ s[n]?, b ∈ term := by
  rw [indexUnescaped] at h
  cases hs : scanUnescaped term s with
  | none => simp [hs] at h
  | some r =>
    simp only [hs, Except.ok.injEq] at h
    subst h
    exact scanUnescaped_spec hs

/-- Behind an index, there is nothing left or the byte there is in front. -/
theorem drop_succ_behind (h : ∀ b ∈ s[n]?, b = 59) :
    s.drop (n + 1) = [] ∨ s = s.take n ++ 59 :: s.drop (n + 1) := by
  by_cases hn : n < s.length
  · right
    have hb : s[n] = 59 := h s[n] (by simp [hn])
    rw [← hb, getElem_cons_drop, take_append_drop]
  · left
    exact drop_eq_nil_of_le (Nat.le_succ_of_le (Nat.le_of_not_lt hn))

/-- The text of an option: its key as written, the separator, and the rest behind a semicolon. -/
theorem readArgument_spec {rest : Bytes} (h : readArgument s = .ok (a, rest)) :
    Writes [61, 59] a.raw a.key ∧ (∃ tail, s = a.raw ++ tail ∧ ∀ b ∈ tail.head?, b = 61 ∨ b = 59) ∧
      (rest = [] ∨ ∃ front, s = front ++ 59 :: rest) := by
  rw [readArgument] at h
  cases hk : indexUnescaped s [61, 59] with
  | error e => simp [hk] at h
  | ok r =>
    obtain ⟨offset, key⟩ := r
    obtain ⟨hw, _, hstop⟩ := indexUnescaped_spec hk
    have htail : ∃ tail, s = s.take offset ++ tail ∧ ∀ b ∈ tail.head?, b = 61 ∨ b = 59 :=
      ⟨s.drop offset, (take_append_drop offset s).symm, by simpa using hstop⟩
    simp only [hk] at h
    split_ifs at h with hempty heq
    · cases hv : indexUnescaped (s.drop (offset + 1)) [59] with
      | error e => simp [hv] at h
      | ok r =>
        obtain ⟨length, value⟩ := r
        simp only [hv, Except.ok.injEq, Prod.mk.injEq] at h
        obtain ⟨rfl, rfl⟩ := h
        refine ⟨hw, htail, ?_⟩
        have hsemicolon : ∀ b ∈ (s.drop (offset + 1))[length]?, b = 59 :=
          fun b hb => mem_singleton.mp ((indexUnescaped_spec hv).2.2 b hb)
        rcases drop_succ_behind hsemicolon with hnil | hbehind
        · exact .inl hnil
        · exact .inr ⟨s.take (offset + 1) ++ (s.drop (offset + 1)).take length, by
            rw [append_assoc, ← hbehind, take_append_drop]⟩
    · simp only [Except.ok.injEq, Prod.mk.injEq] at h
      obtain ⟨rfl, rfl⟩ := h
      refine ⟨hw, htail, ?_⟩
      have hsemicolon : ∀ b ∈ s[offset]?, b = 59 := by
        intro b hb
        have := hstop b hb
        have hne : b ≠ 61 := fun h => heq (h ▸ hb)
        simpa [hne] using this
      rcases drop_succ_behind hsemicolon with hnil | hbehind
      · exact .inl hnil
      · exact .inr ⟨_, hbehind⟩

/-- The key of an option at the front of the text, written without a backslash, is what the first piece
is cut to. -/
theorem cut_takeWhile_of_plain {tail : Bytes} (hw : Writes [61, 59] a.raw a.key) (hs : s = a.raw ++ tail)
    (htail : ∀ b ∈ tail.head?, b = 61 ∨ b = 59) (hp : 92 ∉ a.raw) :
    (cut 61 (s.takeWhile (· != 59))).1 = a.key := by
  obtain ⟨heq, hmem⟩ := hw.eq_of_plain hp
  have hraw : ∀ b ∈ a.key, b ≠ 61 ∧ b ≠ 59 := by simpa [heq] using hmem
  rw [cut_fst, hs, heq, takeWhile_append_of_pos (by simpa using fun b hb => (hraw b hb).2),
    takeWhile_append_of_pos (by simpa using fun b hb => (hraw b hb).1)]
  rcases tail with _ | ⟨b, tail⟩
  · simp
  · rcases htail b rfl with rfl | rfl <;> simp

variable {l : List Argument} {turns : Nat}

/-- The options of a text that is not empty are the one at the front and those of the rest. -/
theorem arguments_succ (hs : s ≠ []) (h : arguments (turns + 1) s = .ok l) :
    ∃ first rest l', readArgument s = .ok (first, rest) ∧ arguments turns rest = .ok l' ∧ l = first :: l' := by
  rw [arguments, if_neg hs] at h
  cases hr : readArgument s with
  | error e => simp [hr, bind, Except.bind] at h
  | ok r =>
    cases hrest : arguments turns r.2 with
    | error e => simp [hr, hrest, bind, Except.bind] at h
    | ok l' =>
      simp only [hr, hrest, bind, Except.bind, pure, Except.pure, Except.ok.injEq] at h
      exact ⟨r.1, r.2, l', rfl, hrest, h.symm⟩

/-- The check sees every key that is written without a backslash. -/
theorem exists_piece_of_plain (h : arguments turns s = .ok l) (ha : a ∈ l) (hp : 92 ∉ a.raw) :
    ∃ piece ∈ s.splitOn 59, (cut 61 piece).1 = a.key := by
  induction turns generalizing s l with
  | zero =>
    cases h
    cases ha
  | succ turns ih =>
    by_cases hs : s = []
    · rw [hs, arguments_nil] at h
      cases h
      cases ha
    obtain ⟨first, rest, l', hr, hrest, rfl⟩ := arguments_succ hs h
    obtain ⟨hw, ⟨tail, htext, htail⟩, hbehind⟩ := readArgument_spec hr
    rcases mem_cons.mp ha with rfl | ha
    · exact ⟨_, mem_of_mem_head? (head?_splitOn 59 s), cut_takeWhile_of_plain hw htext htail hp⟩
    obtain ⟨piece, hpiece, hcut⟩ := ih hrest ha
    rcases hbehind with rfl | ⟨front, rfl⟩
    · rw [arguments_nil] at hrest
      cases hrest
      cases ha
    · refine ⟨piece, ?_, hcut⟩
      rw [splitOn_append_cons_of_beq front rest (beq_self_eq_true 59)]
      exact mem_append_right _ hpiece

/-- The plugin reads the options of the text, one after the other. -/
theorem addArguments_eq (turns : Nat) (s : Bytes) (opts : Args) : addArguments turns s opts =
    (arguments turns s).map fun l => l.foldl (fun opts a => opts.add a.key a.value) opts := by
  induction turns generalizing s opts with
  | zero => rfl
  | succ turns ih =>
    rw [addArguments, arguments]
    split_ifs
    · rfl
    · cases readArgument s with
      | error e => rfl
      | ok r =>
        simp only [bind, Except.bind, ih]
        cases arguments turns r.2 <;> rfl

/-- The values of a key, in their order. -/
def valuesOf (key : Bytes) (l : List Argument) : List Bytes := (l.filter (·.key = key)).map Argument.value

theorem lookup_foldl_add (l : List Argument) (opts : Args) (key : Bytes) :
    (l.foldl (fun opts a => opts.add a.key a.value) opts).lookup key =
      if valuesOf key l = [] then opts.lookup key else some ((opts.lookup key).getD [] ++ valuesOf key l) := by
  induction l generalizing opts with
  | nil => rfl
  | cons a l ih =>
    rw [foldl_cons, ih, Args.add]
    by_cases hkey : a.key = key
    · subst hkey
      by_cases hl : valuesOf a.key l = [] <;> simp_all [valuesOf]
    · simp [AList.lookup_insert_ne (Ne.symm hkey), valuesOf, hkey]

/-- No option of `s` is called `key`. -/
def Lacks (s key : Bytes) : Prop := ∀ opts, parsePluginOptions s = .ok opts → opts.lookup key = none

theorem not_lacks_of_lookup {v : List Bytes}
    (h : (parsePluginOptions s).toOption.bind (fun opts => opts.lookup key) = some v) : ¬ Lacks s key := by
  intro hlacks
  cases hs : parsePluginOptions s with
  | error e => simp [hs, Except.toOption] at h
  | ok opts => simp [hs, Except.toOption, hlacks opts hs] at h

theorem lacks_iff :
    Lacks s key ↔ ∀ l, arguments s.length s = .ok l → ∀ a ∈ l, a.key ≠ key := by
  unfold Lacks parsePluginOptions
  rw [addArguments_eq]
  cases arguments s.length s with
  | error e => simp [Except.map]
  | ok l =>
    simp only [Except.map, Except.ok.injEq, forall_eq', lookup_foldl_add]
    simp [valuesOf]

/-- Where the check finds nothing, a key `cert` is written with a backslash. -/
theorem backslash_of_not_pluginNamesLocalFile (h : pluginNamesLocalFile s = false) (hl : arguments s.length s = .ok l)
    (ha : a ∈ l) (hkey : a.key = cert) : 92 ∈ a.raw := by
  by_contra hp
  obtain ⟨piece, hpiece, hcut⟩ := exists_piece_of_plain hl ha hp
  have hcert : equalFold (trimSpace cert) cert = true := by decide +kernel
  have hfound : pluginNamesLocalFile s = true :=
    any_eq_true.mpr ⟨piece, hpiece, by rw [hcut, hkey, hcert]⟩
  rw [h] at hfound
  cases hfound

end SingBox.Parser
