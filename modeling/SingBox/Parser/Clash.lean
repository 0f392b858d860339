import SingBox.Parser.Plugin

/-!
# The plugin options of a Clash proxy

A Clash proxy has the options of its Shadowsocks plugin as a map. They are joined to the text the plugin
reads, as they are: the text has a backslash before a semicolon or a backslash that belongs to a value,
and none is written.
-/
namespace SingBox.Parser.Clash

open Lib.Strings List

/-- A value of `plugin-opts`; a number with what it is written as. -/
inductive Value where
  | null
  | bool (b : Bool)
  | string (s : Bytes)
  | number (zero : Bool) (text : Bytes)

/-- `F.ToString`. -/
def Value.text : Value → Bytes
  | .null => []
  | .bool b => ascii (toString b)
  | .string s => s
  | .number _ text => text

/-- `plugin-opts`. -/
abbrev PluginOpts := Bytes → Option Value

def pluginString (opts : PluginOpts) (key : Bytes) : Bytes := ((opts key).getD .null).text

def pluginBool (opts : PluginOpts) (key : Bytes) : Bool :=
  match opts key with
  | some (.bool b) => b
  | some (.string s) => s = ascii "true" || s = ascii "1"
  | some (.number zero _) => !zero
  | _ => false

/-- The keys that are written. -/
inductive Key where
  | obfs | obfsHost | mode | host | path | tls | mux
  deriving DecidableEq

def Key.text : Key → Bytes
  | .obfs => ascii "obfs"
  | .obfsHost => ascii "obfs-host"
  | .mode => ascii "mode"
  | .host => ascii "host"
  | .path => ascii "path"
  | .tls => ascii "tls"
  | .mux => ascii "mux"

/-- An argument: a key with its value. -/
structure Setting where
  key : Key
  value : Bytes
  deriving DecidableEq

/-- `key=value`, and `tls` as a flag. -/
def Setting.text (s : Setting) : Bytes := if s.key = .tls then s.key.text else s.key.text ++ 61 :: s.value

/-- An argument that is written unless its value is empty. -/
def unlessEmpty (key : Key) (value : Bytes) : List Setting := if value = [] then [] else [⟨key, value⟩]

/-- The name of the plugin and its arguments, one by one. -/
def pluginSettings (plugin : String) (opts : PluginOpts) : Except String (String × List Setting) :=
  let mode := pluginString opts (ascii "mode")
  let host := pluginString opts (ascii "host")
  if plugin = "" then .ok ("", [])
  else if plugin = "obfs" ∨ plugin = "obfs-local" ∨ plugin = "simple-obfs" then
    .ok ("obfs-local", unlessEmpty .obfs mode ++ unlessEmpty .obfsHost host)
  else if plugin = "v2ray-plugin" then
    .ok ("v2ray-plugin", unlessEmpty .mode mode ++ unlessEmpty .host host ++
      unlessEmpty .path (pluginString opts (ascii "path")) ++
      (if pluginBool opts (ascii "tls") then [⟨.tls, ascii "1"⟩] else []) ++
      [⟨.mux, ascii (if pluginBool opts (ascii "mux") then "1" else "0")⟩])
  else .error ("unsupported Shadowsocks plugin: " ++ plugin)

/-- `strings.Join(arguments, ";")`. -/
def render (settings : List Setting) : Bytes := [59].intercalate (settings.map Setting.text)

def shadowsocksPlugin (plugin : String) (opts : PluginOpts) : Except String (String × Bytes) :=
  (pluginSettings plugin opts).map fun r => (r.1, render r.2)

/-- The plugin reads the arguments from the text, each with its value, and nothing else. -/
def ReadsBack (text : Bytes) (settings : List Setting) : Prop :=
  ∃ args, parsePluginOptions text = .ok args ∧
    ∀ key values, args.lookup key = some values ↔ ∃ s ∈ settings, s.key.text = key ∧ [s.value] = values

/-- The value has no byte that means something to the plugin. -/
def Plain (value : Bytes) : Prop := 59 ∉ value ∧ 92 ∉ value

instance (value : Bytes) : Decidable (Plain value) := inferInstanceAs (Decidable (_ ∧ _))

theorem Key.text_injective : Function.Injective Key.text := by
  intro a b
  cases a <;> cases b <;> decide +kernel

theorem Key.text_plain (key : Key) : key.text ≠ [] ∧ ∀ b ∈ key.text, b ∉ [61, 59] ∧ b ≠ 92 := by
  cases key <;> decide +kernel

/-! ## One argument -/

variable {term a m raw tail value : Bytes} {settings : List Setting} {s : Setting}

theorem scanUnescaped_plain (ha : ∀ b ∈ a, b ∉ term ∧ b ≠ 92) (htail : ∀ b ∈ tail.head?, b ∈ term) :
    scanUnescaped term (a ++ tail) = some (a.length, a) := by
  induction a with
  | nil =>
    cases tail with
    | nil => rfl
    | cons b tail =>
      unfold scanUnescaped
      exact if_pos (htail b rfl)
  | cons b a ih =>
    obtain ⟨hb, ha⟩ := forall_mem_cons.mp ha
    unfold scanUnescaped
    simp [hb.1, hb.2, ih ha]

/-- Every escape makes a text longer, by a backslash. -/
theorem writes_count (h : Writes [59] raw m) :
    ∃ k, raw.length = m.length + k ∧ raw.count 92 = m.count 92 + k ∧ (k = 0 → Plain m) := by
  induction h with
  | nil => exact ⟨0, rfl, rfl, fun _ => ⟨not_mem_nil, not_mem_nil⟩⟩
  | plain hb hne _ ih =>
    obtain ⟨k, hlength, hcount, hplain⟩ := ih
    refine ⟨k, by simp [hlength]; omega, by simp [hcount, hne], fun hk => ⟨?_, ?_⟩⟩
    · simpa [(hplain hk).1, eq_comm] using hb
    · simp [(hplain hk).2, hne.symm]
  | @escaped b _ _ _ ih =>
    obtain ⟨k, hlength, hcount, _⟩ := ih
    refine ⟨k + 1, by simp [hlength]; omega, ?_, nofun⟩
    simp only [count_cons, hcount, beq_self_eq_true, if_true]
    omega

/-- A value that is read as itself has neither a semicolon nor a backslash. -/
theorem plain_of_writes (h : Writes [59] raw m) (hp : raw <+: m ++ tail) (htail : ∀ b ∈ tail.head?, b = 59) :
    Plain m := by
  obtain ⟨k, hlength, hcount, hplain⟩ := writes_count h
  have hraw : raw = m ++ tail.take k := by
    rw [prefix_iff_eq_take.mp hp, hlength, take_length_add_append]
  -- what is read beyond the value would be backslashes, and a semicolon comes first
  rw [hraw, count_append, Nat.add_left_cancel_iff] at hcount
  cases k with
  | zero => exact hplain rfl
  | succ k =>
    cases tail with
    | nil => simp at hcount
    | cons b tail =>
      have hle := (tail.take k).count_le_length (a := 92)
      rw [htail b rfl, take_succ_cons, count_cons_of_ne (by decide)] at hcount
      rw [length_take] at hle
      omega

/-- What the plugin reads of an argument: the key, and the value up to where it seems to end. -/
theorem readArgument_text (hs : s.key ≠ .tls) :
    readArgument (s.text ++ tail) = (indexUnescaped (s.value ++ tail) [59]).map fun r =>
      (⟨s.key.text, s.key.text, r.2⟩, (s.value ++ tail).drop (r.1 + 1)) := by
  obtain ⟨hne, hkey⟩ := s.key.text_plain
  have hscan : scanUnescaped [61, 59] (s.key.text ++ 61 :: (s.value ++ tail)) = some (s.key.text.length, s.key.text) :=
    scanUnescaped_plain hkey (by simp)
  rw [Setting.text, if_neg hs, append_assoc, cons_append, readArgument, indexUnescaped, hscan]
  cases h : indexUnescaped (s.value ++ tail) [59] <;> simp [hne, h, Except.map]

theorem readArgument_flag (htail : ∀ b ∈ tail.head?, b = 59) (hs : s.key = .tls) :
    readArgument (s.text ++ tail) = .ok (⟨s.key.text, s.key.text, ascii "1"⟩, tail.drop 1) := by
  obtain ⟨hne, hkey⟩ := s.key.text_plain
  have hscan : scanUnescaped [61, 59] (s.key.text ++ tail) = some (s.key.text.length, s.key.text) :=
    scanUnescaped_plain hkey fun b hb => by simp [htail b hb]
  have hnot : (s.key.text ++ tail)[s.key.text.length]? ≠ some 61 := by
    rw [getElem?_append_right (le_refl _), Nat.sub_self, ← head?_eq_getElem?]
    exact fun h => absurd (htail 61 h) (by decide)
  rw [Setting.text, if_pos hs, readArgument, indexUnescaped, hscan]
  simp [hne, hnot]

/-! ## All arguments -/

/-- What stands behind an argument. -/
def behind : List Setting → Bytes
  | [] => []
  | settings => 59 :: render settings

theorem head_behind (settings : List Setting) : ∀ b ∈ (behind settings).head?, b = 59 := by
  cases settings <;> simp [behind]

theorem drop_behind (settings : List Setting) : (behind settings).drop 1 = render settings := by
  cases settings <;> rfl

theorem render_cons (s : Setting) (settings : List Setting) : render (s :: settings) = s.text ++ behind settings := by
  cases settings with
  | nil | cons => simp [render, behind, intercalate]

/-- A flag has the value that the plugin reads for it. -/
def Setting.Ok (s : Setting) : Prop := s.key = .tls → s.value = ascii "1"

/-- The argument at the front is read with a value, and what is behind it is left if the value is its own. -/
theorem readArgument_render {r : Argument × Bytes} (hs : s.Ok) (h : readArgument (render (s :: settings)) = .ok r) :
    r.1.key = s.key.text ∧ (r.1.value = s.value → Plain s.value) := by
  rw [render_cons] at h
  by_cases hflag : s.key = .tls
  · rw [readArgument_flag (head_behind settings) hflag] at h
    cases h
    exact ⟨rfl, fun _ => by rw [hs hflag]; decide +kernel⟩
  rw [readArgument_text hflag] at h
  cases hi : indexUnescaped (s.value ++ behind settings) [59] with
  | error e => simp [hi, Except.map] at h
  | ok r =>
    rw [hi] at h
    cases h
    refine ⟨rfl, fun hvalue => ?_⟩
    obtain ⟨hw, -⟩ := indexUnescaped_spec hi
    rw [show r.2 = s.value from hvalue] at hw
    exact plain_of_writes hw ⟨_, take_append_drop _ _⟩ (head_behind settings)

theorem readArgument_plain (hs : s.Ok) (hp : Plain s.value) :
    readArgument (render (s :: settings)) = .ok (⟨s.key.text, s.key.text, s.value⟩, render settings) := by
  rw [render_cons]
  by_cases hflag : s.key = .tls
  · rw [readArgument_flag (head_behind settings) hflag, hs hflag, drop_behind]
  have hscan : scanUnescaped [59] (s.value ++ behind settings) = some (s.value.length, s.value) := by
    refine scanUnescaped_plain (fun b hb => ⟨?_, ?_⟩) fun b hb => mem_singleton.mpr (head_behind settings b hb)
    · exact fun h => hp.1 (mem_singleton.mp h ▸ hb)
    · exact fun h => hp.2 (h ▸ hb)
  rw [readArgument_text hflag, indexUnescaped, hscan, ← drop_behind settings]
  simp [Except.map]

theorem text_ne_nil : s.text ≠ [] := by
  rw [Setting.text]
  split <;> simp [s.key.text_plain.1]

theorem render_ne_nil : render (s :: settings) ≠ [] := by
  rw [render_cons]
  exact append_ne_nil_of_left_ne_nil text_ne_nil _

theorem length_render_lt (s : Setting) (settings : List Setting) :
    (render settings).length < (render (s :: settings)).length := by
  have htext := length_pos_iff.mpr (text_ne_nil (s := s))
  rw [render_cons, ← drop_behind settings, length_append, length_drop]
  omega

variable {turns : Nat} {l : List Argument}

theorem arguments_plain (hs : ∀ s ∈ settings, s.Ok ∧ Plain s.value) (hturns : (render settings).length ≤ turns) :
    arguments turns (render settings) = .ok (settings.map fun s => ⟨s.key.text, s.key.text, s.value⟩) := by
  induction settings generalizing turns with
  | nil => cases turns <;> rfl
  | cons s settings ih =>
    obtain ⟨hs, hrest⟩ := forall_mem_cons.mp hs
    have hlen := length_render_lt s settings
    cases turns with
    | zero => omega
    | succ turns =>
      rw [arguments, if_neg render_ne_nil, readArgument_plain hs.1 hs.2]
      simp only [bind, Except.bind, ih hrest (Nat.le_of_lt_succ (lt_of_lt_of_le hlen hturns))]
      rfl

theorem readsBack_iff_valuesOf {text : Bytes} : ReadsBack text settings ↔ ∃ l, arguments text.length text = .ok l ∧
    ∀ key values, (values ≠ [] ∧ valuesOf key l = values) ↔ ∃ s ∈ settings, s.key.text = key ∧ [s.value] = values := by
  rw [ReadsBack, parsePluginOptions, addArguments_eq]
  cases arguments text.length text with
  | error e => simp [Except.map]
  | ok l =>
    simp only [Except.map, Except.ok.injEq, exists_eq_left', lookup_foldl_add, AList.lookup_empty]
    refine forall₂_congr fun key values => iff_congr ?_ Iff.rfl
    by_cases hl : valuesOf key l = []
    · simp +contextual [hl, eq_comm]
    · simp only [hl, if_false, Option.getD_none, nil_append, Option.some.injEq]
      exact ⟨fun h => ⟨h ▸ hl, h⟩, And.right⟩

/-- No two arguments have the same key. -/
abbrev Apart (settings : List Setting) : Prop := settings.Pairwise fun s t => s.key ≠ t.key

/-- Every argument is read back only if its value is plain. -/
theorem plain_of_valuesOf (hok : ∀ s ∈ settings, s.Ok) (hs : Apart settings)
    (h : arguments turns (render settings) = .ok l) (hturns : (render settings).length ≤ turns)
    (hread : ∀ s ∈ settings, valuesOf s.key.text l = [s.value]) : ∀ s ∈ settings, Plain s.value := by
  induction settings generalizing turns l with
  | nil => nofun
  | cons s settings ih =>
    obtain ⟨hok, hoks⟩ := forall_mem_cons.mp hok
    obtain ⟨hvalue, hvalues⟩ := forall_mem_cons.mp hread
    have hlen := length_render_lt s settings
    cases turns with
    | zero => omega
    | succ turns =>
      obtain ⟨first, rest, l', hr, hrest, rfl⟩ := arguments_succ render_ne_nil h
      obtain ⟨hkey, hplain⟩ := readArgument_render hok hr
      have hfirst : valuesOf s.key.text (first :: l') = first.value :: valuesOf s.key.text l' := by
        simp [valuesOf, show first.key = s.key.text from hkey]
      rw [hfirst] at hvalue
      have hp := hplain (cons.inj hvalue).1
      rw [readArgument_plain hok hp] at hr
      cases hr
      refine forall_mem_cons.mpr ⟨hp, ih hoks hs.of_cons hrest (by omega) fun t ht => ?_⟩
      have hother : s.key.text ≠ t.key.text := fun heq => rel_of_pairwise_cons hs ht (Key.text_injective heq)
      rw [← hvalues t ht]
      simp [valuesOf, hother]

theorem valuesOf_settings (hs : Apart settings) (key : Bytes) (values : List Bytes) :
    (values ≠ [] ∧ valuesOf key (settings.map fun s => ⟨s.key.text, s.key.text, s.value⟩) = values) ↔
      ∃ s ∈ settings, s.key.text = key ∧ [s.value] = values := by
  induction settings with
  | nil => simp +contextual [valuesOf, eq_comm]
  | cons s settings ih =>
    by_cases hkey : s.key.text = key
    · have hother : ∀ t ∈ settings, t.key.text ≠ key := fun t ht heq =>
        rel_of_pairwise_cons hs ht (Key.text_injective (hkey.trans heq.symm))
      have hvalues : valuesOf key ((s :: settings).map fun s => ⟨s.key.text, s.key.text, s.value⟩) = [s.value] := by
        simpa [valuesOf, hkey] using hother
      rw [hvalues, exists_mem_cons_iff]
      constructor
      · exact fun h => Or.inl ⟨hkey, h.2⟩
      · rintro (⟨-, rfl⟩ | ⟨t, ht, heq, -⟩)
        · exact ⟨cons_ne_nil _ _, rfl⟩
        · exact absurd heq (hother t ht)
    · simpa [valuesOf, hkey] using ih hs.of_cons

theorem readsBack_iff (hok : ∀ s ∈ settings, s.Ok) (hs : Apart settings) :
    ReadsBack (render settings) settings ↔ ∀ s ∈ settings, Plain s.value := by
  rw [readsBack_iff_valuesOf]
  constructor
  · rintro ⟨l, hl, hread⟩
    exact plain_of_valuesOf hok hs hl (le_refl _) fun s h => ((hread _ _).mpr ⟨s, h, rfl, rfl⟩).2
  · intro hplain
    exact ⟨_, arguments_plain (fun s h => ⟨hok s h, hplain s h⟩) (le_refl _), valuesOf_settings hs⟩

/-- A key with its value, unless that is empty. -/
def meantFor (key value : Bytes) : List (Bytes × Bytes) := if value = [] then [] else [(key, value)]

/-- The keys to be written, with their values in `plugin-opts`. -/
def meant (plugin : String) (opts : PluginOpts) : List (Bytes × Bytes) :=
  if plugin = "v2ray-plugin" then
    meantFor (ascii "mode") (pluginString opts (ascii "mode")) ++
    meantFor (ascii "host") (pluginString opts (ascii "host")) ++
    meantFor (ascii "path") (pluginString opts (ascii "path")) ++
    (if pluginBool opts (ascii "tls") then [(ascii "tls", ascii "1")] else []) ++
    [(ascii "mux", ascii (if pluginBool opts (ascii "mux") then "1" else "0"))]
  else
    meantFor (ascii "obfs") (pluginString opts (ascii "mode")) ++
    meantFor (ascii "obfs-host") (pluginString opts (ascii "host"))

/-- The plugin reads each key that was meant with its value, and no other. -/
def Survives (plugin : String) (opts : PluginOpts) : Prop :=
  ∃ name text args, shadowsocksPlugin plugin opts = .ok (name, text) ∧ parsePluginOptions text = .ok args ∧
    ∀ key values, args.lookup key = some values ↔ ∃ value, (key, value) ∈ meant plugin opts ∧ [value] = values

def supported : List String := ["obfs", "obfs-local", "simple-obfs", "v2ray-plugin"]

theorem pluginSettings_ok {plugin : String} {opts : PluginOpts} {name : String}
    (h : pluginSettings plugin opts = .ok (name, settings)) : (∀ s ∈ settings, s.Ok) ∧ Apart settings := by
  simp only [pluginSettings, unlessEmpty] at h
  split_ifs at h <;> cases h <;> simp [Setting.Ok]

theorem map_unlessEmpty (key : Key) (value : Bytes) :
    (unlessEmpty key value).map (fun s => (s.key.text, s.value)) = meantFor key.text value := by
  unfold unlessEmpty meantFor
  split <;> rfl

theorem pluginSettings_meant {plugin : String} (h : plugin ∈ supported) (opts : PluginOpts) :
    ∃ name settings, pluginSettings plugin opts = .ok (name, settings) ∧
      settings.map (fun s => (s.key.text, s.value)) = meant plugin opts := by
  unfold pluginSettings meant
  by_cases hv2ray : plugin = "v2ray-plugin"
  · subst hv2ray
    refine ⟨_, _, rfl, ?_⟩
    simp only [map_append, map_unlessEmpty]
    split <;> rfl
  · have hobfs : plugin = "obfs" ∨ plugin = "obfs-local" ∨ plugin = "simple-obfs" := by
      simpa [supported, hv2ray] using h
    have hne : plugin ≠ "" := by rintro rfl; simp at hobfs
    refine ⟨_, _, by rw [if_neg hne, if_pos hobfs], ?_⟩
    simp only [map_append, map_unlessEmpty, hv2ray, if_false]
    rfl

theorem forall_meantFor (key value : Bytes) : (∀ p ∈ meantFor key value, Plain p.2) ↔ Plain value := by
  unfold meantFor
  split <;> simp_all [Plain]

/-- The options survive exactly if none of the values that are written has a semicolon or a backslash. -/
theorem pluginOptions_survive_iff (plugin : String) (opts : PluginOpts) (hplugin : plugin ∈ supported) :
    Survives plugin opts ↔ Plain (pluginString opts (ascii "mode")) ∧ Plain (pluginString opts (ascii "host")) ∧
      (plugin = "v2ray-plugin" → Plain (pluginString opts (ascii "path"))) := by
  obtain ⟨name, settings, hs, hmeant⟩ := pluginSettings_meant hplugin opts
  obtain ⟨hok, hapart⟩ := pluginSettings_ok hs
  have hread : Survives plugin opts ↔ ReadsBack (render settings) settings := by
    simp [Survives, ReadsBack, shadowsocksPlugin, hs, Except.map, ← hmeant, and_assoc]
  have hplain : (∀ s ∈ settings, Plain s.value) ↔ ∀ p ∈ meant plugin opts, Plain p.2 := by simp [← hmeant]
  rw [hread, readsBack_iff hok hapart, hplain, meant]
  by_cases hv2ray : plugin = "v2ray-plugin"
  · have htls : ∀ p ∈ (if pluginBool opts (ascii "tls") then [(ascii "tls", ascii "1")] else []), Plain p.2 := by
      split <;> decide +kernel
    have hmux : Plain (ascii (if pluginBool opts (ascii "mux") then "1" else "0")) := by split <;> decide +kernel
    rw [if_pos hv2ray, forall_mem_append, forall_mem_append, forall_mem_append, forall_mem_append, forall_mem_singleton,
      forall_meantFor, forall_meantFor, forall_meantFor, imp_iff_right hv2ray, and_iff_left hmux,
      and_iff_left htls, and_assoc]
  · rw [if_neg hv2ray, forall_mem_append, forall_meantFor, forall_meantFor]
    simp [hv2ray]

theorem pluginOptions_survive_obfs :
    Survives "obfs" fun key => if key = ascii "host" then some (.string (ascii "a.example")) else none :=
  (pluginOptions_survive_iff _ _ (by decide)).mpr (by decide +kernel)

def semicolonPath : PluginOpts := fun key => if key = ascii "path" then some (.string (ascii "/ws;tls")) else none

/-- It turns TLS on, which the proxy has off. -/
theorem semicolon_lost : ¬Survives "v2ray-plugin" semicolonPath ∧
    (parsePluginOptions (ascii "path=/ws;tls;mux=0")).toOption.bind (fun args => args.lookup (ascii "tls")) =
      some [ascii "1"] := by
  have hread : (parsePluginOptions (ascii "path=/ws;tls;mux=0")).toOption.bind (fun args => args.lookup (ascii "tls")) =
      some [ascii "1"] := by decide +kernel
  refine ⟨?_, hread⟩
  rintro ⟨name, text, args, htext, hargs, hall⟩
  have hrendered :
      shadowsocksPlugin "v2ray-plugin" semicolonPath = .ok ("v2ray-plugin", ascii "path=/ws;tls;mux=0") := by
    decide +kernel
  cases hrendered.symm.trans htext
  rw [hargs] at hread
  obtain ⟨value, hmem, -⟩ := (hall _ _).mp hread
  have hkey : ascii "tls" ∉ (meant "v2ray-plugin" semicolonPath).map Prod.fst := by decide +kernel
  exact hkey (mem_map_of_mem hmem)

end SingBox.Parser.Clash
