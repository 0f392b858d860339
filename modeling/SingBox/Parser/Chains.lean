import SingBox.Parser.Xray

/-!
# Chains of Xray servers after the import

What an imported server dials through, compared with what its document says. The names of a document end at
its border, those of the import do not.
-/
namespace SingBox.Parser.Xray

open Lib List

variable {δ ω : Type} {config : Document δ ω} {d : Nat} {c : XrayCollector δ ω} {name : String} {e : Entry δ ω × Nat}
  {items nodes : List (ParsedOutbound δ ω)} {m : ParsedOutbound δ ω} {o : Outbound δ ω}

def Content.detour : Content δ ω → Option String
  | .server _ detour _ _ _ => some detour
  | _ => none

/-- What dials through it cannot be imported. -/
def Content.broken : Content δ ω → Bool
  | .blackhole | .refused _ => true
  | _ => false

/-- The name a server has in its document. -/
def sourceName (entry : Entry δ ω) (place : Place) : String :=
  if entry.tag = "" then fallbackTag place else entry.tag

/-- The first server of a document that has a name. -/
def firstNamed (config : Document δ ω) (documentIndex : Nat) (name : String) : Option (Entry δ ω × Nat) :=
  config.outbounds.zipIdx.find? fun e =>
    e.1.content.detour.isSome && sourceName e.1 (documentIndex, e.2) == name

def NamesFreedom (config : Document δ ω) (name : String) : Prop :=
  name ≠ "" ∧ ∃ entry ∈ config.outbounds, entry.tag = name ∧ entry.content = .freedom

def NamesBroken (config : Document δ ω) (name : String) : Prop :=
  name ≠ "" ∧ ∃ entry ∈ config.outbounds, entry.tag = name ∧ entry.content.broken = true

def place (o : Outbound δ ω) : Place := o.options.rest.2

def detourOf (o : Outbound δ ω) : String := (o.options.dialer.map Provider.DialerOptions.detour).getD ""

/-- The server at a place. -/
def parseAt (documentIndex : Nat) (e : Entry δ ω × Nat) : Option (ParsedOutbound δ ω) :=
  (parseSourceOutbound e.1 (documentIndex, e.2) (fallbackTag (documentIndex, e.2))).toOption

/-- What the first loop has read. -/
structure Read (d : Nat) (c : XrayCollector δ ω) (s : Reading δ ω) (seen : List (Entry δ ω × Nat)) : Prop where
  nodes : s.nodes = seen.filterMap (parseAt d)
  direct : ∀ t, t ∈ s.directTags ↔ t ≠ "" ∧ ∃ e ∈ seen, e.1.tag = t ∧ e.1.content = .freedom
  refused : ∀ t, t ∈ s.refusedTags ↔ t ≠ "" ∧ ∃ e ∈ seen, e.1.tag = t ∧ e.1.content.broken = true
  collector : s.collector = { c with skipped := s.collector.skipped }

theorem mem_named_iff {tag t : String} : (t ∈ if tag = "" then [] else [tag]) ↔ t ≠ "" ∧ tag = t := by
  split_ifs with h
  · simp only [not_mem_nil, false_iff, not_and]
    rintro hne rfl
    exact hne h
  · rw [mem_singleton]
    constructor
    · rintro rfl
      exact ⟨h, rfl⟩
    · exact fun ht => ht.2.symm

variable {taken : List String} {s : Reading δ ω}

theorem Read.next {seen : List (Entry δ ω × Nat)} (h : Read d c s seen) (e : Entry δ ω × Nat) :
    Read d c (s.next d e) (seen ++ [e]) := by
  have hor : ∀ (P : Entry δ ω × Nat → Prop) t,
      (t ≠ "" ∧ ∃ x ∈ seen ++ [e], x.1.tag = t ∧ P x) ↔
        (t ≠ "" ∧ e.1.tag = t ∧ P e) ∨ (t ≠ "" ∧ ∃ x ∈ seen, x.1.tag = t ∧ P x) := by
    intro P t
    simp only [mem_append, mem_singleton, or_and_right, exists_or, exists_eq_left, and_or_left]
    exact or_comm
  refine ⟨?_, fun t => ?_, fun t => ?_, ?_⟩
  · rw [filterMap_append, ← h.nodes]
    cases hcontent : e.1.content <;> simp [Reading.next, parseSourceOutbound, parseAt, Except.toOption, hcontent]
  · rw [hor, ← h.direct]
    cases hcontent : e.1.content <;> simp only [Reading.next, parseSourceOutbound, hcontent, mem_append, mem_named_iff,
      reduceCtorEq, and_false, false_or, and_true]
  · rw [hor, ← h.refused]
    cases hcontent : e.1.content <;> simp only [Reading.next, parseSourceOutbound, hcontent, Content.broken, mem_append,
      mem_named_iff, Bool.false_eq_true, and_false, false_or, and_true]
  · have hcollector := h.collector
    cases hcontent : e.1.content <;> simp only [Reading.next, parseSourceOutbound, hcontent, Collector.skip]
    case refused => rw [hcollector]; rfl
    all_goals exact hcollector

theorem uniqueTag_not_mem (taken : List String) (base : String) : uniqueTag taken base ∉ taken := by
  simp only [uniqueTag]
  generalize (if base = "" then "server" else base) = base
  split_ifs with htaken
  · exact firstFree_not_mem (numbered_injective (base ++ "-")) taken 1
  · exact htaken

theorem uniqueTag_ne_empty (taken : List String) (base : String) : uniqueTag taken base ≠ "" := by
  have hbase : (if base = "" then "server" else base) ≠ "" := by
    split_ifs with h
    · decide
    · exact h
  simp only [uniqueTag]
  generalize (if base = "" then "server" else base) = base at hbase
  split_ifs with htaken
  · obtain ⟨n, heq, _⟩ := firstFree_eq (fun suffix => base ++ "-" ++ toString suffix) taken taken.length 1
    rw [heq]
    intro hempty
    have := congrArg String.length hempty
    simp at this
  · exact hbase

/-- The names `UniqueTag` gives for these, one after the other, before those that are taken. -/
def giveNames (taken names : List String) : List String :=
  names.foldl (fun taken name => uniqueTag taken name :: taken) taken

/-- The names the servers of a document have in it. -/
def serverNames (documentIndex : Nat) (config : Document δ ω) : List String :=
  config.outbounds.zipIdx.filterMap fun e => e.1.content.detour.map fun _ => sourceName e.1 (documentIndex, e.2)

/-- The names the servers of all documents are given. -/
def givenNames (documents : List (Except String (Document δ ω))) : List String :=
  documents.zipIdx.foldl (fun taken document =>
    giveNames taken (document.1.toOption.elim [] (serverNames document.2))) []

/-- A parsed server before it is renamed. -/
def unnamed (node : ParsedOutbound δ ω) : ParsedOutbound δ ω :=
  { node with outbound := { node.outbound with tag := "" } }

/-- What the second loop has named. -/
structure Named (taken : List String) (s : Naming δ ω) (seen : List (ParsedOutbound δ ω)) : Prop where
  nodes : s.nodes.map unnamed = seen.map unnamed
  taken : s.taken = (s.nodes.map fun node => node.outbound.tag).reverse ++ taken
  nodup : s.taken.Nodup
  named : ∀ node ∈ s.nodes, node.outbound.tag ≠ ""
  tagMap : ∀ t, s.tagMap t = (s.nodes.find? fun node => node.sourceTag == t).map fun node => node.outbound.tag

theorem Named.next {s : Naming δ ω} {seen : List (ParsedOutbound δ ω)} (h : Named taken s seen)
    (node : ParsedOutbound δ ω) : Named taken (s.next node) (seen ++ [node]) where
  nodes := by simp [Naming.next, h.nodes, unnamed]
  taken := by simp [Naming.next, h.taken]
  nodup := nodup_cons.mpr ⟨uniqueTag_not_mem s.taken node.outbound.tag, h.nodup⟩
  named := by
    exact forall_mem_append.mpr ⟨h.named, forall_mem_singleton.mpr (uniqueTag_ne_empty s.taken node.outbound.tag)⟩
  tagMap := by
    intro t
    simp only [Naming.next, List.find?_append, List.find?_cons, List.find?_nil]
    by_cases hsome : (s.tagMap node.sourceTag).isSome
    · rw [if_pos hsome, h.tagMap]
      by_cases ht : node.sourceTag = t
      · subst ht
        rw [h.tagMap, Option.isSome_map] at hsome
        obtain ⟨n, hn⟩ := Option.isSome_iff_exists.mp hsome
        simp [hn]
      · simp [beq_eq_false_iff_ne.mpr ht]
    · rw [if_neg hsome]
      by_cases ht : node.sourceTag = t
      · subst ht
        rw [h.tagMap, Option.isSome_map, Option.not_isSome_iff_eq_none] at hsome
        simp [hsome]
      · rw [Function.update_of_ne (Ne.symm ht), h.tagMap]
        simp [beq_eq_false_iff_ne.mpr ht]

theorem foldl_naming_taken (nodes : List (ParsedOutbound δ ω)) (s : Naming δ ω) :
    (nodes.foldl Naming.next s).taken = giveNames s.taken (nodes.map fun node => node.outbound.tag) := by
  rw [giveNames, foldl_map]
  exact (foldl_hom Naming.taken fun _ _ => rfl).symm

theorem map_tag_parseAt (d : Nat) (config : Document δ ω) :
    (config.outbounds.zipIdx.filterMap (parseAt d)).map (fun node => node.outbound.tag) = serverNames d config := by
  rw [map_filterMap, serverNames]
  refine filterMap_congr fun e _ => ?_
  rcases e with ⟨⟨tag, content⟩, i⟩
  cases content <;> rfl

/-- The third loop: the servers that are imported, and the names of those that are not. -/
theorem foldl_addNode {directTags refusedTags : List String} {tagMap : Provider.Tags}
    (hdetour : ∀ node ∈ nodes, setDetour node.outbound node.detour = node.outbound)
    (hnamed : ∀ node ∈ nodes, node.outbound.tag ≠ "") (c : XrayCollector δ ω) :
    let c' := nodes.foldl (addNode directTags refusedTags tagMap) c
    c'.outbounds = c.outbounds ++ nodes.filterMap (fun node =>
        (resolveDetour directTags refusedTags tagMap node.detour).map (setDetour node.outbound)) ∧
      (∀ t, t ∈ c'.refused ↔ t ∈ c.refused ∨ ∃ node ∈ nodes,
        resolveDetour directTags refusedTags tagMap node.detour = none ∧ node.outbound.tag = t) ∧
      c'.direct = c.direct ∧ c'.taken = c.taken := by
  induction nodes generalizing c with
  | nil => simp
  | cons node nodes ih =>
    obtain ⟨hnode, hnodes⟩ := forall_mem_cons.mp hdetour
    obtain ⟨hname, hnames⟩ := forall_mem_cons.mp hnamed
    obtain ⟨hout, href, hdir, htak⟩ := ih hnodes hnames (addNode directTags refusedTags tagMap c node)
    rw [foldl_cons]
    refine ⟨?_, fun t => ?_, ?_, ?_⟩
    · rw [hout, addNode]
      cases hr : resolveDetour directTags refusedTags tagMap node.detour with
      | none => simp [hr]
      | some detour =>
        by_cases heq : detour = node.detour
        · simp [hr, heq, hnode]
        · simp [hr, heq]
    · rw [href, addNode]
      cases hr : resolveDetour directTags refusedTags tagMap node.detour with
      | none => simp [hr, hname, Collector.skip, eq_comm, or_left_comm, or_assoc]
      | some detour => simp [hr, Collector.add]
    · rw [hdir, addNode]
      split <;> rfl
    · rw [htak, addNode]
      split <;> rfl

theorem parseAt_eq_some {n : ParsedOutbound δ ω} (h : parseAt d e = some n) :
    place n.outbound = (d, e.2) ∧ n.sourceTag = sourceName e.1 (d, e.2) ∧ e.1.content.detour = some n.detour ∧
      n.outbound.options.dialer.isSome ∧ setDetour n.outbound n.detour = n.outbound := by
  rcases e with ⟨⟨tag, content⟩, i⟩
  cases content with
  | server type detour dialer download rest =>
    simp only [parseAt, parseSourceOutbound, Except.toOption, Option.some.injEq] at h
    subst h
    exact ⟨rfl, rfl, rfl, rfl, rfl⟩
  | freedom | blackhole | refused => cases h

theorem parseAt_any (d : Nat) (name : String) (e : Entry δ ω × Nat) :
    (parseAt d e).any (fun node => node.sourceTag == name) =
      (e.1.content.detour.isSome && sourceName e.1 (d, e.2) == name) := by
  rcases e with ⟨⟨tag, content⟩, i⟩
  cases content <;> rfl

/-- The servers of a document, under the names they got. -/
theorem find?_named
    (h : nodes.map unnamed = (config.outbounds.zipIdx.filterMap (parseAt d)).map unnamed) (name : String) :
    (nodes.find? fun node => node.sourceTag == name).map unnamed =
      ((firstNamed config d name).bind (parseAt d)).map unnamed := by
  have hmap : ∀ l : List (ParsedOutbound δ ω), (l.find? fun node => node.sourceTag == name).map unnamed =
      (l.map unnamed).find? fun node => node.sourceTag == name := by
    intro l
    rw [List.find?_map]
    rfl
  rw [hmap, h, ← hmap, List.find?_filterMap]
  simp only [parseAt_any]
  rfl

/-- Where a detour of a document leads. -/
inductive Resolves (items : List (ParsedOutbound δ ω)) (config : Document δ ω) (d : Nat) : String → Option String → Prop
  | none : Resolves items config d "" (some "")
  | direct {name : String} : NamesFreedom config name → Resolves items config d name (some "")
  | server {name : String} {e : Entry δ ω × Nat} {m : ParsedOutbound δ ω} : name ≠ "" → ¬ NamesFreedom config name →
      firstNamed config d name = some e → m ∈ items → place m.outbound = (d, e.2) →
      Resolves items config d name (some m.outbound.tag)
  | broken {name : String} : ¬ NamesFreedom config name → firstNamed config d name = none → NamesBroken config name →
      Resolves items config d name none
  | external {name : String} : name ≠ "" → ¬ NamesFreedom config name → firstNamed config d name = none →
      ¬ NamesBroken config name → Resolves items config d name (some name)

theorem Resolves.mono {items' : List (ParsedOutbound δ ω)} {r : Option String} (h : Resolves items config d name r)
    (hsub : items ⊆ items') :
    Resolves items' config d name r := by
  cases h with
  | none => exact .none
  | direct hf => exact .direct hf
  | server hne hf hfirst hm hplace => exact .server hne hf hfirst (hsub hm) hplace
  | broken hf hfirst hb => exact .broken hf hfirst hb
  | external hne hf hfirst hb => exact .external hne hf hfirst hb

theorem resolves_resolveDetour (hs : Read d c s config.outbounds.zipIdx) {n : Naming δ ω} (hn : Named taken n s.nodes)
    (name : String) :
    Resolves n.nodes config d name (resolveDetour s.directTags s.refusedTags n.tagMap name) := by
  have hfirst := find?_named (hs.nodes ▸ hn.nodes) name
  have hfreedom : name ∈ s.directTags ↔ NamesFreedom config name := by
    rw [hs.direct, NamesFreedom, exists_mem_zipIdx _ fun e : Entry δ ω => e.tag = name ∧ e.content = .freedom]
  have hbroken : name ∈ s.refusedTags ↔ NamesBroken config name := by
    rw [hs.refused, NamesBroken, exists_mem_zipIdx _ fun e : Entry δ ω => e.tag = name ∧ e.content.broken = true]
  rw [resolveDetour, hn.tagMap]
  split_ifs with hempty hf hnamed hb
  · rw [hempty]
    exact .none
  · exact .direct (hfreedom.mp hf)
  · cases hm : n.nodes.find? fun node => node.sourceTag == name with
    | none => simp [hm] at hnamed
    | some m =>
      rw [hm] at hfirst
      obtain ⟨k, hk, hkm⟩ := Option.map_eq_some_iff.mp hfirst.symm
      obtain ⟨e, he, hparse⟩ := Option.bind_eq_some_iff.mp hk
      refine .server hempty (mt hfreedom.mpr hf) he (mem_of_find?_eq_some hm) ?_
      have hplace : place (unnamed k).outbound = place (unnamed m).outbound := by rw [hkm]
      exact hplace.symm.trans (parseAt_eq_some hparse).1
  all_goals
    have hnone : n.nodes.find? (fun node => node.sourceTag == name) = none := by
      by_contra hne
      obtain ⟨m, hm⟩ := Option.ne_none_iff_exists'.mp hne
      exact hnamed (by simpa [hm] using hn.named m (mem_of_find?_eq_some hm))
    rw [hnone, Option.map_none, eq_comm, Option.map_eq_none_iff] at hfirst
    have hnot : firstNamed config d name = none := by
      by_contra hne
      obtain ⟨e, he⟩ := Option.ne_none_iff_exists'.mp hne
      have hserver := List.find?_some he
      rw [← parseAt_any] at hserver
      rw [he, Option.bind_some] at hfirst
      simp [hfirst] at hserver
  · exact .broken (mt hfreedom.mpr hf) hnot (hbroken.mp hb)
  · exact .external hempty (mt hfreedom.mpr hf) hnot (mt hbroken.mpr hb)

variable (documents : List (Except String (Document δ ω)))

/-- The entry of a place. -/
structure At (p : Place) (config : Document δ ω) (entry : Entry δ ω) :
    Prop where
  document : documents[p.1]? = some (.ok config)
  entry : config.outbounds[p.2]? = some entry

/-- What the collector has, as the documents have it: `items` are the servers under their new names. -/
structure Collected (c : XrayCollector δ ω)
    (items : List (ParsedOutbound δ ω)) : Prop where
  outbounds : ∀ o ∈ c.outbounds, ∃ m ∈ items, ∃ config r, documents[(place m.outbound).1]? = some (.ok config) ∧
    Resolves items config (place m.outbound).1 m.detour (some r) ∧ setDetour m.outbound r = o
  imported : ∀ m ∈ items, m.outbound.tag ∈ c.refused ∨ ∃ r, setDetour m.outbound r ∈ c.outbounds
  source : ∀ m ∈ items, ∃ config entry, At documents (place m.outbound) config entry ∧
    entry.content.detour = some m.detour ∧ m.outbound.options.dialer.isSome
  tags : (c.outbounds.map Provider.Outbound.tag).Sublist (items.map fun m => m.outbound.tag)
  named : ∀ m ∈ items, m.outbound.tag ≠ ""
  taken : c.taken = (items.map fun m => m.outbound.tag).reverse
  nodup : c.taken.Nodup
  direct : c.direct = []

variable {documents} in
theorem Collected.items_nodup (h : Collected documents c items) : (items.map fun m => m.outbound.tag).Nodup :=
  nodup_reverse.mp (h.taken ▸ h.nodup)

/-- A server of a document, behind the loop that names them. -/
theorem parsed_of_mem (h : nodes.map unnamed = (config.outbounds.zipIdx.filterMap (parseAt d)).map unnamed)
    (hm : m ∈ nodes) : (place m.outbound).1 = d ∧ setDetour m.outbound m.detour = m.outbound ∧
      m.outbound.options.dialer.isSome ∧ ∃ entry, config.outbounds[(place m.outbound).2]? = some entry ∧
        entry.content.detour = some m.detour := by
  have hmem : unnamed m ∈ (config.outbounds.zipIdx.filterMap (parseAt d)).map unnamed :=
    h ▸ mem_map_of_mem hm
  obtain ⟨n, hn, hnm⟩ := mem_map.mp hmem
  obtain ⟨e, he, hparse⟩ := mem_filterMap.mp hn
  obtain ⟨hplace, _, hdetour, hdialer, hset⟩ := parseAt_eq_some hparse
  have hoptions : n.outbound.options = m.outbound.options := congrArg (fun n => n.outbound.options) hnm
  have hsame : n.detour = m.detour := congrArg (fun n => n.detour) hnm
  have hplace : place m.outbound = (d, e.2) := by rw [← hplace, place, place, hoptions]
  refine ⟨by rw [hplace], ?_, hoptions ▸ hdialer, e.1, ?_, by rw [hdetour, hsame]⟩
  · have := congrArg Provider.Outbound.options hset
    simp only [setDetour, hoptions, hsame] at this ⊢
    rw [this]
  · rw [hplace]
    exact mem_zipIdx_iff_getElem?.mp he

theorem sublist_tags (resolve : ParsedOutbound δ ω → Option String) (nodes : List (ParsedOutbound δ ω)) :
    ((nodes.filterMap fun node => (resolve node).map (setDetour node.outbound)).map Provider.Outbound.tag).Sublist
      (nodes.map fun node => node.outbound.tag) := by
  induction nodes with
  | nil => exact .slnil
  | cons node nodes ih =>
    cases hr : resolve node with
    | none => simpa [hr] using ih.trans (sublist_cons_self _ _)
    | some r => simpa [hr, setDetour] using ih

variable {documents} in
theorem Collected.parseDocument (h : Collected documents c items)
    (hd : documents[d]? = some (.ok config)) (hremarks : config.remarks = "") :
    ∃ items', Collected documents (parseDocument c config d) items' ∧
      (parseDocument c config d).taken = giveNames c.taken (serverNames d config) := by
  have hs : Read d c (readDocument c config d) config.outbounds.zipIdx :=
    foldl_seen (Read d c) (fun _ _ e h => h.next e) _ ⟨rfl, by simp, by simp, rfl⟩
  rw [Xray.parseDocument]
  generalize readDocument c config d = s at hs
  have hcollector : s.collector.outbounds = c.outbounds ∧ s.collector.refused = c.refused ∧
      s.collector.direct = c.direct ∧ s.collector.taken = c.taken := by
    rw [hs.collector]
    exact ⟨rfl, rfl, rfl, rfl⟩
  obtain ⟨hout, href, hdir, htak⟩ := hcollector
  have hnames : s.nodes.map (fun node => node.outbound.tag) = serverNames d config := by
    rw [hs.nodes, map_tag_parseAt]
  split_ifs with hnodes
  · rw [hnodes] at hnames
    exact ⟨items, ⟨hout ▸ h.outbounds, hout ▸ href ▸ h.imported, h.source, hout ▸ h.tags, h.named, htak ▸ h.taken,
      htak ▸ h.nodup, hdir.trans h.direct⟩, by rw [htak, ← hnames]; rfl⟩
  have hn := foldl_seen (Named s.collector.taken) (fun _ _ node h => h.next node) s.nodes
    (b := ⟨s.collector.taken, fun _ => none, []⟩) ⟨rfl, rfl, htak ▸ h.nodup, by simp, by simp⟩
  have htaken := foldl_naming_taken s.nodes ⟨s.collector.taken, fun _ => none, []⟩
  rw [selectNodes, if_pos hremarks, addNodes]
  generalize s.nodes.foldl Naming.next ⟨s.collector.taken, fun _ => none, []⟩ = n at hn htaken
  have hparsed := fun (m : ParsedOutbound δ ω) (hm : m ∈ n.nodes) => parsed_of_mem (hs.nodes ▸ hn.nodes) hm
  obtain ⟨hout', href', hdir', htak'⟩ :=
    foldl_addNode (fun m hm => (hparsed m hm).2.1) hn.named { s.collector with taken := n.taken }
  dsimp only at hout' href' hdir' htak' ⊢
  refine ⟨items ++ n.nodes, ⟨?_, ?_, ?_, ?_, ?_, ?_, ?_, hdir'.trans (hdir.trans h.direct)⟩,
    by rw [htak', htaken, htak, hnames]⟩
  · intro o ho
    rw [hout', hout] at ho
    rcases mem_append.mp ho with ho | ho
    · obtain ⟨m, hm, config', r, hconfig, hr, hset⟩ := h.outbounds o ho
      exact ⟨m, mem_append_left _ hm, config', r, hconfig, hr.mono (subset_append_left _ _), hset⟩
    obtain ⟨m, hm, hset⟩ := mem_filterMap.mp ho
    obtain ⟨r, hr, hset⟩ := Option.map_eq_some_iff.mp hset
    have hresolves := resolves_resolveDetour hs hn m.detour
    rw [hr, ← (hparsed m hm).1] at hresolves
    exact ⟨m, mem_append_right _ hm, config, r, by rw [(hparsed m hm).1, hd],
      hresolves.mono (subset_append_right _ _), hset⟩
  · intro m hm
    rcases mem_append.mp hm with hm | hm
    · refine (h.imported m hm).imp (fun hr => (href' _).mpr (.inl (href ▸ hr))) ?_
      rintro ⟨r, hr⟩
      exact ⟨r, by rw [hout', hout]; exact mem_append_left _ hr⟩
    cases hr : resolveDetour s.directTags s.refusedTags n.tagMap m.detour with
    | none => exact .inl ((href' _).mpr (.inr ⟨m, hm, hr, rfl⟩))
    | some r =>
      refine .inr ⟨r, ?_⟩
      rw [hout']
      exact mem_append_right _ (mem_filterMap.mpr ⟨m, hm, by rw [hr]; rfl⟩)
  · intro m hm
    rcases mem_append.mp hm with hm | hm
    · exact h.source m hm
    · obtain ⟨hplace, _, hdialer, entry, hentry, hdetour⟩ := hparsed m hm
      exact ⟨config, entry, ⟨by rw [hplace, hd], hentry⟩, hdetour, hdialer⟩
  · rw [hout', hout, map_append, map_append]
    exact h.tags.append (sublist_tags _ n.nodes)
  · exact forall_mem_append.mpr ⟨h.named, hn.named⟩
  · rw [htak', hn.taken, htak, h.taken, map_append, reverse_append]
  · rw [htak']
    exact hn.nodup

variable (hremarks : ∀ config, .ok config ∈ documents → config.remarks = "")

include hremarks in
/-- What is collected from documents without remarks. -/
theorem collected :
    ∃ items, Collected documents (collectDocuments documents) items ∧
      (collectDocuments documents).taken = givenNames documents := by
  refine foldl_rel (r := fun c taken => ∃ items, Collected documents c items ∧ c.taken = taken)
    ⟨[], ⟨nofun, nofun, nofun, .slnil, nofun, rfl, .nil, rfl⟩, rfl⟩ fun e he c taken h => ?_
  obtain ⟨items, hitems, rfl⟩ := h
  have hdoc : documents[e.2]? = some e.1 := mem_zipIdx_iff_getElem?.mp he
  rw [collectDocument]
  cases hconfig : e.1 with
  | error reason =>
    exact ⟨items, ⟨hitems.1, hitems.2, hitems.3, hitems.4, hitems.5, hitems.6, hitems.7, hitems.8⟩, rfl⟩
  | ok config =>
    rw [hconfig] at hdoc
    exact hitems.parseDocument hdoc (hremarks config (mem_of_getElem? hdoc))

theorem detourOf_setDetour (h : o.options.dialer.isSome) (r : String) :
    detourOf (setDetour o r) = r := by
  obtain ⟨dialer, hdialer⟩ := Option.isSome_iff_exists.mp h
  simp [detourOf, setDetour, Provider.Options.mapDialer, hdialer]

theorem detourOf_mem_references (h : detourOf o ≠ "") : detourOf o ∈ o.options.references := by
  rw [detourOf] at h ⊢
  cases hdialer : o.options.dialer with
  | none => simp [hdialer] at h
  | some dialer => simp [Provider.Options.references, hdialer]

def imported : List (Outbound δ ω) :=
  (resolveChains (parseXrayDocuments documents)).outbounds

include hremarks in
/-- An imported server, and the imported server it dials through. -/
theorem imported_spec :
    ∃ items, Collected documents (collectDocuments documents) items ∧
      (∀ o ∈ imported documents, o ∈ (collectDocuments documents).outbounds) ∧
      ∀ o ∈ imported documents, ∀ m ∈ items, detourOf o = m.outbound.tag →
        ∃ r, setDetour m.outbound r ∈ imported documents := by
  obtain ⟨items, h, _⟩ := collected documents hremarks
  have hresult : (parseXrayDocuments documents).outbounds = (collectDocuments documents).outbounds := by
    simp only [parseXrayDocuments, Collector.result, h.direct, not_mem_nil, if_false]
    refine (map_congr_left fun o _ => ?_).trans (map_id _)
    cases o.options.dialer <;> rfl
  refine ⟨items, h, ?_⟩
  have hrefused : (parseXrayDocuments documents).refused = (collectDocuments documents).refused := rfl
  simp only [imported, resolveChains, hrefused]
  split_ifs with hnone
  · rw [hresult]
    refine ⟨fun o ho => ho, fun o ho m hm _ => ?_⟩
    exact (h.imported m hm).resolve_left (by simp [hnone])
  dsimp only
  rw [hresult]
  refine ⟨fun o ho => ?_, fun o ho m hm hdetour => ?_⟩
  · obtain ⟨i, hi, _⟩ := Provider.mem_kept.mp ho
    exact mem_of_getElem? hi
  obtain ⟨i, hi, hintact⟩ := Provider.mem_kept.mp ho
  obtain ⟨hnot, hfollow⟩ := hintact.reference hi
    (hdetour ▸ detourOf_mem_references (hdetour ▸ h.named m hm)) (h.named m hm)
  obtain ⟨r, hr⟩ := (h.imported m hm).resolve_left hnot
  cases hfirst : Provider.firstIndex (collectDocuments documents).outbounds m.outbound.tag with
  | none =>
    rcases Provider.firstIndex_eq_none.mp hfirst with hempty | hno
    · exact absurd hempty (h.named m hm)
    · exact absurd (mem_map_of_mem hr) hno
  | some j =>
    obtain ⟨_, o', ho', htag⟩ := Provider.firstIndex_eq_some hfirst
    obtain ⟨m', hm', _, r', _, _, hset⟩ := h.outbounds o' (mem_of_getElem? ho')
    have hsame : m' = m := inj_on_of_nodup_map h.items_nodup hm' hm (by rw [← htag, ← hset]; rfl)
    exact ⟨r', Provider.mem_kept.mpr ⟨j, by rw [ho', ← hset, hsame], (hfollow j hfirst).2⟩⟩

include hremarks in
theorem imported_tag_mem (ho : o ∈ imported documents) : o.tag ∈ givenNames documents := by
  obtain ⟨items, h, hsub, _⟩ := imported_spec documents hremarks
  obtain ⟨_, _, htaken⟩ := collected documents hremarks
  obtain ⟨m, hm, _, r, _, _, rfl⟩ := h.outbounds o (hsub o ho)
  exact htaken ▸ h.taken ▸ mem_reverse.mpr (mem_map_of_mem hm)

/-- The document lets a server dial through an entry. -/
def DialsThrough (config : Document δ ω) (entry f : Entry δ ω) : Prop :=
  ∃ name, entry.content.detour = some name ∧ name ≠ "" ∧ f ∈ config.outbounds ∧ f.tag = name

/-- What the import makes of the chains of the documents. -/
structure KeepsMeaning : Prop where
  direct : ∀ o ∈ imported documents, ∀ config entry name, At documents (place o) config entry →
    entry.content.detour = some name → NamesFreedom config name → detourOf o = ""
  chained : ∀ o ∈ imported documents, ∀ config entry name, At documents (place o) config entry →
    entry.content.detour = some name → name ≠ "" → ∀ j f, config.outbounds[j]? = some f → f.tag = name →
    f.content.detour.isSome → ∃ p ∈ imported documents, place p = ((place o).1, j) ∧ detourOf o = p.tag ∧
      ∀ q ∈ imported documents, q.tag = p.tag → q = p
  external : ∀ o ∈ imported documents, ∀ config entry name, At documents (place o) config entry →
    entry.content.detour = some name → name ≠ "" → (∀ f ∈ config.outbounds, f.tag ≠ name) →
    detourOf o = name ∧ ∀ p ∈ imported documents, p.tag ≠ name
  whole : ∀ o ∈ imported documents, ∀ config entry, At documents (place o) config entry →
    ∀ f, Relation.TransGen (DialsThrough config) entry f → f.content.broken = false

/-- A name that a document has no outbound for is given to no server, and a server without a tag is not taken for
what has the name `server-N-M` in its document. -/
def Unambiguous : Prop :=
  ∀ p config entry name, At documents p config entry → entry.content.detour = some name → name ≠ "" →
    ((∀ f ∈ config.outbounds, f.tag ≠ name) → name ∉ givenNames documents) ∧
      (¬ NamesFreedom config name → ∀ e, firstNamed config p.1 name = some e → e.1.tag = name)

section
variable {documents}
  (htags : ∀ config, .ok config ∈ documents → ((config.outbounds.map Entry.tag).filter (· ≠ "")).Nodup)
  {entry f : Entry δ ω} {j : Nat} (ho : o ∈ imported documents) (hat : At documents (place o) config entry)
  (hname : entry.content.detour = some name) (hne : name ≠ "")

include hremarks ho hat hname in
/-- Where the detour of an imported server leads: nowhere, to the first server of the name, or to the name. -/
theorem imported_cases :
    (name = "" ∨ NamesFreedom config name) ∧ detourOf o = "" ∨
    (name ≠ "" ∧ ¬ NamesFreedom config name ∧ ∃ e, firstNamed config (place o).1 name = some e ∧
      ∃ p ∈ imported documents, place p = ((place o).1, e.2) ∧ detourOf o = p.tag ∧
        ∀ q ∈ imported documents, q.tag = p.tag → q = p) ∨
    (name ≠ "" ∧ ¬ NamesFreedom config name ∧ firstNamed config (place o).1 name = none ∧
      ¬ NamesBroken config name ∧ detourOf o = name) := by
  obtain ⟨items, h, hsub, hfollow⟩ := imported_spec documents hremarks
  have hunique : ∀ q ∈ imported documents, ∀ p ∈ imported documents, q.tag = p.tag → q = p := fun q hq p hp htag =>
    inj_on_of_nodup_map (h.items_nodup.sublist h.tags) (hsub q hq) (hsub p hp) htag
  obtain ⟨m, hm, config', r, hconfig, hresolves, rfl⟩ := h.outbounds o (hsub o ho)
  obtain ⟨config'', entry', hat', hdetour, hdialer⟩ := h.source m hm
  rw [detourOf_setDetour hdialer]
  change At documents (place m.outbound) config entry at hat
  change _ ∨ (_ ∧ _ ∧ ∃ e, firstNamed config (place m.outbound).1 name = some e ∧ _) ∨
    (_ ∧ _ ∧ firstNamed config (place m.outbound).1 name = none ∧ _)
  cases Except.ok.inj (Option.some.inj (hat.document.symm.trans hconfig))
  cases Except.ok.inj (Option.some.inj (hat'.document.symm.trans hconfig))
  cases Option.some.inj (hat.entry.symm.trans hat'.entry)
  rw [← Option.some.inj (hname.symm.trans hdetour)] at hresolves
  cases hresolves with
  | none => exact .inl ⟨.inl rfl, rfl⟩
  | direct hfreedom => exact .inl ⟨.inr hfreedom, rfl⟩
  | @server _ e m' hne hfreedom hfirst hm' hplace =>
    obtain ⟨r', hp⟩ := hfollow _ ho m' hm' (detourOf_setDetour hdialer _)
    exact .inr (.inl ⟨hne, hfreedom, e, hfirst, _, hp, hplace, rfl, fun q hq htag => hunique q hq _ hp htag⟩)
  | external hne hfreedom hfirst hbroken => exact .inr (.inr ⟨hne, hfreedom, hfirst, hbroken, rfl⟩)

include htags in
theorem entry_unique (hconfig : .ok config ∈ documents) {i : Nat} {e : Entry δ ω}
    (he : config.outbounds[i]? = some e) (hf : config.outbounds[j]? = some f) (hne : e.tag ≠ "")
    (htag : f.tag = e.tag) : i = j := by
  have hpair := pairwise_iff_getElem.mp (pairwise_map.mp (pairwise_filter.mp (htags config hconfig)))
  obtain ⟨hi, rfl⟩ := List.getElem?_eq_some_iff.mp he
  obtain ⟨hj, rfl⟩ := List.getElem?_eq_some_iff.mp hf
  rcases Nat.lt_trichotomy i j with hlt | heq | hlt
  · exact absurd htag.symm (hpair i j hi hj hlt (by simpa using hne) (by simpa [htag] using hne))
  · exact heq
  · exact absurd htag (hpair j i hj hi hlt (by simpa [htag] using hne) (by simpa using hne))

/-- The first server of a name has it, by its tag or without one. -/
theorem firstNamed_eq_some
    (h : firstNamed config d name = some e) : config.outbounds[e.2]? = some e.1 ∧ e.1.content.detour.isSome ∧
      sourceName e.1 (d, e.2) = name := by
  have hserver := List.find?_some h
  rw [Bool.and_eq_true, beq_iff_eq] at hserver
  exact ⟨mem_zipIdx_iff_getElem?.mp (mem_of_find?_eq_some h), hserver⟩

theorem firstNamed_isSome (d : Nat) (hf : config.outbounds[j]? = some f)
    (hserver : f.content.detour.isSome) (hne : f.tag ≠ "") : ∃ e, firstNamed config d f.tag = some e := by
  rw [← Option.isSome_iff_exists, firstNamed, List.find?_isSome]
  exact ⟨(f, j), mem_zipIdx_iff_getElem?.mpr hf, by simp [hserver, sourceName, hne]⟩

theorem At.mem {p : Place} (h : At documents p config entry) :
    .ok config ∈ documents := mem_of_getElem? h.document

include htags in
theorem content_eq (hconfig : .ok config ∈ documents) {e : Entry δ ω}
    (he : e ∈ config.outbounds) (hf : f ∈ config.outbounds) (hne : e.tag ≠ "") (htag : f.tag = e.tag) : f = e := by
  obtain ⟨i, hi⟩ := List.getElem?_of_mem he
  obtain ⟨j, hj⟩ := List.getElem?_of_mem hf
  cases entry_unique htags hconfig hi hj hne htag
  exact Option.some.inj (hj.symm.trans hi)

section
variable (h : Unambiguous documents)
include hremarks h ho hat

include htags hname hne in
theorem Unambiguous.chained
    (hf : config.outbounds[j]? = some f) (htag : f.tag = name) (hserver : f.content.detour.isSome) :
    ∃ p ∈ imported documents, place p = ((place o).1, j) ∧ detourOf o = p.tag ∧
      ∀ q ∈ imported documents, q.tag = p.tag → q = p := by
  subst htag
  have hfreedom : ¬ NamesFreedom config f.tag := by
    rintro ⟨_, g, hg, hgtag, hcontent⟩
    rw [← content_eq htags hat.mem (mem_of_getElem? hf) hg hne hgtag, hcontent] at hserver
    cases hserver
  rcases imported_cases hremarks ho hat hname with ⟨hno, _⟩ | ⟨_, _, e, he, p, hp, hplace, hdetour⟩ | ⟨_, _, hnone, _⟩
  · exact absurd hno (not_or.mpr ⟨hne, hfreedom⟩)
  · have hetag := (h (place o) config entry f.tag hat hname hne).2 hfreedom e he
    rw [← entry_unique htags hat.mem hf (firstNamed_eq_some he).1 hne hetag] at hplace
    exact ⟨p, hp, hplace, hdetour⟩
  · obtain ⟨e, he⟩ := firstNamed_isSome (place o).1 hf hserver hne
    rw [hnone] at he
    cases he

include hname hne in
theorem Unambiguous.external (hext : ∀ f ∈ config.outbounds, f.tag ≠ name) :
    detourOf o = name ∧ ∀ p ∈ imported documents, p.tag ≠ name := by
  obtain ⟨hout, hfirst⟩ := h (place o) config entry name hat hname hne
  have hfreedom : ¬ NamesFreedom config name := fun ⟨_, g, hg, hgtag, _⟩ => hext g hg hgtag
  rcases imported_cases hremarks ho hat hname with ⟨hno, _⟩ | ⟨_, _, e, he, _⟩ | ⟨_, _, _, _, hdetour⟩
  · exact absurd hno (not_or.mpr ⟨hne, hfreedom⟩)
  · exact absurd (hfirst hfreedom e he) (hext e.1 (mem_of_getElem? (firstNamed_eq_some he).1))
  · exact ⟨hdetour, fun p hp htag => hout hext (htag ▸ imported_tag_mem documents hremarks hp)⟩

include htags in
/-- An imported server dials through nothing that is not imported. -/
theorem Unambiguous.not_broken (hstep : DialsThrough config entry f) : f.content.broken = false := by
  obtain ⟨name, hname, hne, hf, rfl⟩ := hstep
  by_contra hbroken
  rw [Bool.not_eq_false] at hbroken
  rcases imported_cases hremarks ho hat hname with ⟨hno | ⟨_, g, hg, hgtag, hcontent⟩, _⟩ |
    ⟨_, hfreedom, e, he, _⟩ | ⟨_, _, _, hno, _⟩
  · exact hne hno
  · rw [← content_eq htags hat.mem hf hg hne hgtag, hcontent] at hbroken
    cases hbroken
  · obtain ⟨hentry, hserver, _⟩ := firstNamed_eq_some he
    have hetag := (h (place o) config entry f.tag hat hname hne).2 hfreedom e he
    rw [content_eq htags hat.mem hf (mem_of_getElem? hentry) hne hetag] at hserver
    revert hserver hbroken
    cases f.content <;> simp [Content.detour, Content.broken]
  · exact hno ⟨hne, f, hf, rfl, hbroken⟩

include htags in
theorem Unambiguous.whole (hchain : Relation.TransGen (DialsThrough config) entry f) : f.content.broken = false := by
  induction hchain using Relation.TransGen.head_induction_on generalizing o with
  | single hstep => exact Unambiguous.not_broken hremarks htags ho hat h hstep
  | @head _ g hstep hrest ih =>
    -- what the server dials through is a server again, and imported
    obtain ⟨name, hname, hne, hg, htag⟩ := hstep
    obtain ⟨j, hj⟩ := List.getElem?_of_mem hg
    have hserver : g.content.detour.isSome := by
      obtain ⟨_, ⟨name', hname', _⟩, _⟩ := Relation.TransGen.head'_iff.mp hrest
      exact Option.isSome_iff_exists.mpr ⟨name', hname'⟩
    obtain ⟨p, hp, hplace, _⟩ := Unambiguous.chained hremarks htags ho hat hname hne h hj htag hserver
    exact ih hp ⟨by rw [hplace]; exact hat.document, by rw [hplace]; exact hj⟩

end

end

include hremarks in
/-- The chains of the documents are the chains of the import if no name is ambiguous. -/
theorem chains_keep_meaning
    (htags : ∀ config, .ok config ∈ documents → ((config.outbounds.map Entry.tag).filter (· ≠ "")).Nodup)
    (h : Unambiguous documents) : KeepsMeaning documents where
  direct := by
    intro o ho config entry name hat hname hfreedom
    rcases imported_cases hremarks ho hat hname with ⟨_, hd⟩ | ⟨_, hno, _⟩ | ⟨_, hno, _⟩
    · exact hd
    · exact absurd hfreedom hno
    · exact absurd hfreedom hno
  chained := by
    intro o ho config entry name hat hname hne j f hf htag hserver
    exact Unambiguous.chained hremarks htags ho hat hname hne h hf htag hserver
  external := by
    intro o ho config entry name hat hname hne hext
    exact Unambiguous.external hremarks ho hat hname hne h hext
  whole := by
    intro o ho config entry hat f hchain
    exact Unambiguous.whole hremarks htags ho hat h hchain

/-- A VLESS server of a document, and what is imported of it. -/
def vlessEntry (tag detour : String) : Entry Unit Unit := ⟨tag, .server "vless" detour () false ()⟩

def vlessOutbound (tag detour : String) (p : Place) : Outbound Unit Unit :=
  ⟨"vless", tag, ⟨some ⟨detour, ()⟩, none, ((), p)⟩⟩

/-- A chain to a plain connection, and a server behind an outbound that no document has. -/
def chainedDocuments : List (Except String (Document Unit Unit)) :=
  [.ok ⟨"", [vlessEntry "a" "b", vlessEntry "b" "direct", ⟨"direct", .freedom⟩]⟩, .ok ⟨"", [vlessEntry "b" "out"]⟩]

theorem chains_keep_meaning_chained : KeepsMeaning chainedDocuments := by
  refine chains_keep_meaning chainedDocuments (by simp [chainedDocuments]) (by simp [chainedDocuments, vlessEntry]) ?_
  have hgiven : givenNames chainedDocuments = ["b-1", "b", "a"] := by decide +kernel
  rintro ⟨d, i⟩ config entry name ⟨hdocument, hentry⟩ hname hne
  rw [hgiven]
  match d, i, hdocument with
  | 0, 0, rfl =>
    cases hentry
    cases hname
    refine ⟨fun h => absurd rfl (h (vlessEntry "b" "direct") (by simp)), fun _ e he => ?_⟩
    cases he
    rfl
  | 0, 1, rfl =>
    cases hentry
    cases hname
    refine ⟨fun h => absurd rfl (h ⟨"direct", .freedom⟩ (by simp)), fun h => absurd ?_ h⟩
    exact ⟨by decide, ⟨"direct", .freedom⟩, by simp, rfl, rfl⟩
  | 0, 2, rfl =>
    cases hentry
    cases hname
  | 1, 0, rfl =>
    cases hentry
    cases hname
    refine ⟨fun _ => by decide, fun _ e he => ?_⟩
    cases he

/-- The name of an outbound that is not in the document is the tag of a server of another one. -/
def crossedDocuments : List (Except String (Document Unit Unit)) :=
  [.ok ⟨"", [vlessEntry "a" "b"]⟩, .ok ⟨"", [vlessEntry "b" ""]⟩]

/-- A server without a tag goes by the tag of another one. -/
def untaggedDocuments : List (Except String (Document Unit Unit)) :=
  [.ok ⟨"", [vlessEntry "" "", vlessEntry "server-1-1" "", vlessEntry "a" "server-1-1"]⟩]

theorem chains_lose_meaning :
    (imported crossedDocuments = [vlessOutbound "a" "b" (0, 0), vlessOutbound "b" "" (1, 0)] ∧
      ¬ KeepsMeaning crossedDocuments) ∧
    (imported untaggedDocuments = [vlessOutbound "server-1-1" "" (0, 0), vlessOutbound "server-1-1-1" "" (0, 1),
        vlessOutbound "a" "server-1-1" (0, 2)] ∧ ¬ KeepsMeaning untaggedDocuments) := by
  have hcrossed : imported crossedDocuments = [vlessOutbound "a" "b" (0, 0), vlessOutbound "b" "" (1, 0)] := by
    decide +kernel
  have huntagged : imported untaggedDocuments = [vlessOutbound "server-1-1" "" (0, 0),
      vlessOutbound "server-1-1-1" "" (0, 1), vlessOutbound "a" "server-1-1" (0, 2)] := by
    decide +kernel
  refine ⟨⟨hcrossed, fun h => ?_⟩, ⟨huntagged, fun h => ?_⟩⟩
  · have hother := (h.external (vlessOutbound "a" "b" (0, 0)) (by simp [hcrossed]) _ (vlessEntry "a" "b") "b"
      ⟨rfl, rfl⟩ rfl (by decide) (by simp [vlessEntry])).2
    exact hother (vlessOutbound "b" "" (1, 0)) (by simp [hcrossed]) rfl
  obtain ⟨p, hp, hplace, hdetour, _⟩ := h.chained (vlessOutbound "a" "server-1-1" (0, 2)) (by simp [huntagged]) _
    (vlessEntry "a" "server-1-1") "server-1-1" ⟨rfl, rfl⟩ rfl (by decide) 1 (vlessEntry "server-1-1" "") rfl rfl rfl
  rw [huntagged] at hp
  simp only [mem_cons, not_mem_nil, or_false] at hp
  rcases hp with rfl | rfl | rfl
  · cases hplace
  · exact absurd hdetour (by decide)
  · cases hplace

end SingBox.Parser.Xray
