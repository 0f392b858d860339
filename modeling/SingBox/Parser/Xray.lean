import SingBox.Lib.Fresh
import SingBox.Parser.Collector
import SingBox.Provider.Valid

/-!
# Xray documents

A document lists outbounds that may dial through one another by their tags. The servers of all documents end
in one list, where a tag may stand once: they are renamed, and the detours inside of a document follow. What
dials through an outbound that cannot be imported is left out, here or when the chains are resolved.

The options of an imported server remember the place they were read from, the document and the index in it.
-/
namespace SingBox.Parser.Xray

open Lib

/-- What an outbound of a document turns out to be. `download` says that the server has an XHTTP transport
with a download of its own, which has no detour. -/
inductive Content (δ ω : Type) where
  | server (type detour : String) (dialer : δ) (download : Bool) (rest : ω)
  /-- `freedom` and `direct` -/
  | freedom
  /-- `blackhole`, `block`, `dns` and `loopback` -/
  | blackhole
  | refused (reason : String)
  deriving DecidableEq

/-- An outbound without a tag has the tag `""`. -/
structure Entry (δ ω : Type) where
  tag : String
  content : Content δ ω
  deriving DecidableEq

/-- The remarks are those without blanks around. -/
structure Document (δ ω : Type) where
  remarks : String
  outbounds : List (Entry δ ω)
  deriving DecidableEq

abbrev Place := Nat × Nat

abbrev Outbound (δ ω : Type) := Provider.Outbound δ (ω × Place)

structure ParsedOutbound (δ ω : Type) where
  sourceTag : String
  detour : String
  outbound : Outbound δ ω
  deriving DecidableEq

inductive Failure where
  | notAServer
  | dropsTraffic
  | other (reason : String)
  deriving DecidableEq

variable {δ ω : Type}

def parseSourceOutbound (entry : Entry δ ω) (place : Place) (fallbackTag : String) :
    Except Failure (ParsedOutbound δ ω) :=
  match entry.content with
  | .freedom => .error .notAServer
  | .blackhole => .error .dropsTraffic
  | .refused reason => .error (.other reason)
  | .server type detour dialer download rest =>
    let tag := if entry.tag = "" then fallbackTag else entry.tag
    .ok { sourceTag := tag
          detour := detour
          outbound :=
            { type := type
              tag := tag
              options :=
                { dialer := some { detour := detour, rest := dialer }
                  download := if download then some "" else none
                  rest := (rest, place) } } }

abbrev XrayCollector (δ ω : Type) := Collector String (Outbound δ ω)

/-- The variables of the first loop of `parseDocument`. -/
structure Reading (δ ω : Type) where
  nodes : List (ParsedOutbound δ ω)
  directTags : List String
  refusedTags : List String
  collector : XrayCollector δ ω

def fallbackTag (place : Place) : String := s!"server-{place.1 + 1}-{place.2 + 1}"

def Reading.next (documentIndex : Nat) (s : Reading δ ω) (entry : Entry δ ω × Nat) : Reading δ ω :=
  let tag := entry.1.tag
  let named := if tag = "" then [] else [tag]
  let label := s!"Xray server {documentIndex + 1}.{entry.2 + 1}" ++ if tag = "" then "" else s!" ({tag})"
  match parseSourceOutbound entry.1 (documentIndex, entry.2) (fallbackTag (documentIndex, entry.2)) with
  | .ok node => { s with nodes := s.nodes ++ [node] }
  | .error .notAServer => { s with directTags := named ++ s.directTags }
  | .error .dropsTraffic => { s with refusedTags := named ++ s.refusedTags }
  | .error (.other reason) =>
    { s with refusedTags := named ++ s.refusedTags, collector := s.collector.skip none label reason }

/-- The loop of `reachableFrom` along the detours. -/
def followDetours (nodes : List (ParsedOutbound δ ω)) :
    Nat → List String → String → List (ParsedOutbound δ ω)
  | 0, _, _ => []
  | fuel + 1, reached, detour =>
    if detour = "" then []
    else
      match nodes.find? fun node => node.sourceTag == detour with
      | none => []
      | some node =>
        if detour ∈ reached then [] else node :: followDetours nodes fuel (detour :: reached) node.detour

def reachableFrom : List (ParsedOutbound δ ω) → List (ParsedOutbound δ ω)
  | [] => []
  | first :: rest => first :: followDetours (first :: rest) (rest.length + 1) [first.sourceTag] first.detour

/-- A document with remarks is one server, with what it dials through. -/
def selectNodes (remarks : String) (nodes : List (ParsedOutbound δ ω)) : List (ParsedOutbound δ ω) :=
  if remarks = "" then nodes
  else
    match reachableFrom nodes with
    | [] => []
    | first :: rest => { first with outbound := { first.outbound with tag := remarks } } :: rest

/-- `UniqueTag`: the name, which is taken then. -/
def uniqueTag (taken : List String) (base : String) : String :=
  let base := if base = "" then "server" else base
  if base ∈ taken then firstFree (fun suffix => base ++ "-" ++ toString suffix) taken taken.length 1 else base

/-- The variables of the second loop of `parseDocument`. -/
structure Naming (δ ω : Type) where
  taken : List String
  tagMap : Provider.Tags
  nodes : List (ParsedOutbound δ ω)

def Naming.next (s : Naming δ ω) (node : ParsedOutbound δ ω) : Naming δ ω :=
  let tag := uniqueTag s.taken node.outbound.tag
  { taken := tag :: s.taken
    tagMap := if (s.tagMap node.sourceTag).isSome then s.tagMap
      else Function.update s.tagMap node.sourceTag (some tag)
    nodes := s.nodes ++ [{ node with outbound := { node.outbound with tag := tag } }] }

/-- The detour a server is imported with; `none` if it dials through an outbound that is not imported. -/
def resolveDetour (directTags refusedTags : List String) (tagMap : Provider.Tags) (detour : String) : Option String :=
  if detour = "" then some detour
  else if detour ∈ directTags then some ""
  else if (tagMap detour).getD "" ≠ "" then tagMap detour
  else if detour ∈ refusedTags then none
  else some detour

def setDetour (outbound : Outbound δ ω) (detour : String) : Outbound δ ω :=
  { outbound with options := outbound.options.mapDialer fun _ => detour }

/-- The body of the third loop of `parseDocument`. -/
def addNode (directTags refusedTags : List String) (tagMap : Provider.Tags) (collector : XrayCollector δ ω)
    (node : ParsedOutbound δ ω) : XrayCollector δ ω :=
  match resolveDetour directTags refusedTags tagMap node.detour with
  | none =>
    collector.skip (if node.outbound.tag = "" then none else some node.outbound.tag)
      s!"Xray server {node.outbound.tag}" "dials through an outbound that could not be imported"
  | some detour => collector.add (if detour ≠ node.detour then setDetour node.outbound detour else node.outbound)

def readDocument (collector : XrayCollector δ ω) (config : Document δ ω) (documentIndex : Nat) : Reading δ ω :=
  config.outbounds.zipIdx.foldl (Reading.next documentIndex) ⟨[], [], [], collector⟩

/-- The last two loops: the servers get their names, and then their detours. -/
def addNodes (s : Reading δ ω) (nodes : List (ParsedOutbound δ ω)) : XrayCollector δ ω :=
  let named := nodes.foldl Naming.next ⟨s.collector.taken, fun _ => none, []⟩
  named.nodes.foldl (addNode s.directTags s.refusedTags named.tagMap) { s.collector with taken := named.taken }

def parseDocument (collector : XrayCollector δ ω) (config : Document δ ω) (documentIndex : Nat) :
    XrayCollector δ ω :=
  let s := readDocument collector config documentIndex
  if s.nodes = [] then s.collector else addNodes s (selectNodes config.remarks s.nodes)

/-- The body of the loop over the documents; one that cannot be read is an error. -/
def collectDocument (collector : XrayCollector δ ω) (document : Except String (Document δ ω) × Nat) :
    XrayCollector δ ω :=
  match document.1 with
  | .error reason => collector.skip none s!"Xray document {document.2 + 1}" reason
  | .ok config => parseDocument collector config document.2

def collectDocuments (documents : List (Except String (Document δ ω))) : XrayCollector δ ω :=
  documents.zipIdx.foldl collectDocument Collector.new

/-- `ParseXraySubscription` on the documents of the content. -/
def parseXrayDocuments (documents : List (Except String (Document δ ω))) : Result String (Outbound δ ω) :=
  (collectDocuments documents).result
    (fun outbound => outbound.options.dialer.map Provider.DialerOptions.detour) fun outbound => setDetour outbound ""

def resolveChains (result : Result String (Outbound δ ω)) : Result String (Outbound δ ω) :=
  if result.refused = [] then result
  else
    let (outbounds, broken) := Provider.filterInvalidOutboundsWithSkipped result.outbounds result.refused
    { result with
      outbounds := outbounds
      skipped := result.skipped ++ broken.map fun outbound =>
        ⟨s!"server {outbound.tag}", "dials through a server that could not be imported"⟩ }

end SingBox.Parser.Xray
