import RemyCC.Index.Writer
import RemyCC.Index.Clusters
import RemyCC.Json.Parse

/-!
# Summaries and retrieval documents

A node of the index is a symbol, a file or a cluster. Its summaries are kept in
versions, of which the newest that is available and not behind a stale one is
current; its retrieval document joins the facts of the node with that summary.
Times are left out.
-/

namespace RemyCC.Retrieval

open Relational Text Index

inductive NodeKind where
  | symbol
  | file
  | cluster
  deriving DecidableEq, Repr

structure Node where
  kind : NodeKind
  ref : String
  deriving DecidableEq, Repr

def NodeKind.text : NodeKind → String
  | symbol => "symbol"
  | file => "file"
  | cluster => "cluster"

def symbolRef (path name : String) : String := path ++ "::" ++ name

def symbolNode (path name : String) : Node := ⟨.symbol, symbolRef path name⟩

def fileNode (path : String) : Node := ⟨.file, path⟩

def clusterNode (name : String) : Node := ⟨.cluster, name⟩

inductive Status where
  | ok
  | oversizedWarn
  | pending
  | corrupt
  | oversizedHard
  | stale
  deriving DecidableEq, Repr

def Status.available : Status → Bool
  | ok | oversizedWarn => true
  | _ => false

structure SummaryVersion where
  id : Nat
  node : Node
  version : Nat
  summary : Option String
  status : Status
  deriving DecidableEq, Repr

structure CurrentSummary where
  id : Option Nat
  version : Option Nat
  short : Option String
  full : Option String
  deriving DecidableEq, Repr

def CurrentSummary.default : CurrentSummary := ⟨none, none, none, none⟩

/-- The two texts of a payload, if it is an object whose short one says something. -/
def readPayload (text : String) : Option (String × Option String) :=
  match Json.parse text with
  | some (.obj fields) =>
    match (Json.Value.field fields "short").bind Json.Value.asStr with
    | some short =>
      if trim short = "" then none
      else some (short, (Json.Value.field fields "full").bind Json.Value.asStr)
    | none => none
  | _ => none

/-- The walk from the newest version on: a stale one ends it. -/
def selectFrom : List SummaryVersion → CurrentSummary
  | [] => .default
  | r :: rows =>
    if r.status = .stale then .default
    else if r.status.available then
      match r.summary.bind readPayload with
      | some (short, full) => ⟨some r.id, some r.version, some short, full⟩
      | none => selectFrom rows
    else selectFrom rows

def versionsOf (node : Node) (rows : List SummaryVersion) : List SummaryVersion :=
  orderBy (fun a b => compare b.version a.version) (rows.filter fun r => r.node == node)

def selectCurrentSummary (rows : List SummaryVersion) (node : Node) : CurrentSummary :=
  selectFrom (versionsOf node rows)

structure FactDocument where
  language : Option String
  symbolType : Option String
  filePath : Option String
  name : Option String
  nameTokens : Option String
  signature : Option String
  deriving DecidableEq, Repr

/-- The join of a symbol with its file. -/
def symbolFacts (d : Database) (s : SymbolRow) : Option FactDocument :=
  (d.file? s.filePath).map fun f =>
    { language := f.language
      symbolType := some s.type
      filePath := some s.filePath
      name := some s.name
      nameTokens := some s.nameTokens
      signature := some s.args }

def spaced (text : String) : String := replaceChar '_' ' ' (replaceChar '/' ' ' text)

def fileFacts (f : FileRow) : FactDocument where
  language := f.language
  symbolType := none
  filePath := some f.path
  name := some (lastPart '/' f.path)
  nameTokens := some (spaced f.path)
  signature := none

/-- No cluster has a label. -/
def clusterFacts (k : ClusterRow) : FactDocument where
  language := none
  symbolType := none
  filePath := none
  name := some k.name
  nameTokens := some (spaced k.name)
  signature := none

/-- A symbol is looked up by what stands before and after the first separator,
and where that fails by the whole reference. -/
def loadSymbol (d : Database) (ref : String) : Option FactDocument :=
  let found := (splitOnce "::" ref).bind fun (path, name) =>
    (d.symbols.rows.filter fun s => s.filePath == path && s.name == name).findSome? (symbolFacts d)
  match found with
  | some doc => some doc
  | none =>
    (d.symbols.rows.filter fun s => symbolRef s.filePath s.name == ref).findSome? (symbolFacts d)

def loadFactDocument (d : Database) : Node → Option FactDocument
  | ⟨.symbol, ref⟩ => loadSymbol d ref
  | ⟨.file, ref⟩ => (d.file? ref).map fileFacts
  | ⟨.cluster, ref⟩ => (d.clusters.rows.find? (·.name == ref)).map clusterFacts

structure Document where
  node : Node
  facts : FactDocument
  summaryShort : Option String
  summaryFull : Option String
  contentHash : String
  sourceVersion : Option Nat
  deriving DecidableEq, Repr

/-- The hashes of the index and the SHA-256 of a text. -/
structure Digests extends Hashes where
  sha256 : String → String

def optional : Option String → Json.Value
  | some text => .str text
  | none => .null

/-- The ten hashed fields in the order of their names. -/
def hashPayload (node : Node) (facts : FactDocument) (summary : CurrentSummary) : Json.Value :=
  .obj [("file_path", optional facts.filePath), ("language", optional facts.language),
    ("name", optional facts.name), ("name_tokens", optional facts.nameTokens),
    ("node_kind", .str node.kind.text), ("node_ref", .str node.ref),
    ("signature", optional facts.signature), ("summary_full", optional summary.full),
    ("summary_short", optional summary.short), ("symbol_type", optional facts.symbolType)]

def documentHash (g : Digests) (node : Node) (facts : FactDocument) (summary : CurrentSummary) :
    String :=
  g.sha256 (Json.print (hashPayload node facts summary))

def documentOf (g : Digests) (node : Node) (facts : FactDocument) (summary : CurrentSummary) :
    Document where
  node := node
  facts := facts
  summaryShort := summary.short
  summaryFull := summary.full
  contentHash := documentHash g node facts summary
  sourceVersion := summary.version

/-- The index with the tables that follow it. A change counter is seen by its node. -/
structure Store where
  index : Database
  summaries : Numbered SummaryVersion.id
  documents : Keyed Document.node
  counters : Keyed (id : Node → Node)

namespace Store

def empty : Store := ⟨.empty, .empty, .empty, .empty⟩

def document? (s : Store) (node : Node) : Option Document :=
  s.documents.rows.find? fun doc => doc.node == node

/-- The document that the facts and the current summary of a node call for. -/
def expected (g : Digests) (s : Store) (node : Node) : Option Document :=
  (loadFactDocument s.index node).map fun facts =>
    documentOf g node facts (selectCurrentSummary s.summaries.rows node)

def deleteNode (s : Store) (node : Node) : Store :=
  { s with documents := s.documents.deleteWhere fun doc => doc.node == node }

def putDocument (s : Store) (doc : Document) : Store :=
  { s with
    documents := s.documents.upsert doc.node (fun old => { doc with node := old.node })
      (fun _ => rfl) doc rfl }

/-- The row of a node is written anew, or deleted where the facts are gone. -/
def refreshNode (g : Digests) (s : Store) (node : Node) : Store :=
  match loadFactDocument s.index node with
  | none => s.deleteNode node
  | some facts =>
    s.putDocument (documentOf g node facts (selectCurrentSummary s.summaries.rows node))

def setStale (s : Store) (summaryId : Nat) : Store :=
  { s with
    summaries := s.summaries.update
      (fun r => if r.id = summaryId then { r with status := .stale } else r)
      (by
        intro r
        split <;> rfl) }

def markCurrentSummaryStale (g : Digests) (s : Store) (node : Node) : Store :=
  match (selectCurrentSummary s.summaries.rows node).id with
  | none => s.refreshNode g node
  | some summaryId => (s.setStale summaryId).refreshNode g node

def insertSummary (node : Node) (version : Nat) (summary : Option String) (status : Status)
    (s : Store) : Store :=
  { s with
    summaries := s.summaries.insert (fun id => ⟨id, node, version, summary, status⟩)
      (fun _ => rfl) }

end Store

end RemyCC.Retrieval
