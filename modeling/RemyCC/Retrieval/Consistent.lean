import RemyCC.Index.Anchored
import RemyCC.Index.Changes
import RemyCC.Index.Listing
import RemyCC.Index.Upkeep
import RemyCC.Opening.Escalation
import RemyCC.Retrieval.Clustering

/-!
# Documents after any history of scans

Whatever scans and new summaries a store has been through, it holds a document
for each symbol, file and cluster and no other, each as the facts and the current
summary of its node have it, and no row that refers to one that is gone.
-/

namespace RemyCC.Retrieval

open Relational Text Discovery Index

section Paths

theorem splitChar_suffix (sep : Char) (s last : List Char) (h : (splitChar sep s).getLast? = some last) :
    last <:+ s := by
  induction s with
  | nil =>
    cases h
    exact List.suffix_refl []
  | cons c rest ih =>
    have hne := splitChar_ne_nil sep rest
    rw [splitChar] at h
    cases hsplit : splitChar sep rest with
    | nil => exact absurd hsplit hne
    | cons first parts =>
      rw [hsplit] at h ih
      split at h
      · rw [List.getLast?_cons_cons] at h
        exact (ih h).trans (List.suffix_cons c rest)
      · cases parts with
        | nil =>
          cases h
          have hrest := intercalate_splitChar sep rest
          rw [hsplit, List.intercalate_singleton] at hrest
          rw [hrest]
          exact List.suffix_refl _
        | cons second parts =>
          rw [List.getLast?_cons_cons] at h
          exact (ih (by rw [List.getLast?_cons_cons]; exact h)).trans (List.suffix_cons c rest)

theorem lastPart_suffix (sep : Char) (s : String) : (lastPart sep s).toList <:+ s.toList := by
  unfold lastPart split
  rw [List.getLast?_map]
  cases h : (splitChar sep s.toList).getLast? with
  | none => exact List.suffix_refl _
  | some last =>
    rw [Option.map_some, Option.getD_some, String.toList_ofList]
    exact splitChar_suffix sep s.toList last h

theorem extension_of_resolve {filename : String} (h : (Language.resolve filename).isSome) :
    ∃ ext ∈ Language.extensions, endsWith filename ext.1 = true := by
  by_contra hnone
  have hmiss : ∀ ext ∈ Language.extensions, endsWith filename ext.1 = false := fun ext hext =>
    Bool.eq_false_iff.mpr fun hends => hnone ⟨ext, hext, hends⟩
  simp only [Language.extensions, List.forall_mem_cons] at hmiss
  simp [Language.resolve, Language.extensions, hmiss] at h

theorem extensions_colonless : ∀ ext ∈ Language.extensions,
    ¬[':'] <:+ ext.1.toList ∧ ¬ext.1.toList <:+ [':'] := by decide

/-- A path with a language ends in its extension, and so in no colon. -/
theorem plain_of_language {path : String} (hcolons : contains path "::" = false)
    (h : (Language.resolve (lastPart '/' path)).isSome) : Plain path := by
  refine ⟨hcolons, Bool.eq_false_iff.mpr fun hcolon => ?_⟩
  obtain ⟨ext, hext, hends⟩ := extension_of_resolve h
  have hsuffix : ext.1.toList <:+ path.toList :=
    (List.isSuffixOf_iff_suffix.mp hends).trans (lastPart_suffix '/' path)
  have hcolon' : [':'] <:+ path.toList := List.isSuffixOf_iff_suffix.mp hcolon
  obtain ⟨hneither, hnor⟩ := extensions_colonless ext hext
  exact (List.suffix_or_suffix_of_suffix hcolon' hsuffix).elim hneither hnor

end Paths

section Operations

variable {g : Digests} {filterSmall : Bool} {s : Store} {d : Database}

def PlainFiles (d : Database) : Prop := ∀ path, d.hasFile path = true → Plain path

theorem PlainFiles.write (hd : PlainFiles d) (h : Hashes) {f : FileFacts} (hpath : Plain f.relPath) :
    PlainFiles (writeFileFacts h f d).1 := by
  intro path hfile
  rw [writeFileFacts_hasFile, Bool.or_eq_true, beq_iff_eq] at hfile
  rcases hfile with hfile | rfl
  · exact hd path hfile
  · exact hpath

theorem PlainFiles.delete (hd : PlainFiles d) (path : String) : PlainFiles (deleteFile path d).1 := by
  intro q hfile
  by_cases hq : q = path
  · rw [hq, deleteFile_hasFile] at hfile
    cases hfile
  · rw [(deleteFile_replaces path d).hasFile_eq hq] at hfile
    exact hd q hfile

theorem PlainFiles.deletes (hd : PlainFiles d) (h : Hashes) (paths : List String) :
    PlainFiles (Index.applyOps h (paths.map .delete) d).1 := by
  unfold Index.applyOps
  suffices ∀ s : Database × ScanDelta, PlainFiles s.1 →
      PlainFiles ((paths.map FileOp.delete).foldl (Index.applyOp h) s).1 from this (d, .empty) hd
  induction paths with
  | nil => exact fun _ hs => hs
  | cons path paths ih =>
    intro s hs
    refine ih _ ?_
    rw [applyOp_fst]
    exact hs.delete path

/-- What writes and deletions keep of a store. -/
structure Following (g : Digests) (s : Store) : Prop where
  projected : Projected g s
  housed : Housed s.index
  files : PlainFiles s.index

theorem Following.plain (h : Following g s) : PlainSymbols s.index := fun r hr =>
  h.files _ (h.housed.symbols r hr)

theorem Following.write (h : Following g s) {f : FileFacts} (hpath : Plain f.relPath) :
    Following g (s.write g filterSmall f) where
  projected := h.projected.write h.plain hpath filterSmall
  housed := by
    rw [write_index]
    exact h.housed.writeFileFacts g.toHashes f
  files := by
    rw [write_index]
    exact h.files.write g.toHashes hpath

theorem Following.delete (h : Following g s) (path : String) : Following g (s.delete path) where
  projected := h.projected.delete h.plain path
  housed := by
    rw [delete_index]
    exact h.housed.deleteFile path
  files := by
    rw [delete_index]
    exact h.files.delete path

/-- The files written by some operations have plain paths. -/
def PlainOps (ops : List FileOp) : Prop := ∀ f, .write f ∈ ops → Plain f.relPath

theorem Following.applyOps (h : Following g s) {ops : List FileOp} (hops : PlainOps ops) :
    Following g (s.applyOps g filterSmall ops) := by
  unfold Store.applyOps
  induction ops generalizing s with
  | nil => exact h
  | cons op ops ih =>
    refine ih ?_ fun f hf => hops f (List.mem_cons_of_mem op hf)
    cases op with
    | write f => exact h.write (hops f List.mem_cons_self)
    | delete path => exact h.delete path

theorem plainOps_append {ops ops' : List FileOp} (h : PlainOps ops) (h' : PlainOps ops') :
    PlainOps (ops ++ ops') := fun f hf =>
  (List.mem_append.mp hf).elim (h f) (h' f)

theorem plainOps_delete (paths : List String) : PlainOps (paths.map .delete) := by
  intro f hf
  obtain ⟨path, -, heq⟩ := List.mem_map.mp hf
  cases heq

theorem plainOps_delivered {src : Sources} {paths : List String} {delivered : List FileOutcome}
    (hdelivers : Delivers src paths delivered) (hpaths : ∀ path ∈ paths, Plain path) :
    PlainOps (delivered.filterMap FileOutcome.op?) := by
  intro f hf
  obtain ⟨outcome, houtcome, hop⟩ := List.mem_filterMap.mp hf
  obtain ⟨path, hpath, heq⟩ := List.mem_map.mp (hdelivers.mem_iff.mp houtcome)
  have hrel := src.parseOne_relPath path
  rw [heq] at hrel
  cases outcome with
  | facts f' =>
    cases hop
    have hpath' : f.relPath = path := hrel
    rw [hpath']
    exact hpaths path hpath
  | failed _ _ => cases hop

end Operations

section Passes

variable {g : Digests} {s : Store} {d d₀ d₁ : Database} {delta : ScanDelta} {c : PostprocessConfig}

/-- What the passes between resolution and detection leave as it was. -/
structure Passed (d d' : Database) : Prop where
  lookups : SameLookups d d'
  clusters : d'.clusters = d.clusters
  members : d'.members = d.members

theorem computeFileKindsFor_passed (c : PostprocessConfig) (paths : List String) (d : Database) :
    Passed d (computeFileKindsFor c paths d) :=
  ⟨computeFileKindsFor_lookups c paths d, rfl, rfl⟩

theorem resynthesize_passed (c : PostprocessConfig) (d : Database) : Passed d (resynthesize c d) :=
  ⟨resynthesize_lookups c d, (resynthesize_same c d).clusters, (resynthesize_same c d).members⟩

theorem Passed.of_edges (h : SameButEdges d d₁) : Passed d d₁ :=
  ⟨.of_eq h.files h.symbols, h.clusters, h.members⟩

theorem Passed.trans {d₂ : Database} (h : Passed d d₁) (h' : Passed d₁ d₂) : Passed d d₂ :=
  ⟨h.lookups.trans h'.lookups, h'.clusters.trans h.clusters, h'.members.trans h.members⟩

theorem passes_passed (h : SameButEdges d d₁) (c : PostprocessConfig) (paths : List String) :
    Passed d (computeFileKindsFor c paths (resynthesize c d₁)) :=
  ((Passed.of_edges h).trans (resynthesize_passed c d₁)).trans (computeFileKindsFor_passed c paths _)

theorem Projected.passed (h : Projected g s) (hs : PlainSymbols s.index) (hd : Passed s.index d) :
    Projected g { s with index := d } := fun node => by
  have hload : loadFactDocument d node = loadFactDocument s.index node :=
    hd.lookups.loadFactDocument_eq hs hd.clusters
  exact (h node).trans (by rw [Store.expected, Store.expected, hload])

theorem Projected.run (h : Projected g s) (hs : PlainSymbols s.index) (c : PostprocessConfig) :
    Projected g (s.run g c) := by
  unfold Store.run Store.detectClusters computeFileKinds
  exact (h.passed hs (passes_passed (resolveFull_same s.index) c _)).detectClustersFor c _

theorem Projected.runIncremental (h : Projected g s) (hs : PlainSymbols s.index)
    (c : PostprocessConfig) (delta : ScanDelta) : Projected g (s.runIncremental g c delta) := by
  unfold Store.runIncremental
  exact (h.passed hs (passes_passed (resolveTargets_same delta s.index) c _)).detectClustersFor c _

theorem clustered_of_passed {lost : List String} (h : Clustered lost d) (hd : Passed d d₁) :
    Clustered lost d₁ :=
  h.of_tables hd.clusters hd.members fun path => Or.imp_left fun hfile =>
    (hd.lookups.hasFile path).trans hfile

/-- Only groups with a touched file can have lost one. -/
theorem clustered_of_tracks (h : Clustered [] d₀) (ht : Tracks d₀ d delta) {scope : List String}
    (hscope : ∀ path ∈ delta.touchedFiles, topGroup path ∈ scope) : Clustered scope d := by
  refine h.of_tables ht.clusters ht.members fun path hfile => ?_
  have hkept : d₀.hasFile path = true := hfile.resolve_right (by simp)
  by_cases hpath : path ∈ delta.touchedFiles
  · exact .inr (List.contains_iff_mem.mpr (hscope path hpath))
  · refine .inl ?_
    rw [Database.hasFile, ht.files path hpath]
    exact hkept

theorem touched_in_scope (c : PostprocessConfig) {path : String} (hpath : path ∈ delta.touchedFiles) :
    topGroup path ∈ sortedSet ((affectedFiles c delta d).map topGroup) := by
  refine mem_sortedSet.mpr (List.mem_map_of_mem ?_)
  unfold affectedFiles
  simp [hpath]

theorem clustered_runIncremental (h : Clustered [] d₀) (ht : Tracks d₀ d delta)
    (c : PostprocessConfig) : Clustered [] (runIncremental c delta d) := by
  unfold Index.runIncremental
  exact (clustered_of_passed (clustered_of_tracks h ht fun _ => touched_in_scope c)
    (passes_passed (resolveTargets_same delta d) c _)).detectClustersFor c

/-- Every cluster is in scope of a full detection. -/
theorem clustered_allGroups {lost : List String} (h : Clustered lost d) :
    Clustered (allGroups d) d where
  names := h.names
  members m hm := by
    obtain ⟨k, hk, hid, hgroup, -⟩ := h.members m hm
    refine ⟨k, hk, hid, hgroup, .inr (List.contains_iff_mem.mpr (mem_sortedSet.mpr ?_))⟩
    exact List.mem_append_right _ (List.mem_map.mpr ⟨k, hk, hgroup⟩)

theorem clustered_run {lost : List String} (h : Clustered lost d) (c : PostprocessConfig) :
    Clustered [] (run c d) := by
  unfold Index.run detectClusters computeFileKinds
  have hpassed := clustered_of_passed h (passes_passed (resolveFull_same (c := c) d) c
    ((resynthesize c (resolveCallEdges c (resetDirectEdgeResolution d))).files.rows.map FileRow.path))
  exact (clustered_allGroups hpassed).detectClustersFor c

end Passes

section Counters

variable {g : Digests} {filterSmall : Bool} {c : PostprocessConfig} {s : Store} {scope : List String}

/-- A change counter of a cluster is one of a stored cluster. -/
def Counted (s : Store) : Prop := ∀ node ∈ s.counters.rows, node.kind = .cluster →
  node.ref ∈ s.index.clusters.rows.map ClusterRow.name

theorem mem_insertOrIgnore {node other : Node} {t : Keyed (id : Node → Node)}
    (h : other ∈ (t.insertOrIgnore node).rows) : other ∈ t.rows ∨ other = node := by
  unfold Keyed.insertOrIgnore at h
  split at h
  · exact .inl h
  · exact (List.mem_append.mp h).imp_right List.mem_singleton.mp

theorem applyOps_counters (ops : List FileOp) (s : Store) :
    (s.applyOps g filterSmall ops).counters = s.counters := by
  unfold Store.applyOps
  induction ops generalizing s with
  | nil => rfl
  | cons op ops ih =>
    refine (ih _).trans ?_
    cases op with
    | write f =>
      unfold Store.applyOp Store.write
      dsimp only
      split
      · rfl
      · simp only [Store.refreshNode_counters, Store.staleIf_counters,
          (Store.foldl_deleteNode _ _ _).2.2]
        exact (foldl_writeSymbol _ _ _ _).2
    | delete path =>
      unfold Store.applyOp Store.delete
      simp only [Store.deleteNode_counters, (Store.foldl_deleteNode _ _ _).2.2]

theorem foldl_formCluster_counters {before : Database} {existing : List String}
    (clusters : List NewCluster) (s : Store) {node : Node}
    (h : node ∈ (clusters.foldl (formCluster g before existing) s).counters.rows) :
    node ∈ s.counters.rows ∨ node ∈ clusters.map fun k => clusterNode k.name := by
  induction clusters generalizing s with
  | nil => exact .inl h
  | cons k clusters ih =>
    rcases ih _ h with h | h
    · unfold formCluster at h
      rw [Store.refreshNode_counters, Store.staleIf_counters] at h
      refine (mem_insertOrIgnore h).imp_right fun heq => ?_
      rw [heq]
      exact List.mem_cons_self
    · exact .inr (List.mem_cons_of_mem _ h)

theorem Counted.detectClustersFor (h : Counted s) (c : PostprocessConfig) (scope : List String) :
    Counted (s.detectClustersFor g c scope) := by
  intro node hnode hkind
  rw [detectClustersFor_index, Index.detectClustersFor, foldl_insertCluster_names]
  unfold Store.detectClustersFor at hnode
  obtain ⟨hnode, hkept⟩ := List.mem_filter.mp hnode
  simp only [(Store.foldl_deleteNode _ _ _).2.2, foldl_formCluster_index] at hnode hkept
  by_cases hscope : scope.contains (clusterGroup node.ref) = true
  · have hcurrent : node.ref ∈ namesInScope scope
        ((newClusters c scope s.index).foldl insertCluster (dropClusters scope s.index)) := by
      simpa [hkind, List.contains_iff_mem.mp hscope] using hkept
    rw [mem_namesInScope, foldl_insertCluster_names] at hcurrent
    exact hcurrent.1
  · rcases foldl_formCluster_counters _ _ hnode with hold | hnew
    · obtain ⟨k, hk, hname⟩ := List.mem_map.mp (h node hold hkind)
      refine List.mem_append_left _ (List.mem_map.mpr ⟨k, List.mem_filter.mpr ⟨hk, ?_⟩, hname⟩)
      rw [Bool.not_eq_true', ← Bool.not_eq_true]
      exact fun hin => hscope (hname ▸ hin)
    · obtain ⟨k, hk, rfl⟩ := List.mem_map.mp hnew
      exact absurd (mem_newClusters hk).1 hscope

end Counters

section Histories

variable {g : Digests} {s : Store}

/-- The stores that scans lead to, where no path holds the separator of a symbol
reference and summaries change with a refresh of their node. -/
inductive Scanned (g : Digests) : Store → Prop
  | empty : Scanned g .empty
  | full {s : Store} (filterSmall : Bool) (c : PostprocessConfig) (src : Sources)
      {delivered : List FileOutcome} (hs : Scanned g s)
      (hdelivers : Delivers src src.discover delivered)
      (hpaths : ∀ path ∈ src.discover, contains path "::" = false) :
      Scanned g (s.scanFull g filterSmall c src delivered)
  | files {s : Store} (filterSmall : Bool) (c : PostprocessConfig) (src : Sources)
      (requested : List String) {delivered : List FileOutcome} (hs : Scanned g s)
      (hdelivers : Delivers src (toParse g.toHashes src requested s.index) delivered)
      (hpaths : ∀ path ∈ requested, contains path "::" = false) :
      Scanned g (s.scanFiles g filterSmall c src requested delivered)
  | summarised {s : Store} (node : Node) (summaries : Numbered SummaryVersion.id)
      (hs : Scanned g s)
      (hothers : ∀ other ≠ node, summaries.rows.filter (·.node == other) =
        s.summaries.rows.filter (·.node == other)) :
      Scanned g ({ s with summaries := summaries }.refreshNode g node)
  | counted {s : Store} (node : Node) (hs : Scanned g s)
      (hcluster : node.kind = .cluster → node.ref ∈ s.index.clusters.rows.map ClusterRow.name) :
      Scanned g { s with counters := s.counters.insertOrIgnore node }

theorem Scanned.indexed (hs : Scanned g s) : Indexed g.toHashes s.index := by
  induction hs with
  | empty => exact .empty
  | full filterSmall c src hs hdelivers hpaths ih =>
    rw [scanFull_index]
    exact .full c _ ih
  | files filterSmall c src requested hs hdelivers hpaths ih =>
    rw [scanFiles_index]
    exact .incremental c _ ih
  | summarised node summaries hs hothers ih =>
    rw [Store.refreshNode_index]
    exact ih
  | counted node hs hcluster ih => exact ih

theorem toParse_plain {src : Sources} {requested : List String} {d : Database} {h : Hashes}
    (hd : PlainFiles d) (hpaths : ∀ path ∈ requested, contains path "::" = false) :
    ∀ path ∈ toParse h src requested d, Plain path := by
  intro path hpath
  obtain ⟨htarget, hparse⟩ := List.mem_filter.mp hpath
  refine plain_of_language ?_ (Bool.and_eq_true _ _ ▸ hparse).2
  rcases List.mem_append.mp (mem_sortedSet.mp (List.mem_filter.mp htarget).1) with hrequested | hstored
  · exact hpaths path hrequested
  · obtain ⟨r, hr, hinvalid⟩ := List.mem_filterMap.mp hstored
    have hsame : r.path = path := by
      split at hinvalid
      · cases hinvalid
      · split at hinvalid
        · cases hinvalid
        · split at hinvalid
          · cases hinvalid
          · exact Option.some.inj hinvalid
    have hfile := hasFile_iff.mpr ⟨r, (mem_orderBy.mp hr), hsame⟩
    exact ((hd.deletes h _) path hfile).1

/-- What every history of a store keeps. -/
structure Steady (g : Digests) (s : Store) : Prop where
  projected : Projected g s
  files : PlainFiles s.index
  clustered : Clustered [] s.index
  counted : Counted s

theorem Steady.following (h : Steady g s) (hs : Indexed g.toHashes s.index) : Following g s :=
  ⟨h.projected, hs.housed, h.files⟩

theorem Steady.empty : Steady g .empty where
  projected node := by
    obtain ⟨kind, ref⟩ := node
    cases kind with
    | symbol =>
      rw [Store.expected, loadFactDocument, loadSymbol_eq fun _ hr => absurd hr List.not_mem_nil]
      rfl
    | file => rfl
    | cluster => rfl
  files _ hfile := by cases hfile
  clustered := .empty
  counted _ hnode := absurd hnode List.not_mem_nil

theorem counted_of_tables {s' : Store} (h : Counted s) (hindex : s'.index.clusters = s.index.clusters)
    (hcounters : s'.counters = s.counters) : Counted s' := by
  intro node hnode hkind
  rw [hcounters] at hnode
  rw [hindex]
  exact h node hnode hkind

theorem Counted.passed {d : Database} (h : Counted s) (hd : Passed s.index d) :
    Counted { s with index := d } := counted_of_tables h hd.clusters rfl

theorem Steady.applyOps (h : Steady g s) (hs : Indexed g.toHashes s.index) {ops : List FileOp}
    (hops : PlainOps ops) (filterSmall : Bool) :
    Following g (s.applyOps g filterSmall ops) ∧ Counted (s.applyOps g filterSmall ops) ∧
      Tracks s.index (s.applyOps g filterSmall ops).index
        (Index.applyOps g.toHashes ops s.index).2 := by
  have htracks := tracks_applyOps hs.housed g.toHashes ops
  rw [applyOps_index]
  refine ⟨(h.following hs).applyOps hops, ?_, htracks⟩
  refine counted_of_tables h.counted ?_ (applyOps_counters ops s)
  rw [applyOps_index]
  exact htracks.clusters

theorem Steady.scanFull (h : Steady g s) (hs : Indexed g.toHashes s.index) (filterSmall : Bool)
    (c : PostprocessConfig) {src : Sources} {delivered : List FileOutcome}
    (hdelivers : Delivers src src.discover delivered)
    (hpaths : ∀ path ∈ src.discover, contains path "::" = false) :
    Steady g (s.scanFull g filterSmall c src delivered) := by
  have hops : PlainOps (scanFullOps g.toHashes src delivered s.index) :=
    plainOps_append (plainOps_delivered hdelivers fun path hpath =>
      plain_of_language (hpaths path hpath) (discover_language hpath)) (plainOps_delete _)
  obtain ⟨hfollowing, hcounted, htracks⟩ := h.applyOps hs hops filterSmall
  unfold Store.scanFull
  generalize s.applyOps g filterSmall (scanFullOps g.toHashes src delivered s.index) = t at *
  refine ⟨hfollowing.projected.run hfollowing.plain c, ?_, ?_, ?_⟩
  · intro path hfile
    rw [run_index, run_hasFile] at hfile
    exact hfollowing.files path hfile
  · rw [run_index]
    exact clustered_run (clustered_of_tracks h.clustered htracks fun _ => List.mem_map_of_mem) c
  · unfold Store.run Store.detectClusters computeFileKinds
    exact (hcounted.passed (passes_passed (resolveFull_same t.index) c _)).detectClustersFor c _

theorem Steady.scanFiles (h : Steady g s) (hs : Indexed g.toHashes s.index) (filterSmall : Bool)
    (c : PostprocessConfig) {src : Sources} {requested : List String} {delivered : List FileOutcome}
    (hdelivers : Delivers src (toParse g.toHashes src requested s.index) delivered)
    (hpaths : ∀ path ∈ requested, contains path "::" = false) :
    Steady g (s.scanFiles g filterSmall c src requested delivered) := by
  have hops : PlainOps (scanFilesOps g.toHashes src requested delivered s.index) :=
    plainOps_append (plainOps_append (plainOps_delete _) (plainOps_delete _))
      (plainOps_delivered hdelivers (toParse_plain h.files hpaths))
  obtain ⟨hfollowing, hcounted, htracks⟩ := h.applyOps hs hops filterSmall
  unfold Store.scanFiles
  dsimp only
  generalize s.applyOps g filterSmall (scanFilesOps g.toHashes src requested delivered s.index) = t
    at *
  refine ⟨hfollowing.projected.runIncremental hfollowing.plain c _, ?_, ?_, ?_⟩
  · intro path hfile
    rw [runIncremental_index, runIncremental_hasFile] at hfile
    exact hfollowing.files path hfile
  · rw [runIncremental_index]
    exact clustered_runIncremental h.clustered htracks c
  · unfold Store.runIncremental
    exact (hcounted.passed (passes_passed (resolveTargets_same _ t.index) c _)).detectClustersFor c _

/-- A change of the summaries of one node is followed by its document. -/
theorem Projected.summarised (h : Projected g s) {node : Node}
    (summaries : Numbered SummaryVersion.id)
    (hothers : ∀ other ≠ node, summaries.rows.filter (·.node == other) =
      s.summaries.rows.filter (·.node == other)) :
    Projected g ({ s with summaries := summaries }.refreshNode g node) := by
  have hconfined : Confined g (· = node) s { s with summaries := summaries } := fun other hother =>
    ⟨rfl, expected_of_select rfl (hothers other hother)⟩
  intro other
  by_cases hother : other = node
  · rw [hother]
    exact hconfined.refreshed.self
  · obtain ⟨hdoc, hexp⟩ := hconfined.refreshed.others other hother
    rw [hdoc, hexp]
    exact h other

theorem Scanned.steady (hs : Scanned g s) : Steady g s := by
  induction hs with
  | empty => exact .empty
  | full filterSmall c src hs hdelivers hpaths ih =>
    exact ih.scanFull hs.indexed filterSmall c hdelivers hpaths
  | files filterSmall c src requested hs hdelivers hpaths ih =>
    exact ih.scanFiles hs.indexed filterSmall c hdelivers hpaths
  | summarised node summaries hs hothers ih =>
    refine ⟨ih.projected.summarised summaries hothers, ?_, ?_, ?_⟩
    · rw [Store.refreshNode_index]
      exact ih.files
    · rw [Store.refreshNode_index]
      exact ih.clustered
    · exact counted_of_tables ih.counted (by rw [Store.refreshNode_index])
        (by rw [Store.refreshNode_counters])
  | counted node hs hcluster ih =>
    refine ⟨ih.projected.withCounters _, ih.files, ih.clustered, fun other hother hkind => ?_⟩
    rcases mem_insertOrIgnore hother with hold | rfl
    · exact ih.counted other hold hkind
    · exact hcluster hkind

/-- The nodes that the tables of an index call for, one for each row. -/
def nodesOf (d : Database) : List Node :=
  d.symbols.rows.map (fun r => symbolNode r.filePath r.name) ++
    d.files.rows.map (fun r => fileNode r.path) ++ d.clusters.rows.map fun k => clusterNode k.name

/-- No table that follows the facts has a row too many, too few or out of date. -/
structure Consistent (g : Digests) (s : Store) : Prop where
  documents : (s.documents.rows.map Document.node).Perm (nodesOf s.index)
  symbols : ∀ r ∈ s.index.symbols.rows, ∃ f ∈ s.index.files.rows, f.path = r.filePath ∧
    s.document? (symbolNode r.filePath r.name) = some (documentOf g (symbolNode r.filePath r.name)
      { language := f.language
        symbolType := some r.type
        filePath := some r.filePath
        name := some r.name
        nameTokens := some r.nameTokens
        signature := some r.args }
      (selectCurrentSummary s.summaries.rows (symbolNode r.filePath r.name)))
  files : ∀ r ∈ s.index.files.rows, s.document? (fileNode r.path) = some (documentOf g
    (fileNode r.path) (fileFacts r) (selectCurrentSummary s.summaries.rows (fileNode r.path)))
  clusters : ∀ k ∈ s.index.clusters.rows, s.document? (clusterNode k.name) = some (documentOf g
    (clusterNode k.name) (clusterFacts k)
    (selectCurrentSummary s.summaries.rows (clusterNode k.name)))
  candidates : ∀ k ∈ s.index.candidates.rows, ∃ e ∈ s.index.edges.rows, e.id = k.edgeId
  members : ∀ m ∈ s.index.members,
    (∃ k ∈ s.index.clusters.rows, k.id = m.clusterId) ∧ s.index.hasFile m.filePath = true
  counters : Counted s

theorem loadFactDocument_symbol {d : Database} (hd : PlainSymbols d) {r : SymbolRow}
    (hr : r ∈ d.symbols.rows) :
    loadFactDocument d (symbolNode r.filePath r.name) = symbolFacts d r := by
  have hfind : d.symbols.rows.find? (rowRef · == rowRef r) = some r := by
    cases hfound : d.symbols.rows.find? (rowRef · == rowRef r) with
    | none => exact absurd (beq_self_eq_true _) (List.find?_eq_none.mp hfound r hr)
    | some r' =>
      have hsame := List.find?_some hfound
      rw [hd.eq_of_ref (List.mem_of_find?_eq_some hfound) hr (beq_iff_eq.mp hsame)]
  have href : symbolNode r.filePath r.name = ⟨.symbol, rowRef r⟩ := rfl
  rw [href, loadFactDocument, loadSymbol_eq hd, hfind]
  rfl

theorem loadFactDocument_cluster {d : Database} (hd : (d.clusters.rows.map ClusterRow.name).Nodup)
    {k : ClusterRow} (hk : k ∈ d.clusters.rows) :
    loadFactDocument d (clusterNode k.name) = some (clusterFacts k) := by
  have hfind : d.clusters.rows.find? (·.name == k.name) = some k := by
    cases hfound : d.clusters.rows.find? (·.name == k.name) with
    | none => exact absurd (beq_self_eq_true _) (List.find?_eq_none.mp hfound k hk)
    | some k' =>
      have hsame := List.find?_some hfound
      rw [List.inj_on_of_nodup_map hd (List.mem_of_find?_eq_some hfound) hk (beq_iff_eq.mp hsame)]
  rw [clusterNode, loadFactDocument, hfind]
  rfl

theorem loadFactDocument_file {d : Database} {r : FileRow} (hr : r ∈ d.files.rows) :
    loadFactDocument d (fileNode r.path) = some (fileFacts r) := by
  rw [fileNode, loadFactDocument, file?_of_mem hr]
  rfl

theorem mem_documents {node : Node} :
    node ∈ s.documents.rows.map Document.node ↔ (s.document? node).isSome := by
  rw [Store.document?, List.find?_isSome, List.mem_map]
  exact exists_congr fun doc => and_congr_right fun _ => beq_iff_eq.symm

/-- The facts of a node can be loaded exactly if a row calls for it. -/
theorem loadFactDocument_isSome {d : Database} (hd : Housed d) (hplain : PlainSymbols d)
    {node : Node} : (loadFactDocument d node).isSome ↔ node ∈ nodesOf d := by
  obtain ⟨kind, ref⟩ := node
  cases kind with
  | symbol =>
    have hnode : (⟨.symbol, ref⟩ : Node) ∈ nodesOf d ↔ ∃ r ∈ d.symbols.rows, rowRef r = ref := by
      simp [nodesOf, symbolNode, fileNode, clusterNode, rowRef]
    rw [hnode, loadFactDocument, loadSymbol_eq hplain]
    constructor
    · intro hsome
      obtain ⟨doc, hdoc⟩ := Option.isSome_iff_exists.mp hsome
      obtain ⟨r, hr, -⟩ := Option.bind_eq_some_iff.mp hdoc
      have hsame := List.find?_some hr
      exact ⟨r, List.mem_of_find?_eq_some hr, beq_iff_eq.mp hsame⟩
    · rintro ⟨r, hr, rfl⟩
      have hload := loadFactDocument_symbol hplain hr
      rw [symbolNode, loadFactDocument, loadSymbol_eq hplain] at hload
      change (((d.symbols.rows.find? (rowRef · == rowRef r)).bind (symbolFacts d))).isSome = true
      rw [rowRef, hload, symbolFacts, Option.isSome_map]
      exact hd.symbols r hr
  | file =>
    have hnode : (⟨.file, ref⟩ : Node) ∈ nodesOf d ↔ ∃ r ∈ d.files.rows, r.path = ref := by
      simp [nodesOf, symbolNode, fileNode, clusterNode]
    rw [hnode, loadFactDocument, Option.isSome_map]
    exact hasFile_iff
  | cluster =>
    have hnode : (⟨.cluster, ref⟩ : Node) ∈ nodesOf d ↔ ∃ k ∈ d.clusters.rows, k.name = ref := by
      simp [nodesOf, symbolNode, fileNode, clusterNode]
    rw [hnode, loadFactDocument, Option.isSome_map, List.find?_isSome]
    exact exists_congr fun k => and_congr_right fun _ => beq_iff_eq

theorem nodesOf_nodup {d : Database} (hplain : PlainSymbols d)
    (hclusters : (d.clusters.rows.map ClusterRow.name).Nodup) : (nodesOf d).Nodup := by
  have hsymbols : (d.symbols.rows.map fun r => symbolNode r.filePath r.name).Nodup := by
    refine List.Nodup.map_on (fun r hr r' hr' heq => hplain.eq_of_ref hr hr' ?_)
      (List.Nodup.of_map _ d.symbols.distinct)
    exact (Node.mk.inj heq).2
  have hfiles : (d.files.rows.map fun r => fileNode r.path).Nodup := by
    have hpaths := d.files.distinct.map (f := fileNode) fun path path' heq => (Node.mk.inj heq).2
    rwa [List.map_map] at hpaths
  have hnames : (d.clusters.rows.map fun k => clusterNode k.name).Nodup := by
    have hnodes := hclusters.map (f := clusterNode) fun name name' heq => (Node.mk.inj heq).2
    rwa [List.map_map] at hnodes
  refine List.nodup_append.mpr ⟨List.nodup_append.mpr ⟨hsymbols, hfiles, ?_⟩, hnames, ?_⟩
  · rintro _ hs _ hf rfl
    obtain ⟨r, -, hr⟩ := List.mem_map.mp hs
    obtain ⟨r', -, hr'⟩ := List.mem_map.mp hf
    exact absurd (Node.mk.inj (hr.trans hr'.symm)).1 (by decide)
  · rintro _ hold _ hk rfl
    obtain ⟨k, -, hk⟩ := List.mem_map.mp hk
    rcases List.mem_append.mp hold with hs | hf
    · obtain ⟨r, -, hr⟩ := List.mem_map.mp hs
      exact absurd (Node.mk.inj (hr.trans hk.symm)).1 (by decide)
    · obtain ⟨r, -, hr⟩ := List.mem_map.mp hf
      exact absurd (Node.mk.inj (hr.trans hk.symm)).1 (by decide)

theorem scans_keep_documents (hs : Scanned g s) : Consistent g s := by
  have hsteady := hs.steady
  have hhoused := hs.indexed.housed
  have hplain := (hsteady.following hs.indexed).plain
  have hdocument {node : Node} {facts : FactDocument}
      (hfacts : loadFactDocument s.index node = some facts) : s.document? node =
        some (documentOf g node facts (selectCurrentSummary s.summaries.rows node)) := by
    rw [hsteady.projected, Store.expected, hfacts]
    rfl
  refine ⟨?_, ?_, ?_, ?_, ?_, ?_, hsteady.counted⟩
  · refine (List.perm_ext_iff_of_nodup s.documents.distinct
      (nodesOf_nodup hplain hsteady.clustered.names)).mpr fun node => ?_
    rw [mem_documents, hsteady.projected, Store.expected, Option.isSome_map]
    exact loadFactDocument_isSome hhoused hplain
  · intro r hr
    obtain ⟨f, hf, hpath⟩ := hasFile_iff.mp (hhoused.symbols r hr)
    refine ⟨f, hf, hpath, hdocument ?_⟩
    rw [loadFactDocument_symbol hplain hr, symbolFacts, ← hpath, file?_of_mem hf, Option.map_some]
  · exact fun r hr => hdocument (loadFactDocument_file hr)
  · exact fun k hk => hdocument (loadFactDocument_cluster hsteady.clustered.names hk)
  · intro k hk
    obtain ⟨e, he, -, hid⟩ := hs.indexed.anchored k hk
    exact ⟨e, he, hid⟩
  · intro m hm
    obtain ⟨k, hk, hid, -, hfile⟩ := hsteady.clustered.members m hm
    exact ⟨⟨k, hk, hid⟩, hfile.resolve_right (by simp)⟩

end Histories

section Example

def plainDigests : Digests where
  toHashes := plainHashes
  sha256 := id

theorem oneFile_discover : Opening.oneFile.discover = ["lib/work.py"] := by decide +kernel

/-- A tree with one file is scanned. -/
theorem scans_keep_documents_one : Consistent plainDigests
    (Store.scanFull plainDigests false .default Opening.oneFile [.facts calleeFacts] .empty) := by
  refine scans_keep_documents (.full false .default Opening.oneFile .empty ?_ ?_)
  · rw [oneFile_discover]
    exact .refl _
  · rw [oneFile_discover]
    decide +kernel

end Example

end RemyCC.Retrieval
