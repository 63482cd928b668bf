import RemyCC.Index.Tracking
import RemyCC.Index.Groups

/-!
# Well-formed indexes

Every index that scans lead to has no file without a name, only inferred edges
that name what they lead to, and only members of clusters that were numbered.
-/

namespace RemyCC.Index

open Relational

/-- An inferred edge carries the file and the name that it leads to. -/
def Leading (d : Database) : Prop :=
  ∀ e ∈ d.edges.rows, e.direct = false → e.calleeFile.isSome ∧ e.calleeQualified.isSome

structure Formed (d : Database) : Prop where
  named : d.hasFile "" = false
  leading : Leading d
  enrolled : Enrolled d

variable {d d' : Database} {c : PostprocessConfig}

theorem Formed.empty : Formed .empty :=
  ⟨rfl, fun _ he => absurd he List.not_mem_nil, fun _ hm => absurd hm List.not_mem_nil⟩

section Changes

theorem Leading.replaces {path : String} {new : List SymbolRow} (h : Leading d)
    (hr : Replaces path d d' new) : Leading d' := by
  intro e he hdirect
  have hpath : e.sourceFile ≠ path := by
    intro heq
    rw [hr.fresh e he heq] at hdirect
    exact Bool.noConfusion hdirect
  exact h e (hr.edge_mem he hpath) hdirect

theorem Enrolled.replaces {path : String} {new : List SymbolRow} (h : Enrolled d)
    (hr : Replaces path d d' new) : Enrolled d' := by
  unfold Enrolled
  rw [hr.clusters, hr.members]
  exact h

theorem deleteFile_hasFile (path : String) (d : Database) :
    (deleteFile path d).1.hasFile path = false := by
  rw [deleteFile_fst, Bool.eq_false_iff]
  intro hfile
  obtain ⟨r, hr, hpath⟩ := hasFile_iff.mp hfile
  exact absurd hpath (by simpa using (List.mem_filter.mp hr).2)

theorem Formed.replaceFacts (h : Formed d) (hh : Hashes) (f : FileFacts) :
    Formed (d.replaceFacts hh f) := by
  have hr := replaceFacts_replaces hh f d
  refine ⟨?_, h.leading.replaces hr, h.enrolled.replaces hr⟩
  rw [hr.hasFile_eq (Ne.symm f.named)]
  exact h.named

theorem Formed.deleteFile (h : Formed d) (path : String) : Formed (deleteFile path d).1 := by
  have hr := deleteFile_replaces path d
  refine ⟨?_, h.leading.replaces hr, h.enrolled.replaces hr⟩
  by_cases hpath : path = ""
  · rw [hpath]
    exact deleteFile_hasFile "" d
  · rw [hr.hasFile_eq (Ne.symm hpath)]
    exact h.named

theorem Formed.applyOps (h : Formed d) (hh : Hashes) (ops : List FileOp) :
    Formed (applyOps hh ops d).1 := by
  unfold Index.applyOps
  suffices hfold : ∀ s : Database × ScanDelta, Formed s.1 →
      Formed (ops.foldl (Index.applyOp hh) s).1 from hfold (d, .empty) h
  induction ops with
  | nil => exact fun _ hs => hs
  | cons op ops ih =>
    refine fun s hs => ih _ ?_
    rw [applyOp_fst]
    cases op with
    | write f =>
      dsimp only
      unfold writeFileFacts
      split
      · exact hs
      · exact hs.replaceFacts hh f
    | delete path => exact hs.deleteFile path

end Changes

section Passes

theorem Leading.insertInferred (h : Leading d) (e : InferredEdge) :
    Leading (insertInferred d e) := by
  unfold Index.insertInferred
  split
  · exact h
  · intro x hx hdirect
    rcases List.mem_append.mp hx with hx | hx
    · exact h x hx hdirect
    · rw [List.mem_singleton.mp hx]
      exact ⟨rfl, rfl⟩

theorem Leading.insertAll (h : Leading d) (edges : List InferredEdge) :
    Leading (insertAll edges d) := by
  induction edges generalizing d with
  | nil => exact h
  | cons e edges ih => exact ih (h.insertInferred e)

theorem leading_purge (d : Database) : Leading (purgeHeuristicEdges d) := by
  intro e he hdirect
  have hkept : (!(!e.direct)) = true := (List.mem_filter.mp he).2
  rw [hdirect] at hkept
  exact Bool.noConfusion hkept

theorem leading_resynthesize (c : PostprocessConfig) (d : Database) :
    Leading (resynthesize c d) := by
  have hstart : Leading (overwriteRustTraitBases (purgeHeuristicEdges d)) := leading_purge d
  unfold resynthesize runAllSynthesizers
  exact (((((hstart.insertAll _).insertAll _).insertAll _).insertAll _).insertAll _).insertAll _

theorem Formed.resynthesize (h : Formed d) (c : PostprocessConfig) :
    Formed (resynthesize c d) := by
  have hsame := resynthesize_same c d
  refine ⟨?_, leading_resynthesize c d, ?_⟩
  · unfold Database.hasFile Database.file?
    rw [hsame.files]
    exact h.named
  · unfold Enrolled
    rw [hsame.clusters, hsame.members]
    exact h.enrolled

/-- Resolution leaves inferred edges as they are. -/
theorem Formed.resolved {f : EdgeRow → EdgeRow} (h : Formed d) (hs : SameButEdges d d')
    (hrows : d'.edges.rows = d.edges.rows.map f)
    (hf : ∀ e, (f e).direct = false → f e = e) : Formed d' := by
  refine ⟨?_, ?_, ?_⟩
  · unfold Database.hasFile Database.file?
    rw [hs.files]
    exact h.named
  · intro e he hdirect
    rw [hrows] at he
    obtain ⟨x, hx, rfl⟩ := List.mem_map.mp he
    have hsame := hf x hdirect
    rw [hsame] at hdirect ⊢
    exact h.leading x hx hdirect
  · unfold Enrolled
    rw [hs.clusters, hs.members]
    exact h.enrolled

theorem Formed.resolveFull (h : Formed d) (c : PostprocessConfig) :
    Formed (resolveCallEdges c (resetDirectEdgeResolution d)) := by
  refine h.resolved (resolveFull_same d) (resolveFull_rows d) fun e hdirect => ?_
  split at hdirect
  · rw [settled_direct] at hdirect
    exact Bool.noConfusion hdirect
  · rename_i hinferred
    rw [if_neg hinferred]

theorem Formed.resolveTargets (h : Formed d) (c : PostprocessConfig) (delta : ScanDelta) :
    Formed (resolveTargets c delta d) := by
  refine h.resolved (resolveTargets_same delta d) (resolveTargets_rows delta d) fun e hdirect => ?_
  split at hdirect
  · rw [settled_direct] at hdirect
    exact Bool.noConfusion hdirect
  · rename_i hinferred
    rw [if_neg hinferred]

theorem Formed.views (h : Formed d) (c : PostprocessConfig) (paths scope : List String) :
    Formed (detectClustersFor c scope (computeFileKindsFor c paths d)) := by
  have hkinds := computeFileKindsFor_same c paths d
  have hsame := hkinds.trans (detectClustersFor_same c scope _)
  have henrolled := h.enrolled.computeFileKindsFor c paths
  refine ⟨?_, ?_, henrolled.detectClustersFor c scope⟩
  · rw [hasFile_of_fileKey hsame.files]
    exact h.named
  · unfold Leading
    rw [hsame.edges]
    exact h.leading

theorem Formed.run (h : Formed d) (c : PostprocessConfig) : Formed (run c d) := by
  unfold Index.run detectClusters computeFileKinds
  exact ((h.resolveFull c).resynthesize c).views c _ _

theorem Formed.runIncremental (h : Formed d) (c : PostprocessConfig) (delta : ScanDelta) :
    Formed (runIncremental c delta d) := by
  unfold Index.runIncremental
  exact ((h.resolveTargets c delta).resynthesize c).views c _ _

theorem Indexed.formed {h : Hashes} (hd : Indexed h d) : Formed d := by
  induction hd with
  | empty => exact .empty
  | full c ops _ ih => exact (ih.applyOps h ops).run c
  | incremental c ops _ ih => exact (ih.applyOps h ops).runIncremental c _

end Passes

end RemyCC.Index
