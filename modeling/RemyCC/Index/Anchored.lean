import RemyCC.Index.Tracking

/-!
# Candidates belong to direct edges

Candidates are recorded when a direct edge is resolved and go with the edge, so
no synthesized edge has any and none outlives its edge.
-/

namespace RemyCC.Index

open Relational

variable {d d' : Database} {c : PostprocessConfig}

def Anchored (d : Database) : Prop :=
  ∀ k ∈ d.candidates.rows, ∃ e ∈ d.edges.rows, e.direct = true ∧ e.id = k.edgeId

theorem anchored_iff :
    Anchored d ↔ ∀ n, (∀ e ∈ d.edges.rows, e.direct = true → e.id ≠ n) → candidatesOf n d = [] := by
  constructor
  · intro h n hn
    refine List.filter_eq_nil_iff.mpr fun k hk hid => ?_
    obtain ⟨e, he, hdirect, heq⟩ := h k hk
    exact hn e he hdirect (heq.trans (beq_iff_eq.mp hid))
  · intro h k hk
    by_contra hnone
    have hempty := h k.edgeId fun e he hdirect hid => hnone ⟨e, he, hdirect, hid⟩
    exact List.filter_eq_nil_iff.mp hempty k hk (beq_self_eq_true _)

theorem Anchored.empty : Anchored .empty := fun _ hk => absurd hk List.not_mem_nil

theorem Anchored.replaces {path : String} {new : List SymbolRow} (h : Anchored d)
    (hr : Replaces path d d' new) : Anchored d' := by
  intro k hk
  obtain ⟨hold, hkept⟩ := hr.kept k hk
  obtain ⟨e, he, hdirect, hid⟩ := h k hold
  have hpath : e.sourceFile ≠ path := fun heq => hkept e he heq hid
  have hmem : e ∈ d.edges.rows.filter fun e => e.sourceFile != path :=
    List.mem_filter.mpr ⟨he, bne_iff_ne.mpr hpath⟩
  rw [← hr.edges] at hmem
  exact ⟨e, (List.mem_filter.mp hmem).1, hdirect, hid⟩

theorem Anchored.applyOps (h : Anchored d) (hh : Hashes) (ops : List FileOp) :
    Anchored (applyOps hh ops d).1 := by
  unfold Index.applyOps
  suffices hfold : ∀ s : Database × ScanDelta, Anchored s.1 →
      Anchored (ops.foldl (Index.applyOp hh) s).1 from hfold (d, .empty) h
  induction ops with
  | nil => exact fun _ hs => hs
  | cons op ops ih =>
    refine fun s hs => ih _ ?_
    rw [applyOp_fst]
    cases op with
    | write f =>
      dsimp only
      unfold writeFileFacts
      split
      · exact hs
      · exact hs.replaces (replaceFacts_replaces hh f s.1)
    | delete path => exact hs.replaces (deleteFile_replaces path s.1)

/-- The loop records candidates under the ids of direct edges only. -/
theorem resolveFiltered_candidates_other (only : Option (List Nat)) {n : Nat}
    (hn : ∀ e ∈ d.edges.rows, e.direct = true → e.id ≠ n) :
    candidatesOf n (resolveCallEdgesFiltered c only d) = candidatesOf n d := by
  have hrows := foldl_resolveStep_candidates (c := c) (i := deriveImportBindings d)
    (pending_nodup only d) d n
  have hnone : ((unresolvedEdges d).filter (allowed only)).find? (fun x => x.id == n) = none := by
    refine List.find?_eq_none.mpr fun x hx hid => ?_
    obtain ⟨hmem, hpending⟩ := List.mem_filter.mp ((pending_perm only d).mem_iff.mp hx)
    simp only [pending, Bool.and_eq_true] at hpending
    exact hn x hmem hpending.1.2 (beq_iff_eq.mp hid)
  rw [hnone] at hrows
  exact hrows

/-- What holds of the ids of all direct edges does not change when edges are
edited without changing their ids and without becoming inferred. -/
theorem direct_ids {f : EdgeRow → EdgeRow} {n : Nat} (hrows : d'.edges.rows = d.edges.rows.map f)
    (hid : ∀ e, (f e).id = e.id) (hdirect : ∀ e, (f e).direct = e.direct) :
    (∀ e ∈ d'.edges.rows, e.direct = true → e.id ≠ n) ↔
      ∀ e ∈ d.edges.rows, e.direct = true → e.id ≠ n := by
  rw [hrows]
  simp only [List.forall_mem_map, hid, hdirect]

theorem resolveFull_ids (d : Database) (n : Nat) :
    (∀ e ∈ (resolveCallEdges c (resetDirectEdgeResolution d)).edges.rows,
      e.direct = true → e.id ≠ n) ↔ ∀ e ∈ d.edges.rows, e.direct = true → e.id ≠ n := by
  refine direct_ids (resolveFull_rows d) (fun e => ?_) fun e => ?_
  · split
    · exact settled_id d e
    · rfl
  · split
    · rename_i hdirect
      rw [settled_direct, hdirect]
    · rfl

theorem anchored_resolveFull (d : Database) :
    Anchored (resolveCallEdges c (resetDirectEdgeResolution d)) := by
  refine anchored_iff.mpr fun n hn => ?_
  have hreset : (∀ e ∈ (resetDirectEdgeResolution d).edges.rows, e.direct = true → e.id ≠ n) ↔
      ∀ e ∈ d.edges.rows, e.direct = true → e.id ≠ n := by
    refine direct_ids (f := fun e => if e.direct then e.reset else e) rfl (fun e => ?_) fun e => ?_
    · split <;> rfl
    · split
      · rename_i hdirect
        rw [reset_direct, hdirect]
      · rfl
  unfold resolveCallEdges
  rw [resolveFiltered_candidates_other none (hreset.mpr ((resolveFull_ids d n).mp hn))]
  rfl

theorem inResetSet_direct {delta : ScanDelta} {e : EdgeRow} (h : inResetSet delta d e = true) :
    e.direct = true := (Bool.and_eq_true_iff.mp h).1

theorem Anchored.resolveTargets (h : Anchored d) (delta : ScanDelta) :
    Anchored (resolveTargets c delta d) := by
  refine anchored_iff.mpr fun n hn => ?_
  have hresult := direct_ids (n := n) (resolveTargets_rows (c := c) delta d)
    (fun e => by split <;> simp)
    (fun e => by
      split
      · rename_i hin
        rw [settled_direct, (inResetSet_direct hin)]
      · rfl)
  have hn := hresult.mp hn
  have hreset : ∀ ids : List Nat, (resetEdges ids d).edges.rows =
      d.edges.rows.map fun e => if ids.contains e.id then e.reset else e := fun _ => rfl
  have hids : ∀ e ∈ d.edges.rows, ((targetEdges delta d).map EdgeRow.id).contains e.id = true →
      e.direct = true := by
    intro e he hin
    rw [targetIds_contains delta he] at hin
    exact inResetSet_direct hin
  unfold Index.resolveTargets
  rw [resolveFiltered_candidates_other, resetEdges_candidates, anchored_iff.mp h n hn, ite_self]
  rw [hreset]
  intro e he hdirect
  obtain ⟨x, hx, rfl⟩ := List.mem_map.mp he
  split at hdirect <;> split
  · exact hn x hx (hids x hx (by assumption))
  · contradiction
  · contradiction
  · exact hn x hx hdirect

theorem Anchored.inferred {d d' : Database} (h : Anchored d) (hs : SameButInferred d d') :
    Anchored d' := by
  intro k hk
  rw [hs.candidates] at hk
  obtain ⟨e, he, hdirect, hid⟩ := h k hk
  have hmem : e ∈ d.edges.rows.filter EdgeRow.direct := List.mem_filter.mpr ⟨he, hdirect⟩
  rw [← hs.direct] at hmem
  exact ⟨e, (List.mem_filter.mp hmem).1, hdirect, hid⟩

theorem Anchored.views {d d' : Database} (h : Anchored d) (hs : SameButViews d d') :
    Anchored d' := by
  unfold Anchored
  rw [hs.candidates, hs.edges]
  exact h

theorem anchored_run (c : PostprocessConfig) (d : Database) : Anchored (run c d) :=
  ((anchored_resolveFull d).inferred (resynthesize_same c _)).views (run_views c d)

theorem Anchored.runIncremental (h : Anchored d) (c : PostprocessConfig) (delta : ScanDelta) :
    Anchored (runIncremental c delta d) :=
  ((h.resolveTargets delta).inferred (resynthesize_same c _)).views (runIncremental_views c delta d)

theorem Indexed.anchored {h : Hashes} (hd : Indexed h d) : Anchored d := by
  induction hd with
  | empty => exact .empty
  | full c ops _ _ => exact anchored_run c _
  | incremental c ops _ ih => exact (ih.applyOps h ops).runIncremental c _

end RemyCC.Index
