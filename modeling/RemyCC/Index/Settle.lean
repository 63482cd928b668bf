import RemyCC.Index.Reads
import RemyCC.Index.Postprocess

/-!
# The outcome of resolution

The loop over the unresolved edges changes each of them once and by itself, so
its outcome is one map over the edges. A full and a targeted resolution then
differ only in which edges they reset, and they agree as soon as every edge
left alone stands as its own resolution leaves it.
-/

namespace RemyCC.Index

open Relational

section Candidates

def candidatesOf (id : Nat) (d : Database) : List CandidateRow :=
  d.candidates.rows.filter fun k => k.edgeId == id

/-- Within one edge a candidate is listed once, with its first score. -/
def addRow (rows : List CandidateRow) (r : CandidateRow) : List CandidateRow :=
  if rows.any fun s => s.candidateQualified == r.candidateQualified then rows else rows ++ [r]

def addRows (id : Nat) (rows : List CandidateRow) (ks : List (String × Nat)) :
    List CandidateRow :=
  ks.foldl (fun rows k => addRow rows ⟨id, k.1, k.2⟩) rows

theorem insertOrIgnore_filter (t : Keyed CandidateRow.key) (r : CandidateRow) (id : Nat) :
    (t.insertOrIgnore r).rows.filter (fun k => k.edgeId == id) =
      if r.edgeId = id then addRow (t.rows.filter fun k => k.edgeId == id) r
      else t.rows.filter fun k => k.edgeId == id := by
  unfold Keyed.insertOrIgnore addRow
  by_cases hid : r.edgeId = id
  · subst hid
    have hany : (t.rows.filter fun k => k.edgeId == r.edgeId).any
        (fun s => s.candidateQualified == r.candidateQualified) = true ↔
          ∃ s ∈ t.rows, CandidateRow.key s = CandidateRow.key r := by
      simp [CandidateRow.key, List.any_eq_true]
    simp only [hany, if_true]
    split <;> simp
  · rw [if_neg hid]
    split
    · rfl
    · simp [hid]

theorem addCandidates_self (id : Nat) (ks : List (String × Nat)) (d : Database) :
    candidatesOf id (d.addCandidates id ks) = addRows id (candidatesOf id d) ks := by
  unfold candidatesOf Database.addCandidates addRows
  generalize d.candidates = t
  induction ks generalizing t with
  | nil => rfl
  | cons k ks ih =>
    rw [List.foldl_cons, List.foldl_cons, ih, insertOrIgnore_filter, if_pos rfl]

theorem addCandidates_other {id n : Nat} (h : id ≠ n) (ks : List (String × Nat)) (d : Database) :
    candidatesOf n (d.addCandidates id ks) = candidatesOf n d := by
  unfold candidatesOf Database.addCandidates
  generalize d.candidates = t
  induction ks generalizing t with
  | nil => rfl
  | cons k ks ih => rw [List.foldl_cons, ih, insertOrIgnore_filter, if_neg h]

end Candidates

section Loop

variable {c : PostprocessConfig} {i : ImportDerivation}

theorem resolveEdge_of_same {d d' : Database} (hfiles : d'.files = d.files)
    (hsymbols : d'.symbols = d.symbols) (e : EdgeRow) :
    resolveEdge c i d' e = resolveEdge c i d e := by
  obtain ⟨files, symbols, _, _, _, _, _, _⟩ := d
  obtain ⟨files', symbols', _, _, _, _, _, _⟩ := d'
  cases hfiles
  cases hsymbols
  rfl

def settle (r : Option Resolution) (e : EdgeRow) : EdgeRow :=
  match r with
  | some r => e.resolveTo r
  | none => e

@[simp]
theorem settle_id (r : Option Resolution) (e : EdgeRow) : (settle r e).id = e.id := by
  cases r <;> rfl

def settleRows (id : Nat) (r : Option Resolution) (rows : List CandidateRow) : List CandidateRow :=
  match r with
  | some r => addRows id rows r.candidates
  | none => rows

/-- A step of the loop leaves everything but edges and candidates as it is. -/
structure SameButEdges (d d' : Database) : Prop where
  files : d'.files = d.files
  symbols : d'.symbols = d.symbols
  occurrences : d'.occurrences = d.occurrences
  patterns : d'.patterns = d.patterns
  clusters : d'.clusters = d.clusters
  members : d'.members = d.members
  last : d'.edges.last = d.edges.last

theorem SameButEdges.refl (d : Database) : SameButEdges d d := ⟨rfl, rfl, rfl, rfl, rfl, rfl, rfl⟩

theorem SameButEdges.trans {d d' d'' : Database} (h : SameButEdges d d')
    (h' : SameButEdges d' d'') : SameButEdges d d'' where
  files := h'.files.trans h.files
  symbols := h'.symbols.trans h.symbols
  occurrences := h'.occurrences.trans h.occurrences
  patterns := h'.patterns.trans h.patterns
  clusters := h'.clusters.trans h.clusters
  members := h'.members.trans h.members
  last := h'.last.trans h.last

theorem resolveStep_same (d : Database) (x : EdgeRow) : SameButEdges d (resolveStep c i d x) := by
  unfold resolveStep
  split
  · exact ⟨rfl, rfl, rfl, rfl, rfl, rfl, rfl⟩
  · exact .refl d

theorem resolveStep_rows (d : Database) (x : EdgeRow) :
    (resolveStep c i d x).edges.rows = d.edges.rows.map fun e =>
      if e.id == x.id then settle (resolveEdge c i d x) e else e := by
  unfold resolveStep settle
  cases resolveEdge c i d x with
  | none => simp
  | some r => rfl

theorem resolveStep_candidates (d : Database) (x : EdgeRow) (n : Nat) :
    candidatesOf n (resolveStep c i d x) =
      if n = x.id then settleRows n (resolveEdge c i d x) (candidatesOf n d)
      else candidatesOf n d := by
  unfold resolveStep settleRows
  cases resolveEdge c i d x with
  | none => simp
  | some r =>
    by_cases hn : n = x.id
    · subst hn
      rw [if_pos rfl]
      exact addCandidates_self x.id r.candidates _
    · rw [if_neg hn]
      exact addCandidates_other (Ne.symm hn) r.candidates _

theorem foldl_resolveStep_same (L : List EdgeRow) (d : Database) :
    SameButEdges d (L.foldl (resolveStep c i) d) := by
  induction L generalizing d with
  | nil => exact .refl d
  | cons x L ih => exact (resolveStep_same d x).trans (ih _)

theorem foldl_resolveStep_rows {L : List EdgeRow} (hL : (L.map EdgeRow.id).Nodup) (d : Database) :
    (L.foldl (resolveStep c i) d).edges.rows = d.edges.rows.map fun e =>
      match L.find? fun x => x.id == e.id with
      | some x => settle (resolveEdge c i d x) e
      | none => e := by
  induction L generalizing d with
  | nil => simp
  | cons x L ih =>
    rw [List.map_cons, List.nodup_cons] at hL
    have hsame := resolveStep_same (c := c) (i := i) d x
    rw [List.foldl_cons, ih hL.2, resolveStep_rows, List.map_map]
    refine List.map_congr_left fun e _ => ?_
    simp only [Function.comp_apply, resolveEdge_of_same hsame.files hsame.symbols]
    by_cases he : e.id = x.id
    · have hnone : L.find? (fun y => y.id == e.id) = none := by
        refine List.find?_eq_none.mpr fun y hy hid => hL.1 ?_
        rw [← he, ← beq_iff_eq.mp hid]
        exact List.mem_map_of_mem hy
      simp [he, he ▸ hnone]
    · have hx : (x.id == e.id) = false := by simpa using Ne.symm he
      simp [he, hx]

theorem foldl_resolveStep_candidates {L : List EdgeRow} (hL : (L.map EdgeRow.id).Nodup)
    (d : Database) (n : Nat) :
    candidatesOf n (L.foldl (resolveStep c i) d) =
      match L.find? fun x => x.id == n with
      | some x => settleRows n (resolveEdge c i d x) (candidatesOf n d)
      | none => candidatesOf n d := by
  induction L generalizing d with
  | nil => rfl
  | cons x L ih =>
    rw [List.map_cons, List.nodup_cons] at hL
    have hsame := resolveStep_same (c := c) (i := i) d x
    rw [List.foldl_cons, ih hL.2, resolveStep_candidates]
    simp only [resolveEdge_of_same hsame.files hsame.symbols]
    by_cases hn : n = x.id
    · have hnone : L.find? (fun y => y.id == n) = none := by
        refine List.find?_eq_none.mpr fun y hy hid => hL.1 ?_
        rw [← hn, ← beq_iff_eq.mp hid]
        exact List.mem_map_of_mem hy
      simp [hn, hn ▸ hnone]
    · have hx : (x.id == n) = false := by simpa using Ne.symm hn
      simp [hn, hx]

end Loop

section Outcome

variable {c : PostprocessConfig}

def allowed (only : Option (List Nat)) (e : EdgeRow) : Bool :=
  match only with
  | some ids => ids.contains e.id
  | none => true

/-- The edges that the loop works on. -/
def pending (only : Option (List Nat)) (e : EdgeRow) : Bool :=
  e.calleeQualified.isNone && e.direct && allowed only e

theorem pending_perm (only : Option (List Nat)) (d : Database) :
    List.Perm ((unresolvedEdges d).filter (allowed only)) (d.edges.rows.filter (pending only)) := by
  have hperm := (orderBy_perm edgeOrder
    (d.edges.rows.filter fun e => e.calleeQualified.isNone && e.direct)).filter (allowed only)
  rw [List.filter_filter] at hperm
  refine hperm.trans (List.Perm.of_eq (List.filter_congr fun e _ => ?_))
  rw [pending, Bool.and_comm]

theorem find?_pending (only : Option (List Nat)) {d : Database} {e : EdgeRow}
    (he : e ∈ d.edges.rows) :
    ((unresolvedEdges d).filter (allowed only)).find? (fun x => x.id == e.id) =
      if pending only e then some e else none := by
  have hmem : ∀ x, x ∈ (unresolvedEdges d).filter (allowed only) ↔
      x ∈ d.edges.rows ∧ pending only x = true := by
    intro x
    rw [(pending_perm only d).mem_iff, List.mem_filter]
  have hself : ∀ x ∈ (unresolvedEdges d).filter (allowed only), (x.id == e.id) = true → x = e :=
    fun x hx hid => d.edges.eq_of_number ((hmem x).mp hx).1 he (beq_iff_eq.mp hid)
  split
  · rename_i hp
    cases hfind : ((unresolvedEdges d).filter (allowed only)).find? (fun x => x.id == e.id) with
    | none =>
      have hnone := List.find?_eq_none.mp hfind e ((hmem e).mpr ⟨he, hp⟩)
      simp at hnone
    | some x =>
      have hx := List.mem_of_find?_eq_some hfind
      have hid := List.find?_some hfind
      rw [hself x hx hid]
  · rename_i hp
    refine List.find?_eq_none.mpr fun x hx hid => hp ?_
    rw [← hself x hx hid]
    exact ((hmem x).mp hx).2

theorem pending_nodup (only : Option (List Nat)) (d : Database) :
    (((unresolvedEdges d).filter (allowed only)).map EdgeRow.id).Nodup := by
  refine ((pending_perm only d).map EdgeRow.id).nodup_iff.mpr ?_
  exact d.edges.nodup.sublist (List.Sublist.map EdgeRow.id List.filter_sublist)

theorem resolveFiltered_same (only : Option (List Nat)) (d : Database) :
    SameButEdges d (resolveCallEdgesFiltered c only d) :=
  foldl_resolveStep_same _ d

theorem resolveFiltered_rows (only : Option (List Nat)) (d : Database) :
    (resolveCallEdgesFiltered c only d).edges.rows = d.edges.rows.map fun e =>
      if pending only e then settle (resolveEdge c (deriveImportBindings d) d e) e else e := by
  have hrows := foldl_resolveStep_rows (c := c) (i := deriveImportBindings d)
    (pending_nodup only d) d
  refine hrows.trans (List.map_congr_left fun e he => ?_)
  rw [find?_pending only he]
  cases pending only e <;> rfl

theorem resolveFiltered_candidates (only : Option (List Nat)) {d : Database} {e : EdgeRow}
    (he : e ∈ d.edges.rows) :
    candidatesOf e.id (resolveCallEdgesFiltered c only d) =
      if pending only e then
        settleRows e.id (resolveEdge c (deriveImportBindings d) d e) (candidatesOf e.id d)
      else candidatesOf e.id d := by
  have hrows := foldl_resolveStep_candidates (c := c) (i := deriveImportBindings d)
    (pending_nodup only d) d e.id
  refine hrows.trans ?_
  rw [find?_pending only he]
  cases pending only e <;> rfl

/-- An edge as resolution from scratch leaves it. -/
def settled (c : PostprocessConfig) (d : Database) (e : EdgeRow) : EdgeRow :=
  settle (resolveEdge c (deriveImportBindings d) d e) e.reset

def settledCandidates (c : PostprocessConfig) (d : Database) (e : EdgeRow) : List CandidateRow :=
  settleRows e.id (resolveEdge c (deriveImportBindings d) d e) []

theorem chooseProvenance_ne_inferred (e : EdgeRow) (candidates : List (String × Nat))
    (score : Nat) : chooseProvenance c e candidates score ≠ .inferred := by
  unfold chooseProvenance
  split
  · exact fun h => Provenance.noConfusion h
  · split <;> exact fun h => Provenance.noConfusion h

theorem reset_direct (e : EdgeRow) : e.reset.direct = true := rfl

theorem settled_direct (d : Database) (e : EdgeRow) : (settled c d e).direct = true := by
  unfold settled
  cases h : resolveEdge c (deriveImportBindings d) d e with
  | none => rfl
  | some r =>
    obtain ⟨first, -, rfl⟩ := Option.map_eq_some_iff.mp h
    exact bne_iff_ne.mpr fun heq => chooseProvenance_ne_inferred _ _ _ (Option.some.inj heq)

@[simp]
theorem settled_id (d : Database) (e : EdgeRow) : (settled c d e).id = e.id := by
  unfold settled
  rw [settle_id]
  rfl

/-- The resolution of an edge does not read what an earlier one left in it. -/
theorem resolveEdge_reset (i : ImportDerivation) (d : Database) (e : EdgeRow) :
    resolveEdge c i d e.reset = resolveEdge c i d e := rfl

theorem settled_settled (d d' : Database) (e : EdgeRow) :
    settled c d' (settled c d e) = settled c d' e := by
  unfold settled
  cases resolveEdge c (deriveImportBindings d) d e with
  | none => rfl
  | some r => rfl

theorem settledCandidates_settled (d d' : Database) (e : EdgeRow) :
    settledCandidates c d' (settled c d e) = settledCandidates c d' e := by
  unfold settledCandidates settled
  cases resolveEdge c (deriveImportBindings d) d e with
  | none => rfl
  | some r => rfl

end Outcome

section Reset

variable {c : PostprocessConfig}

theorem derive_of_same {d d' : Database} (h : SameButEdges d d') :
    deriveImportBindings d' = deriveImportBindings d := by
  obtain ⟨files, _, _, _, _, _, _, _⟩ := d
  obtain ⟨files', _, _, _, _, _, _, _⟩ := d'
  cases h.files
  rfl

theorem resolveEdge_of_reset {d d' : Database} (h : SameButEdges d d') (e : EdgeRow) :
    resolveEdge c (deriveImportBindings d') d' e.reset =
      resolveEdge c (deriveImportBindings d) d e := by
  rw [resolveEdge_reset, derive_of_same h, resolveEdge_of_same h.files h.symbols]

theorem resetFull_same (d : Database) : SameButEdges d (resetDirectEdgeResolution d) :=
  ⟨rfl, rfl, rfl, rfl, rfl, rfl, rfl⟩

theorem resolveFull_same (d : Database) :
    SameButEdges d (resolveCallEdges c (resetDirectEdgeResolution d)) :=
  (resetFull_same d).trans (resolveFiltered_same none _)

theorem resolveFull_rows (d : Database) :
    (resolveCallEdges c (resetDirectEdgeResolution d)).edges.rows = d.edges.rows.map fun e =>
      if e.direct then settled c d e else e := by
  have hreset : (resetDirectEdgeResolution d).edges.rows =
      d.edges.rows.map fun e => if e.direct then e.reset else e := rfl
  unfold resolveCallEdges
  rw [resolveFiltered_rows, hreset, List.map_map]
  refine List.map_congr_left fun e _ => ?_
  cases hdirect : e.direct with
  | true =>
    have hpending : pending none e.reset = true := rfl
    simp only [Function.comp_apply, hdirect, if_true, hpending,
      resolveEdge_of_reset (resetFull_same d)]
    rfl
  | false => simp [pending, hdirect]

theorem resolveFull_candidates {d : Database} {e : EdgeRow} (he : e ∈ d.edges.rows)
    (hdirect : e.direct = true) :
    candidatesOf e.id (resolveCallEdges c (resetDirectEdgeResolution d)) =
      settledCandidates c d e := by
  have hmem : e.reset ∈ (resetDirectEdgeResolution d).edges.rows :=
    List.mem_map.mpr ⟨e, he, by simp [hdirect]⟩
  have hnone : candidatesOf e.id (resetDirectEdgeResolution d) = [] := rfl
  have hrows := resolveFiltered_candidates (c := c) none hmem
  rw [show pending none e.reset = true from rfl, if_pos rfl,
    resolveEdge_of_reset (resetFull_same d)] at hrows
  exact hrows

theorem targetIds_contains (delta : ScanDelta) {d : Database} {e : EdgeRow}
    (he : e ∈ d.edges.rows) :
    ((targetEdges delta d).map EdgeRow.id).contains e.id = inResetSet delta d e := by
  rw [Bool.eq_iff_iff, List.contains_iff_mem, List.mem_map]
  constructor
  · rintro ⟨x, hx, hid⟩
    obtain ⟨hmem, hreset⟩ := List.mem_filter.mp hx
    rwa [← d.edges.eq_of_number hmem he hid]
  · intro hreset
    exact ⟨e, List.mem_filter.mpr ⟨he, hreset⟩, rfl⟩

theorem resetEdges_same (ids : List Nat) (d : Database) : SameButEdges d (resetEdges ids d) :=
  ⟨rfl, rfl, rfl, rfl, rfl, rfl, rfl⟩

theorem resolveTargets_same (delta : ScanDelta) (d : Database) :
    SameButEdges d (resolveTargets c delta d) := by
  unfold resolveTargets
  exact (resetEdges_same _ d).trans (resolveFiltered_same _ _)

theorem pending_reset {ids : List Nat} {e : EdgeRow} (h : ids.contains e.id = true) :
    pending (some ids) e.reset = true := h

theorem not_pending {ids : List Nat} {e : EdgeRow} (h : ids.contains e.id = false) :
    pending (some ids) e = false := by
  rw [pending, allowed, h, Bool.and_false]

theorem resolveTargets_rows (delta : ScanDelta) (d : Database) :
    (resolveTargets c delta d).edges.rows = d.edges.rows.map fun e =>
      if inResetSet delta d e then settled c d e else e := by
  have hreset : ∀ ids, (resetEdges ids d).edges.rows =
      d.edges.rows.map fun e => if ids.contains e.id then e.reset else e := fun _ => rfl
  unfold resolveTargets
  rw [resolveFiltered_rows, hreset, List.map_map]
  refine List.map_congr_left fun e he => ?_
  have hids := targetIds_contains delta he
  cases hin : inResetSet delta d e with
  | true =>
    rw [hin] at hids
    simp only [Function.comp_apply, hids, if_true, pending_reset hids,
      resolveEdge_of_reset (resetEdges_same _ d)]
    rfl
  | false =>
    rw [hin] at hids
    simp only [Function.comp_apply, hids, not_pending hids, Bool.false_eq_true,
      if_false]

theorem resetEdges_candidates (ids : List Nat) (d : Database) (n : Nat) :
    candidatesOf n (resetEdges ids d) = if ids.contains n then [] else candidatesOf n d := by
  change ((d.candidates.deleteWhere fun k => ids.contains k.edgeId).rows.filter
    fun k => k.edgeId == n) = _
  rw [Keyed.deleteWhere_rows, List.filter_filter]
  split
  · rename_i hn
    refine List.filter_eq_nil_iff.mpr fun k _ hk => ?_
    rw [Bool.and_eq_true_iff, beq_iff_eq] at hk
    rw [hk.1, hn] at hk
    exact Bool.noConfusion hk.2
  · rename_i hn
    refine List.filter_congr fun k _ => ?_
    cases hk : k.edgeId == n with
    | false => rfl
    | true => rw [beq_iff_eq.mp hk, Bool.eq_false_iff.mpr hn, Bool.not_false, Bool.and_true]

theorem resolveTargets_candidates {delta : ScanDelta} {d : Database} {e : EdgeRow}
    (he : e ∈ d.edges.rows) :
    candidatesOf e.id (resolveTargets c delta d) =
      if inResetSet delta d e then settledCandidates c d e else candidatesOf e.id d := by
  have hids := targetIds_contains delta he
  generalize hi : (targetEdges delta d).map EdgeRow.id = ids at hids
  have hunfold : resolveTargets c delta d =
      resolveCallEdgesFiltered c (some ids) (resetEdges ids d) := by rw [← hi]; rfl
  rw [hunfold]
  cases hin : inResetSet delta d e with
  | true =>
    rw [hin] at hids
    have hmem : e.reset ∈ (resetEdges ids d).edges.rows :=
      List.mem_map.mpr ⟨e, he, by simp only [hids, if_true]⟩
    have hrows := resolveFiltered_candidates (c := c) (some ids) hmem
    rw [pending_reset hids, if_pos rfl, resolveEdge_of_reset (resetEdges_same _ d),
      show e.reset.id = e.id from rfl, resetEdges_candidates, if_pos hids] at hrows
    exact hrows
  | false =>
    rw [hin] at hids
    have hmem : e ∈ (resetEdges ids d).edges.rows :=
      List.mem_map.mpr ⟨e, he, by simp only [hids, Bool.false_eq_true, if_false]⟩
    have hrows := resolveFiltered_candidates (c := c) (some ids) hmem
    rw [not_pending hids, resetEdges_candidates, hids] at hrows
    exact hrows

end Reset

end RemyCC.Index
