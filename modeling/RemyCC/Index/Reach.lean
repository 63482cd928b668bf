import RemyCC.Index.Content
import RemyCC.Index.Formed
import RemyCC.Index.Convergence

/-!
# What a change set reaches

Incremental postprocessing recomputes file kinds and clusters where a touched
file, a reset edge or a change among the inferred edges leads. Into any other
file lead the same edges as before the changes, but for those that went with
the touched files.
-/

namespace RemyCC.Index

open Relational

variable {d₀ d : Database} {delta : ScanDelta} {c : PostprocessConfig}

section Affected

theorem affected_touched {path : String} (h : path ∈ delta.touchedFiles) :
    path ∈ affectedFiles c delta d := by
  unfold affectedFiles
  exact List.mem_append_left _ (List.mem_append_left _ (List.mem_append_left _ h))

theorem affected_target {e : EdgeRow} (he : e ∈ d.edges.rows) (hin : inResetSet delta d e = true)
    {path : String} (hpath : path ∈ edgeFiles e) : path ∈ affectedFiles c delta d := by
  have htarget : e ∈ targetEdges delta d := List.mem_filter.mpr ⟨he, hin⟩
  unfold affectedFiles
  exact List.mem_append_left _ (List.mem_append_left _ (List.mem_append_right _
    (List.mem_flatMap.mpr ⟨e, htarget, hpath⟩)))

theorem settled_mem {e : EdgeRow} (he : e ∈ d.edges.rows) (hin : inResetSet delta d e = true) :
    settled c d e ∈ (resolveTargets c delta d).edges.rows := by
  rw [resolveTargets_rows]
  exact List.mem_map.mpr ⟨e, he, if_pos hin⟩

theorem affected_settled {e : EdgeRow} (he : e ∈ d.edges.rows) (hin : inResetSet delta d e = true)
    {path : String} (hpath : (settled c d e).calleeFile = some path) :
    path ∈ affectedFiles c delta d := by
  have hid : ((targetEdges delta d).map EdgeRow.id).contains (settled c d e).id = true := by
    rw [settled_id, targetIds_contains delta he, hin]
  have hmem : settled c d e ∈ (resolveTargets c delta d).edges.rows.filter fun e =>
      ((targetEdges delta d).map EdgeRow.id).contains e.id :=
    List.mem_filter.mpr ⟨settled_mem he hin, hid⟩
  unfold affectedFiles
  exact List.mem_append_left _ (List.mem_append_right _
    (List.mem_filterMap.mpr ⟨_, hmem, hpath⟩))

theorem affected_inferred {k : SnapshotKey}
    (hcount : (inferredSnapshot (resolveTargets c delta d)).count k ≠
      (inferredSnapshot (resynthesize c (resolveTargets c delta d))).count k)
    {path : String} (hpath : path ∈ keyFiles k) : path ∈ affectedFiles c delta d := by
  have hmem : k ∈ inferredSnapshot (resolveTargets c delta d) ++
      inferredSnapshot (resynthesize c (resolveTargets c delta d)) := by
    by_contra hmiss
    rw [List.mem_append, not_or] at hmiss
    exact hcount ((List.count_eq_zero.mpr hmiss.1).trans (List.count_eq_zero.mpr hmiss.2).symm)
  unfold affectedFiles changedKeys
  exact List.mem_append_right _ (List.mem_flatMap.mpr
    ⟨k, List.mem_filter.mpr ⟨hmem, bne_iff_ne.mpr hcount⟩, hpath⟩)

end Affected

section Reached

/-- The keys of the inferred edges that the facts of an index give rise to. -/
def synthesizedKeys (c : PostprocessConfig) (d : Database) : List SnapshotKey :=
  inferredSnapshot (resynthesize c d)

/-- A change set reaches a top-level group through a touched file, through an
edge of the reset set that starts there, led there or leads there now, or
through an inferred edge from or into it that is gained or lost. -/
def Reached (c : PostprocessConfig) (delta : ScanDelta) (d : Database) (g : String) : Prop :=
  (∃ path ∈ delta.touchedFiles, topGroup path = g) ∨
    (∃ e ∈ d.edges.rows, inResetSet delta d e = true ∧
      ∃ path ∈ edgeFiles e ++ edgeFiles (settled c d e), topGroup path = g) ∨
    ∃ k, (inferredSnapshot d).count k ≠ (synthesizedKeys c d).count k ∧
      ∃ path ∈ keyFiles k, topGroup path = g

theorem inferredEdges_resolveTargets (c : PostprocessConfig) (delta : ScanDelta) (d : Database) :
    inferredEdges (resolveTargets c delta d) = inferredEdges d := by
  have hkeep : ∀ e : EdgeRow, (!(if inResetSet delta d e then settled c d e else e).direct) =
      !e.direct := by
    intro e
    split
    · rename_i hin
      rw [settled_direct, inResetSet_direct hin]
    · rfl
  unfold inferredEdges
  rw [resolveTargets_rows, List.filter_map]
  have hfilter : d.edges.rows.filter ((fun e : EdgeRow => !e.direct) ∘
      fun e => if inResetSet delta d e then settled c d e else e) =
        d.edges.rows.filter fun e => !e.direct := List.filter_congr fun e _ => hkeep e
  rw [hfilter, List.map_map]
  refine List.map_congr_left fun e he => ?_
  have hdirect : e.direct = false := by simpa using (List.mem_filter.mp he).2
  rw [Function.comp_apply, if_neg]
  rw [inResetSet, hdirect, Bool.false_and]
  exact Bool.false_ne_true

theorem inferredSnapshot_resolveTargets (c : PostprocessConfig) (delta : ScanDelta)
    (d : Database) : inferredSnapshot (resolveTargets c delta d) = inferredSnapshot d := by
  rw [inferredSnapshot_eq, inferredSnapshot_eq, inferredEdges_resolveTargets]

theorem synthesizedKeys_resolveTargets (c : PostprocessConfig) (delta : ScanDelta)
    (d : Database) : synthesizedKeys c (resolveTargets c delta d) = synthesizedKeys c d := by
  have hsame := resolveTargets_same (c := c) delta d
  have hcontent : SameContent d (resolveTargets c delta d) := .of_eq hsame.symbols hsame.patterns
  unfold synthesizedKeys
  rw [inferredSnapshot_eq, inferredSnapshot_eq, (hcontent.resynthesize c).inferred]

theorem reached_iff (g : String) :
    Reached c delta d g ↔ (sortedSet ((affectedFiles c delta d).map topGroup)).contains g = true := by
  rw [List.contains_iff_mem, mem_sortedSet, List.mem_map]
  constructor
  · rintro (⟨path, hpath, hg⟩ | ⟨e, he, hin, path, hpath, hg⟩ | ⟨k, hcount, path, hpath, hg⟩)
    · exact ⟨path, affected_touched hpath, hg⟩
    · refine ⟨path, ?_, hg⟩
      rcases List.mem_append.mp hpath with hpath | hpath
      · exact affected_target he hin hpath
      · rcases List.mem_append.mp hpath with hpath | hpath
        · exact affected_settled he hin (Option.mem_toList.mp hpath)
        · rw [settled_sourceFile] at hpath
          exact affected_target he hin (List.mem_append_right _ hpath)
    · refine ⟨path, affected_inferred (k := k) ?_ hpath, hg⟩
      rw [inferredSnapshot_resolveTargets]
      change _ ≠ (synthesizedKeys c (resolveTargets c delta d)).count k
      rw [synthesizedKeys_resolveTargets]
      exact hcount
  · rintro ⟨path, hpath, hg⟩
    unfold affectedFiles at hpath
    simp only [List.mem_append] at hpath
    rcases hpath with ((hpath | hpath) | hpath) | hpath
    · exact Or.inl ⟨path, hpath, hg⟩
    · obtain ⟨e, htarget, hfile⟩ := List.mem_flatMap.mp hpath
      obtain ⟨he, hin⟩ := List.mem_filter.mp htarget
      exact Or.inr (Or.inl ⟨e, he, hin, path, List.mem_append_left _ hfile, hg⟩)
    · obtain ⟨x, hx, hcallee⟩ := List.mem_filterMap.mp hpath
      obtain ⟨hmem, hid⟩ := List.mem_filter.mp hx
      rw [resolveTargets_rows] at hmem
      obtain ⟨e, he, rfl⟩ := List.mem_map.mp hmem
      have hin : inResetSet delta d e = true := by
        have hsame : (if inResetSet delta d e then settled c d e else e).id = e.id := by
          split
          · exact settled_id d e
          · rfl
        rw [hsame, targetIds_contains delta he] at hid
        exact hid
      rw [if_pos hin] at hcallee
      refine Or.inr (Or.inl ⟨e, he, hin, path, List.mem_append_right _ ?_, hg⟩)
      exact List.mem_append_left _ (Option.mem_toList.mpr hcallee)
    · obtain ⟨k, hk, hfile⟩ := List.mem_flatMap.mp hpath
      have hcount := bne_iff_ne.mp (List.mem_filter.mp hk).2
      rw [inferredSnapshot_resolveTargets] at hcount
      change _ ≠ (synthesizedKeys c (resolveTargets c delta d)).count k at hcount
      rw [synthesizedKeys_resolveTargets] at hcount
      exact Or.inr (Or.inr ⟨k, hcount, path, hfile, hg⟩)

end Reached

section Counting

/-- A test of where an edge starts, of the file and of the name that it leads to. -/
abbrev EdgeTest := String → Option String → Option String → Bool

def EdgeRow.passes (p : EdgeTest) (e : EdgeRow) : Bool :=
  p e.sourceFile e.calleeFile e.calleeQualified

/-- Only edges into files outside a list pass the test. -/
def EdgeTest.Spares (p : EdgeTest) (files : List String) : Prop :=
  ∀ s f q, p s f q = true → ∃ path, f = some path ∧ path ≠ "" ∧ path ∉ files

/-- An index without the edges that start in some files. -/
def Database.withoutCallsFrom (files : List String) (d : Database) : Database :=
  { d with edges := d.edges.deleteWhere fun e => files.contains e.sourceFile }

variable {p : EdgeTest}

theorem EdgeTest.Spares.direct_target (hp : p.Spares (affectedFiles c delta d)) {e : EdgeRow}
    (he : e ∈ d.edges.rows) (hin : inResetSet delta d e = true) : e.passes p = false := by
  rw [Bool.eq_false_iff]
  intro hpass
  obtain ⟨path, hcallee, -, hmiss⟩ := hp _ _ _ hpass
  refine hmiss (affected_target he hin ?_)
  exact List.mem_append_left _ (Option.mem_toList.mpr hcallee)

theorem EdgeTest.Spares.settled_target (hp : p.Spares (affectedFiles c delta d)) {e : EdgeRow}
    (he : e ∈ d.edges.rows) (hin : inResetSet delta d e = true) :
    (settled c d e).passes p = false := by
  rw [Bool.eq_false_iff]
  intro hpass
  obtain ⟨path, hcallee, -, hmiss⟩ := hp _ _ _ hpass
  exact hmiss (affected_settled he hin hcallee)

theorem countP_split (d : Database) :
    d.edges.rows.countP (EdgeRow.passes p) =
      (d.edges.rows.filter EdgeRow.direct).countP (EdgeRow.passes p) +
        (d.edges.rows.filter fun e => !e.direct).countP (EdgeRow.passes p) := by
  rw [List.countP_eq_countP_filter_add (q := EdgeRow.direct)]

/-- Resolving the reset edges anew does not change how many direct edges lead
into a file that is not affected. -/
theorem countP_direct (hp : p.Spares (affectedFiles c delta d)) :
    ((resynthesize c (resolveTargets c delta d)).edges.rows.filter EdgeRow.direct).countP
        (EdgeRow.passes p) =
      (d.edges.rows.filter EdgeRow.direct).countP (EdgeRow.passes p) := by
  rw [(resynthesize_same c _).direct, resolveTargets_rows, List.countP_filter, List.countP_filter,
    List.countP_map]
  refine List.countP_congr fun e he => ?_
  rw [Function.comp_apply]
  cases hin : inResetSet delta d e with
  | true =>
    rw [if_pos rfl, hp.settled_target he hin, hp.direct_target he hin]
    rfl
  | false => rfl

theorem countP_inferred (hd : Leading d) :
    (d.edges.rows.filter fun e => !e.direct).countP (EdgeRow.passes p) =
      (inferredSnapshot d).countP fun k => p k.1 (some k.2.1) (some k.2.2) := by
  unfold inferredSnapshot
  rw [List.countP_map]
  refine List.countP_congr fun e he => ?_
  obtain ⟨hmem, hdirect⟩ := List.mem_filter.mp he
  obtain ⟨hfile, hname⟩ := hd e hmem (by simpa using hdirect)
  obtain ⟨file, hfile⟩ := Option.isSome_iff_exists.mp hfile
  obtain ⟨name, hname⟩ := Option.isSome_iff_exists.mp hname
  simp [EdgeRow.passes, snapshotKey, hfile, hname]

/-- Synthesis does not change how many inferred edges lead into such a file either. -/
theorem countP_synthesized (hd : Leading d) (hp : p.Spares (affectedFiles c delta d)) :
    ((resynthesize c (resolveTargets c delta d)).edges.rows.filter fun e => !e.direct).countP
        (EdgeRow.passes p) =
      (d.edges.rows.filter fun e => !e.direct).countP (EdgeRow.passes p) := by
  have hafter := countP_inferred (p := p) (leading_resynthesize c (resolveTargets c delta d))
  rw [hafter, countP_inferred hd]
  refine countP_eq_of_count fun k hk => ?_
  by_contra hcount
  obtain ⟨path, hcallee, hne, hmiss⟩ := hp _ _ _ hk
  have hpath : path = k.2.1 := (Option.some.inj hcallee).symm
  have hchanged : (inferredSnapshot (resolveTargets c delta d)).count k ≠
      (inferredSnapshot (resynthesize c (resolveTargets c delta d))).count k := by
    rw [inferredSnapshot_resolveTargets]
    exact Ne.symm hcount
  have hkey : path ∈ keyFiles k := by
    unfold keyFiles
    rw [if_neg (hpath ▸ hne), hpath]
    exact List.mem_cons_of_mem _ List.mem_cons_self
  exact hmiss (affected_inferred hchanged hkey)

/-- Into a file that is not affected lead the edges from before the changes that
start outside the touched files. -/
theorem Tracks.countP_eq (h : Tracks d₀ d delta) (hd : Leading d)
    (hp : p.Spares (affectedFiles c delta d)) :
    (resynthesize c (resolveTargets c delta d)).edges.rows.countP (EdgeRow.passes p) =
      (d₀.withoutCallsFrom delta.touchedFiles).edges.rows.countP (EdgeRow.passes p) := by
  have hrows : (d₀.withoutCallsFrom delta.touchedFiles).edges.rows =
      d.edges.rows.filter fun e => e.sourceFile ∉ delta.touchedFiles := by
    rw [h.edges]
    refine List.filter_congr fun e _ => ?_
    rw [Bool.eq_iff_iff]
    simp
  rw [countP_split, countP_direct hp, countP_synthesized hd hp, ← countP_split, hrows,
    List.countP_filter]
  refine List.countP_congr fun e he => ?_
  by_cases htouched : e.sourceFile ∈ delta.touchedFiles
  · have hdirect : e.direct = true := by
      by_contra hinferred
      exact h.inferred e he (Bool.eq_false_iff.mpr hinferred) htouched
    have hin : inResetSet delta d e = true := by
      rw [inResetSet, hdirect, List.contains_iff_mem.mpr htouched]
      rfl
    rw [hp.direct_target he hin]
    rfl
  · simp [htouched]

end Counting

end RemyCC.Index
