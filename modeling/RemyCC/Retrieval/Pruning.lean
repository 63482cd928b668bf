import Mathlib.Data.String.Basic
import RemyCC.Retrieval.Readers

/-!
# Pruning the history of summaries

Versions older than a cutoff are deleted, but for the newest one of each node
and the one that is its current summary. Times are compared as texts are; of the
order of times nothing else is used.
-/

namespace RemyCC.Retrieval

open Relational Text Index Python

structure HistoryRow (Time : Type) where
  id : Nat
  node : Node
  version : Nat
  summary : Option String
  status : String
  createdAt : Time
  deriving DecidableEq, Repr

def HistoryRow.row {Time : Type} (r : HistoryRow Time) : VersionRow :=
  ⟨r.id, r.version, r.summary, r.status⟩

/-- Later versions of a node have greater numbers, and were not written earlier. -/
structure IsHistory {Time : Type} [LinearOrder Time] (rows : List (HistoryRow Time)) : Prop where
  numbered : ∀ r ∈ rows, ∀ s ∈ rows, r.id = s.id → r = s
  versioned : ∀ r ∈ rows, ∀ s ∈ rows, r.node = s.node → r.version = s.version → r = s
  ordered : ∀ r ∈ rows, ∀ s ∈ rows, r.node = s.node → r.version < s.version →
    r.id < s.id ∧ r.createdAt ≤ s.createdAt

theorem IsHistory.filter {Time : Type} [LinearOrder Time] {rows : List (HistoryRow Time)}
    (h : IsHistory rows) (keep : HistoryRow Time → Bool) : IsHistory (rows.filter keep) where
  numbered r hr s hs := h.numbered r (List.mem_filter.mp hr).1 s (List.mem_filter.mp hs).1
  versioned r hr s hs := h.versioned r (List.mem_filter.mp hr).1 s (List.mem_filter.mp hs).1
  ordered r hr s hs := h.ordered r (List.mem_filter.mp hr).1 s (List.mem_filter.mp hs).1

structure History (Time : Type) [LinearOrder Time] where
  rows : List (HistoryRow Time)
  isHistory : IsHistory rows

namespace History

variable {Time : Type} [LinearOrder Time] (limits : Limits) (h : History Time)

section Source

def rowsOf (node : Node) : List (HistoryRow Time) := h.rows.filter fun r => r.node == node

/-- `ORDER BY version DESC`. -/
def newest (node : Node) : List (HistoryRow Time) :=
  orderBy (fun a b => compare b.version a.version) (h.rowsOf node)

def selectCurrent (node : Node) : Except LoadError ToolSummary :=
  selectTool limits ((h.rowsOf node).map HistoryRow.row)

/-- What `write_summary_version` reads first: the version before the one it writes, and the
summary that it compares with. -/
def predecessor (node : Node) : Nat × Option String :=
  match (h.newest node).head? with
  | some r => (r.version, r.summary)
  | none => (0, none)

def nodes : List Node := (h.rows.map HistoryRow.node).dedup

/-- `MAX(id)`. -/
def latestId (node : Node) : Nat := ((h.rowsOf node).map HistoryRow.id).foldr max 0

def protectedFrom : List Node → Except LoadError (List Nat)
  | [] => .ok []
  | node :: nodes => do
    let current ← h.selectCurrent limits node
    let others ← protectedFrom nodes
    return h.latestId node :: (current.id.toList ++ others)

def protectedSummaryIds : Except LoadError (List Nat) := h.protectedFrom limits h.nodes

def keeping (keep : HistoryRow Time → Bool) : History Time :=
  ⟨h.rows.filter keep, h.isHistory.filter keep⟩

def spared (cutoff : Time) (ids : List Nat) (r : HistoryRow Time) : Bool :=
  !(decide (r.createdAt < cutoff)) || ids.contains r.id

/-- The deletion of `cmd_summary_vacuum`; where the selection of a node raises, nothing is
deleted. Without a protected row there is no row to keep. -/
def vacuum (cutoff : Time) : History Time :=
  match h.protectedSummaryIds limits with
  | .ok ids => h.keeping (spared cutoff ids)
  | .error _ => h

end Source

variable {limits h}

theorem eq_of_rows {h h' : History Time} (hrows : h.rows = h'.rows) : h = h' := by
  cases h
  cases h'
  cases hrows
  rfl

section Newest

theorem mem_rowsOf {node : Node} {r : HistoryRow Time} :
    r ∈ h.rowsOf node ↔ r ∈ h.rows ∧ r.node = node := by
  rw [rowsOf, List.mem_filter, beq_iff_eq]

theorem mem_newest {node : Node} {r : HistoryRow Time} :
    r ∈ h.newest node ↔ r ∈ h.rows ∧ r.node = node := by
  rw [newest, mem_orderBy, mem_rowsOf]

theorem newest_pairwise (node : Node) :
    (h.newest node).Pairwise fun a b => b.version ≤ a.version := by
  have htotal : Std.Total fun a b : HistoryRow Time =>
      (compare b.version a.version).isLE = true :=
    ⟨fun a b => by
      simp only [Nat.isLE_compare]
      exact Nat.le_total b.version a.version⟩
  have htrans : IsTrans (HistoryRow Time) fun a b =>
      (compare b.version a.version).isLE = true :=
    ⟨fun a b c hab hbc => by
      simp only [Nat.isLE_compare] at hab hbc ⊢
      exact hbc.trans hab⟩
  refine (List.pairwise_insertionSort (fun a b : HistoryRow Time =>
    (compare b.version a.version).isLE = true) (h.rowsOf node)).imp fun {a b} hab => ?_
  exact Nat.isLE_compare.mp hab

theorem newest_keeping (keep : HistoryRow Time → Bool) (node : Node) :
    (h.keeping keep).newest node = (h.newest node).filter keep := by
  have hfilter : (h.keeping keep).rowsOf node = (h.rowsOf node).filter keep := by
    unfold rowsOf keeping
    rw [List.filter_filter, List.filter_filter]
    exact List.filter_congr fun r _ => Bool.and_comm _ _
  have hperm : List.Perm ((h.keeping keep).newest node) ((h.newest node).filter keep) := by
    rw [newest, hfilter]
    exact (orderBy_perm _ _).trans ((orderBy_perm _ _).filter keep).symm
  refine hperm.eq_of_pairwise (fun a b ha hb hab hba => ?_) (newest_pairwise node)
    ((newest_pairwise node).filter keep)
  have ha' := mem_newest.mp ha
  have hb' := mem_newest.mp (List.mem_of_mem_filter hb)
  exact h.isHistory.versioned a (List.mem_of_mem_filter ha'.1) b hb'.1 (ha'.2.trans hb'.2.symm)
    (Nat.le_antisymm hba hab)

theorem selectCurrent_eq (node : Node) : h.selectCurrent limits node =
    selectLoaded limits ((h.newest node).head?.map HistoryRow.status)
      ((h.newest node).map HistoryRow.row) := by
  have hsort : (h.newest node).map HistoryRow.row =
      newestFirst ((h.rowsOf node).map HistoryRow.row) :=
    map_orderBy_comp HistoryRow.row (fun a b => compare b.version a.version) _
  rw [selectCurrent, selectTool, ← hsort, List.head?_map, Option.map_map]
  rfl

/-- The newest version of a node has its greatest number. -/
theorem latestId_eq {node : Node} {r : HistoryRow Time} {rest : List (HistoryRow Time)}
    (hnewest : h.newest node = r :: rest) : h.latestId node = r.id := by
  have hr : r ∈ h.rows ∧ r.node = node := mem_newest.mp (hnewest ▸ List.mem_cons_self)
  have hmax : ∀ s ∈ h.rowsOf node, s.id ≤ r.id := by
    intro s hs
    have hs' := mem_rowsOf.mp hs
    have hmem : s ∈ r :: rest := hnewest ▸ mem_newest.mpr hs'
    rcases List.mem_cons.mp hmem with rfl | hrest
    · exact le_rfl
    · have hpairwise := newest_pairwise (h := h) node
      rw [hnewest, List.pairwise_cons] at hpairwise
      rcases Nat.lt_or_eq_of_le (hpairwise.1 s hrest) with hlt | heq
      · exact (h.isHistory.ordered s hs'.1 r hr.1 (hs'.2.trans hr.2.symm) hlt).1.le
      · exact (congrArg HistoryRow.id
          (h.isHistory.versioned s hs'.1 r hr.1 (hs'.2.trans hr.2.symm) heq)).le
  have hle : ∀ rows : List (HistoryRow Time), (∀ s ∈ rows, s.id ≤ r.id) →
      (rows.map HistoryRow.id).foldr max 0 ≤ r.id := by
    intro rows hrows
    induction rows with
    | nil => exact Nat.zero_le _
    | cons s rows ih =>
      exact Nat.max_le.mpr ⟨hrows s List.mem_cons_self,
        ih fun t ht => hrows t (List.mem_cons_of_mem _ ht)⟩
  have hge : ∀ rows : List (HistoryRow Time), r ∈ rows →
      r.id ≤ (rows.map HistoryRow.id).foldr max 0 := by
    intro rows hmem
    induction rows with
    | nil => cases hmem
    | cons s rows ih =>
      rcases List.mem_cons.mp hmem with rfl | hmem
      · exact Nat.le_max_left _ _
      · exact (ih hmem).trans (Nat.le_max_right _ _)
  exact Nat.le_antisymm (hle _ hmax) (hge _ (mem_rowsOf.mpr hr))

end Newest

section Stops

/-- The selection goes on behind the version. -/
def passes (limits : Limits) (r : HistoryRow Time) : Bool :=
  !r.row.stale && match r.row.load limits with
    | .ok none => true
    | _ => false

/-- The version that the selection ends at. -/
def stop? (limits : Limits) (rows : List (HistoryRow Time)) : Option (HistoryRow Time) :=
  rows.find? fun r => !passes limits r

def fallen (latestStatus : Option String) : ToolSummary :=
  ⟨none, none, none, none, latestStatus, latestStatus⟩

theorem passes_iff {r : HistoryRow Time} : passes limits r = true ↔
    r.row.stale = false ∧ r.row.load limits = .ok none := by
  unfold passes
  rw [Bool.and_eq_true, Bool.not_eq_true']
  refine and_congr_right fun _ => ?_
  split
  · next hload => simp [hload]
  · next hload => exact ⟨Bool.noConfusion, fun hnone => absurd hnone hload⟩

theorem selectLoaded_stop (latestStatus : Option String) (rows : List (HistoryRow Time)) :
    selectLoaded limits latestStatus (rows.map HistoryRow.row) =
      match stop? limits rows with
      | some r => selectLoaded limits latestStatus [r.row]
      | none => .ok (fallen latestStatus) := by
  induction rows with
  | nil => rfl
  | cons r rows ih =>
    unfold stop?
    cases hpass : passes limits r with
    | true =>
      obtain ⟨hstale, hload⟩ := passes_iff.mp hpass
      rw [List.find?_cons_of_neg (by rw [hpass]; decide), List.map_cons, selectLoaded, hstale,
        if_neg Bool.false_ne_true, hload]
      exact ih
    | false =>
      rw [List.find?_cons_of_pos (by rw [hpass]; rfl), List.map_cons, selectLoaded]
      dsimp only
      rw [selectLoaded]
      split
      · rfl
      · next hstale =>
        split
        · rfl
        · rfl
        · next hload =>
          have hpasses := passes_iff.mpr ⟨Bool.eq_false_iff.mpr hstale, hload⟩
          rw [hpass] at hpasses
          cases hpasses

theorem stop?_filter {rows : List (HistoryRow Time)} {keep : HistoryRow Time → Bool}
    (hkeep : ∀ r, stop? limits rows = some r → keep r = true) :
    stop? limits (rows.filter keep) = stop? limits rows := by
  induction rows with
  | nil => rfl
  | cons r rows ih =>
    cases hpass : passes limits r with
    | true =>
      have hstop : stop? limits (r :: rows) = stop? limits rows :=
        List.find?_cons_of_neg (by rw [hpass]; decide)
      rw [hstop] at hkeep ⊢
      rw [List.filter_cons]
      split
      · exact (List.find?_cons_of_neg (by rw [hpass]; decide)).trans (ih hkeep)
      · exact ih hkeep
    | false =>
      have hstop : ∀ rest, stop? limits (r :: rest) = some r := fun rest =>
        List.find?_cons_of_pos (by rw [hpass]; rfl)
      rw [List.filter_cons_of_pos (hkeep r (hstop rows)), hstop, hstop]

theorem stop?_some {node : Node} {r : HistoryRow Time}
    (hstop : stop? limits (h.newest node) = some r) :
    r ∈ h.rows ∧ r.node = node ∧ passes limits r = false ∧
      ∀ s ∈ h.rows, s.node = node → r.version < s.version → passes limits s = true := by
  obtain ⟨hpass, before, after, hsplit, hbefore⟩ := List.find?_eq_some_iff_append.mp hstop
  have hr : r ∈ h.newest node := List.mem_of_find?_eq_some hstop
  refine ⟨(mem_newest.mp hr).1, (mem_newest.mp hr).2, by simpa using hpass, fun s hs hnode hlt => ?_⟩
  have hmem : s ∈ h.newest node := mem_newest.mpr ⟨hs, hnode⟩
  have hpairwise := newest_pairwise (h := h) node
  rw [hsplit] at hmem hpairwise
  rw [List.pairwise_append, List.pairwise_cons] at hpairwise
  rcases List.mem_append.mp hmem with hfront | hrest
  · simpa using hbefore s hfront
  · rcases List.mem_cons.mp hrest with rfl | hlater
    · exact absurd hlt (Nat.lt_irrefl _)
    · exact absurd (hpairwise.2.1.1 s hlater) (Nat.not_le.mpr hlt)

theorem stop?_eq {r : HistoryRow Time} (hr : r ∈ h.rows) (hpass : passes limits r = false)
    (hlater : ∀ s ∈ h.rows, s.node = r.node → r.version < s.version → passes limits s = true) :
    stop? limits (h.newest r.node) = some r := by
  cases hstop : stop? limits (h.newest r.node) with
  | none =>
    have hnone := List.find?_eq_none.mp hstop r (mem_newest.mpr ⟨hr, rfl⟩)
    rw [hpass] at hnone
    exact absurd rfl hnone
  | some s =>
    obtain ⟨hs, hnode, hspass, hslater⟩ := stop?_some hstop
    rcases Nat.lt_trichotomy r.version s.version with hlt | heq | hgt
    · rw [hlater s hs hnode hlt] at hspass
      cases hspass
    · rw [h.isHistory.versioned r hr s hs hnode.symm heq]
    · rw [hslater r hr rfl hgt] at hpass
      cases hpass

end Stops

section Protected

theorem protectedFrom_ok {nodes : List Node} {ids : List Nat}
    (hids : h.protectedFrom limits nodes = .ok ids) :
    (∀ node ∈ nodes, ∃ current, h.selectCurrent limits node = .ok current) ∧
      ∀ i, i ∈ ids ↔ ∃ node ∈ nodes, i = h.latestId node ∨
        ∃ current, h.selectCurrent limits node = .ok current ∧ current.id = some i := by
  induction nodes generalizing ids with
  | nil =>
    cases hids
    exact ⟨List.forall_mem_nil _, fun i => by simp⟩
  | cons node nodes ih =>
    unfold protectedFrom at hids
    cases hselect : h.selectCurrent limits node with
    | error e =>
      rw [hselect] at hids
      cases hids
    | ok current =>
      cases hothers : h.protectedFrom limits nodes with
      | error e =>
        rw [hselect, hothers] at hids
        cases hids
      | ok others =>
        rw [hselect, hothers] at hids
        cases hids
        obtain ⟨hselected, hmem⟩ := ih hothers
        constructor
        · intro n hn
          rcases List.mem_cons.mp hn with rfl | hn
          · exact ⟨current, hselect⟩
          · exact hselected n hn
        · intro i
          have hcurrent : i ∈ current.id.toList ↔
              ∃ c, h.selectCurrent limits node = .ok c ∧ c.id = some i := by
            rw [Option.mem_toList, hselect]
            constructor
            · exact fun hi => ⟨current, rfl, hi⟩
            · rintro ⟨c, hc, hi⟩
              cases hc
              exact hi
          rw [List.mem_cons, List.mem_append, hmem, hcurrent, List.exists_mem_cons_iff, or_assoc]

theorem protectedFrom_error {nodes : List Node} {e : LoadError}
    (hids : h.protectedFrom limits nodes = .error e) :
    ∃ node, ∃ e', h.selectCurrent limits node = .error e' := by
  induction nodes with
  | nil => cases hids
  | cons node nodes ih =>
    unfold protectedFrom at hids
    cases hselect : h.selectCurrent limits node with
    | error e' => exact ⟨node, e', hselect⟩
    | ok current =>
      cases hothers : h.protectedFrom limits nodes with
      | error e' => exact ih (hothers.trans (congrArg Except.error (by
          rw [hselect, hothers] at hids
          cases hids
          rfl)))
      | ok others =>
        rw [hselect, hothers] at hids
        cases hids

theorem mem_nodes {node : Node} : node ∈ h.nodes ↔ ∃ r ∈ h.rows, r.node = node := by
  rw [nodes, List.mem_dedup, List.mem_map]

end Protected

section Vacuum

variable {cutoff : Time} {ids : List Nat}

/-- A stale version that the selection of its node ends at. -/
def Barrier (limits : Limits) (h : History Time) (r : HistoryRow Time) : Prop :=
  r ∈ h.rows ∧ r.row.stale = true ∧ ∀ s ∈ h.rows, s.node = r.node → r.version < s.version →
    s.row.stale = false ∧ s.row.load limits = .ok none

/-- A barrier is older than the cutoff and not the newest version of its node. -/
def Exposed (limits : Limits) (cutoff : Time) (h : History Time) : Prop :=
  ∃ r, Barrier limits h r ∧ r.createdAt < cutoff ∧
    ∃ s ∈ h.rows, s.node = r.node ∧ r.version < s.version

theorem spared_iff {r : HistoryRow Time} :
    spared cutoff ids r = true ↔ ¬ r.createdAt < cutoff ∨ r.id ∈ ids := by
  unfold spared
  rw [Bool.or_eq_true, Bool.not_eq_true', decide_eq_false_iff_not, List.contains_iff_mem]

theorem spared_newest (hids : h.protectedSummaryIds limits = .ok ids) {node : Node}
    {r : HistoryRow Time} (hr : (h.newest node).head? = some r) : spared cutoff ids r = true := by
  obtain ⟨rest, hrest⟩ := List.head?_eq_some_iff.mp hr
  have hmem := mem_newest.mp (List.mem_of_head? hr)
  refine spared_iff.mpr (Or.inr (((protectedFrom_ok hids).2 r.id).mpr ?_))
  exact ⟨node, mem_nodes.mpr ⟨r, hmem.1, hmem.2⟩, Or.inl (latestId_eq hrest).symm⟩

theorem head_newest_keeping {keep : HistoryRow Time → Bool} {node : Node}
    (hkeep : ∀ r, (h.newest node).head? = some r → keep r = true) :
    ((h.keeping keep).newest node).head? = (h.newest node).head? := by
  rw [newest_keeping]
  cases hnewest : h.newest node with
  | nil => rfl
  | cons r rest =>
    rw [List.filter_cons_of_pos (hkeep r (by rw [hnewest]; rfl))]
    rfl

/-- The version that is the current summary is one of the protected. -/
theorem spared_current (hids : h.protectedSummaryIds limits = .ok ids) {node : Node}
    {r : HistoryRow Time} (hstop : stop? limits (h.newest node) = some r)
    (hstale : r.row.stale = false) : spared cutoff ids r = true := by
  obtain ⟨hr, hnode, hpass, -⟩ := stop?_some hstop
  obtain ⟨hselected, hmem⟩ := protectedFrom_ok hids
  have hin : node ∈ h.nodes := mem_nodes.mpr ⟨r, hr, hnode⟩
  obtain ⟨current, hcurrent⟩ := hselected node hin
  have hselect := hcurrent
  rw [selectCurrent_eq, selectLoaded_stop, hstop] at hselect
  dsimp only at hselect
  rw [selectLoaded, hstale, if_neg Bool.false_ne_true] at hselect
  refine spared_iff.mpr (Or.inr ((hmem r.id).mpr ⟨node, hin, Or.inr ⟨current, hcurrent, ?_⟩⟩))
  split at hselect
  · cases hselect
  · cases hselect
    rfl
  · next hload =>
    rw [passes_iff.mpr ⟨hstale, hload⟩] at hpass
    cases hpass

/-- A summary that is selected is the version that the selection ends at. -/
theorem stop_of_current {node : Node} {current : ToolSummary} {i : Nat}
    (hselect : h.selectCurrent limits node = .ok current) (hid : current.id = some i) :
    ∃ r, stop? limits (h.newest node) = some r ∧ r.row.stale = false ∧ r.id = i := by
  rw [selectCurrent_eq, selectLoaded_stop] at hselect
  cases hstop : stop? limits (h.newest node) with
  | none =>
    rw [hstop] at hselect
    cases hselect
    cases hid
  | some r =>
    rw [hstop] at hselect
    dsimp only at hselect
    rw [selectLoaded] at hselect
    split at hselect
    · cases hselect
      cases hid
    · next hstale =>
      refine ⟨r, rfl, Bool.eq_false_iff.mpr hstale, ?_⟩
      split at hselect
      · cases hselect
      · cases hselect
        exact Option.some.inj hid
      · cases hselect
        cases hid

/-- Where a selection ends is spared, unless it is an exposed barrier. -/
theorem spared_stop (hids : h.protectedSummaryIds limits = .ok ids)
    (hexposed : ¬ Exposed limits cutoff h) {node : Node} {r : HistoryRow Time}
    (hstop : stop? limits (h.newest node) = some r) : spared cutoff ids r = true := by
  cases hstale : r.row.stale with
  | false => exact spared_current hids hstop hstale
  | true =>
    obtain ⟨hr, rfl, -, hlater⟩ := stop?_some hstop
    by_cases hold : r.createdAt < cutoff
    · by_cases hnewest : ∃ s ∈ h.rows, s.node = r.node ∧ r.version < s.version
      · have hbarrier : Barrier limits h r := ⟨hr, hstale, fun s hs hnode hlt =>
          passes_iff.mp (hlater s hs hnode hlt)⟩
        exact absurd ⟨r, hbarrier, hold, hnewest⟩ hexposed
      · refine spared_newest hids (?_ : (h.newest r.node).head? = some r)
        cases hrows : h.newest r.node with
        | nil => exact absurd (hrows ▸ mem_newest.mpr ⟨hr, rfl⟩) List.not_mem_nil
        | cons s rest =>
          have hs := mem_newest.mp (show s ∈ h.newest r.node from hrows ▸ List.mem_cons_self)
          have hle : r.version ≤ s.version := by
            have hmem : r ∈ s :: rest := hrows ▸ mem_newest.mpr ⟨hr, rfl⟩
            rcases List.mem_cons.mp hmem with rfl | hrest
            · exact le_rfl
            · have hpairwise := newest_pairwise (h := h) r.node
              rw [hrows, List.pairwise_cons] at hpairwise
              exact hpairwise.1 r hrest
          rcases Nat.lt_or_eq_of_le hle with hlt | heq
          · exact absurd ⟨s, hs.1, hs.2, hlt⟩ hnewest
          · rw [h.isHistory.versioned r hr s hs.1 hs.2.symm heq]
            rfl
    · exact spared_iff.mpr (Or.inl hold)

theorem selectCurrent_keeping {keep : HistoryRow Time → Bool} {node : Node}
    (hnewest : ∀ r, (h.newest node).head? = some r → keep r = true)
    (hstop : ∀ r, stop? limits (h.newest node) = some r → keep r = true) :
    (h.keeping keep).selectCurrent limits node = h.selectCurrent limits node := by
  rw [selectCurrent_eq, selectCurrent_eq, head_newest_keeping hnewest, newest_keeping,
    selectLoaded_stop, selectLoaded_stop, stop?_filter hstop]

theorem vacuum_ok (hids : h.protectedSummaryIds limits = .ok ids) :
    h.vacuum limits cutoff = h.keeping (spared cutoff ids) := by
  unfold vacuum
  rw [hids]

theorem vacuum_error {e : LoadError} (hids : h.protectedSummaryIds limits = .error e) :
    h.vacuum limits cutoff = h := by
  unfold vacuum
  rw [hids]

/-- What is spared once is spared again. -/
theorem vacuum_vacuum (hids : h.protectedSummaryIds limits = .ok ids)
    (hselected : ∀ node, (h.keeping (spared cutoff ids)).selectCurrent limits node =
      h.selectCurrent limits node) :
    (h.keeping (spared cutoff ids)).vacuum limits cutoff = h.keeping (spared cutoff ids) := by
  have hok := protectedFrom_ok hids
  cases hagain : (h.keeping (spared cutoff ids)).protectedSummaryIds limits with
  | error e => exact vacuum_error hagain
  | ok ids' =>
    rw [vacuum_ok hagain]
    have hids' := protectedFrom_ok hagain
    have hrows : (h.rows.filter (spared cutoff ids)).filter (spared cutoff ids') =
        h.rows.filter (spared cutoff ids) := by
      refine List.filter_eq_self.mpr fun r hr => ?_
      obtain ⟨hmem, hspared⟩ := List.mem_filter.mp hr
      refine spared_iff.mpr ((spared_iff.mp hspared).imp_right fun hid => ?_)
      obtain ⟨node, hnode, hwhy⟩ := (hok.2 r.id).mp hid
      obtain ⟨s, hs, hsnode⟩ := mem_nodes.mp hnode
      have hne : h.newest node ≠ [] :=
        List.ne_nil_of_mem (mem_newest.mpr ⟨hs, hsnode⟩)
      obtain ⟨top, rest, htop⟩ := List.exists_cons_of_ne_nil hne
      have hspared : ∀ t, (h.newest node).head? = some t → spared cutoff ids t = true :=
        fun t ht => spared_newest hids ht
      have hhead := head_newest_keeping hspared
      rw [htop] at hhead
      obtain ⟨rest', hrest'⟩ := List.head?_eq_some_iff.mp hhead
      have hnode' : node ∈ (h.keeping (spared cutoff ids)).nodes := by
        have htopmem := mem_newest.mp (List.mem_of_head? hhead)
        exact mem_nodes.mpr ⟨top, htopmem.1, htopmem.2⟩
      refine (hids'.2 r.id).mpr ⟨node, hnode', hwhy.imp (fun hlatest => ?_) fun hcurrent => ?_⟩
      · rw [hlatest, latestId_eq htop, latestId_eq hrest']
      · rw [hselected]
        exact hcurrent
    exact eq_of_rows hrows

/-- Below an exposed barrier nothing is left, and what is left above it is passed. -/
theorem selectCurrent_exposed (hids : h.protectedSummaryIds limits = .ok ids)
    {r : HistoryRow Time} (hbarrier : Barrier limits h r) (hold : r.createdAt < cutoff)
    (hnewer : ∃ s ∈ h.rows, s.node = r.node ∧ r.version < s.version) :
    (h.keeping (spared cutoff ids)).selectCurrent limits r.node ≠
      h.selectCurrent limits r.node := by
  obtain ⟨hr, hstale, hlater⟩ := hbarrier
  obtain ⟨s, hs, hsnode, hlt⟩ := hnewer
  have hok := protectedFrom_ok hids
  have hpass : passes limits r = false := by
    cases hpasses : passes limits r with
    | false => rfl
    | true =>
      rw [(passes_iff.mp hpasses).1] at hstale
      cases hstale
  have hstop := stop?_eq hr hpass fun t ht hnode htlt => passes_iff.mpr (hlater t ht hnode htlt)
  obtain ⟨top, rest, htop⟩ := List.exists_cons_of_ne_nil
    (List.ne_nil_of_mem (mem_newest.mpr ⟨hs, hsnode⟩))
  have htopmem := mem_newest.mp (show top ∈ h.newest r.node from htop ▸ List.mem_cons_self)
  have htopnewer : r.version < top.version := by
    have hmem : s ∈ top :: rest := htop ▸ mem_newest.mpr ⟨hs, hsnode⟩
    rcases List.mem_cons.mp hmem with rfl | hrest
    · exact hlt
    · have hpairwise := newest_pairwise (h := h) r.node
      rw [htop, List.pairwise_cons] at hpairwise
      exact hlt.trans_le (hpairwise.1 s hrest)
  have hbefore : h.selectCurrent limits r.node =
      .ok ⟨none, none, none, none, some barrierStatus, some top.status⟩ := by
    rw [selectCurrent_eq, selectLoaded_stop, hstop, htop]
    dsimp only
    rw [selectLoaded, if_pos hstale]
    rfl
  have hunspared : ∀ t ∈ h.rows, t.node = r.node → t.version ≤ r.version →
      spared cutoff ids t = false := by
    intro t ht hnode hle
    refine Bool.eq_false_iff.mpr fun hspared => ?_
    rcases spared_iff.mp hspared with hnot | hid
    · refine hnot ?_
      rcases Nat.lt_or_eq_of_le hle with hless | heq
      · exact (h.isHistory.ordered t ht r hr hnode hless).2.trans_lt hold
      · rw [h.isHistory.versioned t ht r hr hnode heq]
        exact hold
    · obtain ⟨node, hnodes, hwhy⟩ := (hok.2 t.id).mp hid
      rcases hwhy with hlatest | ⟨current, hcurrent, hcurrentId⟩
      · obtain ⟨u, hu, hunode⟩ := mem_nodes.mp hnodes
        obtain ⟨first, others, hfirst⟩ := List.exists_cons_of_ne_nil
          (List.ne_nil_of_mem (mem_newest.mpr ⟨hu, hunode⟩))
        have hfirstmem := mem_newest.mp
          (show first ∈ h.newest node from hfirst ▸ List.mem_cons_self)
        have hsame : t = first :=
          h.isHistory.numbered t ht first hfirstmem.1 (hlatest.trans (latestId_eq hfirst))
        rw [hsame] at hnode hle
        rw [← hfirstmem.2, hnode, htop] at hfirst
        rw [← (List.cons.inj hfirst).1] at hle
        exact Nat.not_le.mpr htopnewer hle
      · obtain ⟨v, hv, hvstale, hvid⟩ := stop_of_current hcurrent hcurrentId
        obtain ⟨hvmem, hvnode, -, -⟩ := stop?_some hv
        have hsame : t = v := h.isHistory.numbered t ht v hvmem hvid.symm
        rw [← hvnode, ← hsame, hnode, hstop] at hv
        rw [← hsame, ← Option.some.inj hv, hstale] at hvstale
        cases hvstale
  have hafter : (h.keeping (spared cutoff ids)).selectCurrent limits r.node =
      .ok (fallen (some top.status)) := by
    have hspared : ∀ t, (h.newest r.node).head? = some t → spared cutoff ids t = true :=
      fun t ht => spared_newest hids ht
    have hhead := head_newest_keeping hspared
    have hnone : stop? limits ((h.newest r.node).filter (spared cutoff ids)) = none := by
      refine List.find?_eq_none.mpr fun t ht => ?_
      obtain ⟨hmem, hspared⟩ := List.mem_filter.mp ht
      obtain ⟨htmem, htnode⟩ := mem_newest.mp hmem
      have hnewer : r.version < t.version := by
        by_contra hle
        rw [hunspared t htmem htnode (Nat.not_lt.mp hle)] at hspared
        cases hspared
      rw [passes_iff.mpr (hlater t htmem htnode hnewer)]
      decide
    rw [selectCurrent_eq, hhead, newest_keeping, selectLoaded_stop, hnone, htop]
    rfl
  rw [hbefore, hafter]
  intro heq
  have hstatus : top.status = barrierStatus := by
    have hfields := congrArg ToolSummary.status (Except.ok.inj heq)
    exact Option.some.inj hfields
  have hstaletop : top.row.stale = true := by
    rw [VersionRow.stale]
    exact beq_iff_eq.mpr hstatus
  rw [(hlater top htopmem.1 htopmem.2 htopnewer).1] at hstaletop
  cases hstaletop

end Vacuum

end History

/-- What pruning the history is to leave alone. -/
structure Unharmed {Time : Type} [LinearOrder Time] (limits : Limits) (cutoff : Time)
    (h : History Time) : Prop where
  selected : ∀ node, (h.vacuum limits cutoff).selectCurrent limits node =
    h.selectCurrent limits node
  predecessor : ∀ node, (h.vacuum limits cutoff).predecessor node = h.predecessor node
  kept : ∀ r ∈ (h.vacuum limits cutoff).rows, r ∈ h.rows
  deleted : ∀ r ∈ h.rows, r ∉ (h.vacuum limits cutoff).rows → r.createdAt < cutoff
  again : (h.vacuum limits cutoff).vacuum limits cutoff = h.vacuum limits cutoff

theorem unharmed_of_error {Time : Type} [LinearOrder Time] {limits : Limits} {cutoff : Time}
    {h : History Time} {e : LoadError} (hids : h.protectedSummaryIds limits = .error e) :
    Unharmed limits cutoff h := by
  have hsame : h.vacuum limits cutoff = h := History.vacuum_error hids
  refine ⟨fun node => ?_, fun node => ?_, fun r hr => ?_, fun r hr hdeleted => ?_, ?_⟩
  · rw [hsame]
  · rw [hsame]
  · exact hsame ▸ hr
  · exact absurd (hsame.symm ▸ hr) hdeleted
  · rw [hsame, hsame]

theorem unharmed_of_ok {Time : Type} [LinearOrder Time] {limits : Limits} {cutoff : Time}
    {h : History Time} {ids : List Nat} (hids : h.protectedSummaryIds limits = .ok ids)
    (hexposed : ¬ History.Exposed limits cutoff h) : Unharmed limits cutoff h := by
  have hvacuum : h.vacuum limits cutoff = h.keeping (History.spared cutoff ids) :=
    History.vacuum_ok hids
  have hselected : ∀ node, (h.keeping (History.spared cutoff ids)).selectCurrent limits node =
      h.selectCurrent limits node := fun node =>
    History.selectCurrent_keeping (fun _ hr => History.spared_newest hids hr)
      fun _ hr => History.spared_stop hids hexposed hr
  refine ⟨fun node => ?_, fun node => ?_, fun r hr => ?_, fun r hr hdeleted => ?_, ?_⟩
  · rw [hvacuum, hselected]
  · have hspared : ∀ r, (h.newest node).head? = some r →
        History.spared cutoff ids r = true :=
      fun r hr => History.spared_newest hids hr
    have hhead := History.head_newest_keeping hspared
    rw [hvacuum, History.predecessor, hhead]
    rfl
  · rw [hvacuum] at hr
    exact List.mem_of_mem_filter hr
  · rw [hvacuum] at hdeleted
    by_contra hnot
    exact hdeleted (List.mem_filter.mpr ⟨hr, History.spared_iff.mpr (Or.inl hnot)⟩)
  · rw [hvacuum, History.vacuum_vacuum hids hselected]

/-- Pruning is harmless exactly if no barrier is exposed to it, or the summary of some node
cannot be selected, so that nothing is deleted. -/
theorem unharmed_iff {Time : Type} [LinearOrder Time] (limits : Limits) (cutoff : Time)
    (h : History Time) : Unharmed limits cutoff h ↔
      (∃ node e, h.selectCurrent limits node = .error e) ∨
        ¬ History.Exposed limits cutoff h := by
  cases hids : h.protectedSummaryIds limits with
  | error e =>
    exact iff_of_true (unharmed_of_error hids) (Or.inl (History.protectedFrom_error hids))
  | ok ids =>
    constructor
    · intro hharmless
      refine Or.inr fun hexposed => ?_
      obtain ⟨r, hbarrier, hold, hnewer⟩ := hexposed
      have hselected := hharmless.selected r.node
      rw [History.vacuum_ok hids] at hselected
      exact History.selectCurrent_exposed hids hbarrier hold hnewer hselected
    · rintro (⟨node, e, herror⟩ | hexposed)
      · by_cases hin : node ∈ h.nodes
        · obtain ⟨current, hcurrent⟩ := (History.protectedFrom_ok hids).1 node hin
          rw [herror] at hcurrent
          cases hcurrent
        · have hempty : h.newest node = [] := by
            refine List.eq_nil_iff_forall_not_mem.mpr fun r hr => hin ?_
            exact History.mem_nodes.mpr ⟨r, (History.mem_newest.mp hr).1,
              (History.mem_newest.mp hr).2⟩
          rw [History.selectCurrent_eq, hempty] at herror
          cases herror
      · exact unharmed_of_ok hids hexposed

section Example

def prunedNode : Node := ⟨.file, "a.py"⟩

def staleRow : HistoryRow String :=
  ⟨1, prunedNode, 1, some "\x7b\"short\": \"s\"\x7d", "stale", "2026-01-01T00:00:00"⟩

def corruptRow : HistoryRow String :=
  ⟨2, prunedNode, 2, none, "corrupt", "2026-01-02T00:00:00"⟩

theorem barred_isHistory : IsHistory [staleRow, corruptRow] where
  numbered := by decide +kernel
  versioned := by decide +kernel
  ordered := by decide +kernel

/-- A summary that went stale, and a later attempt that failed. -/
def barred : History String := ⟨[staleRow, corruptRow], barred_isHistory⟩

/-- Without its barrier, a node shows the status of the failed attempt. -/
theorem barred_harmed : ¬ ∀ (limits : Limits) (cutoff : String) (h : History String),
    Unharmed limits cutoff h := by
  intro hall
  have hids : barred.protectedSummaryIds ⟨0, 0⟩ = .ok [2] := by rfl
  have hbarrier : History.Barrier ⟨0, 0⟩ barred staleRow := by
    refine ⟨List.mem_cons_self, by decide +kernel, fun s hs hnode hlt => ?_⟩
    rcases List.mem_cons.mp hs with rfl | hs
    · exact absurd hlt (Nat.lt_irrefl _)
    · rw [List.mem_singleton.mp hs]
      exact ⟨by decide +kernel, by rfl⟩
  have hold : staleRow.createdAt < "2026-03-01T00:00:00" := by decide +kernel
  have hselected := (hall ⟨0, 0⟩ "2026-03-01T00:00:00" barred).selected staleRow.node
  rw [History.vacuum_ok hids] at hselected
  exact History.selectCurrent_exposed hids hbarrier hold
    ⟨corruptRow, by decide +kernel, rfl, by decide +kernel⟩ hselected

end Example

end RemyCC.Retrieval
