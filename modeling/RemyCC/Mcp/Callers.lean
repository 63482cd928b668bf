import RemyCC.Index.Schema
import RemyCC.Relational.Grouping
import RemyCC.Search.Levels

/-!
# Callers, callees and imports by level

The queries of the server go breadth first through the edge table, in chunks
of the current level, and through the import graph. A hash set is a list
without duplicates that is iterated in an order of its own.
-/

namespace RemyCC.Mcp

open Index Relational RemyCC.Search

/-- The order in which a hash set is iterated. -/
structure HashOrder where
  iterate : List String → List String
  perm : ∀ set, List.Perm (iterate set) set

/-- The size of the server's chunks; the loop has it as a parameter. -/
def chunkSize : Nat := 400

section Loop

variable (order : HashOrder) (size : Nat) (query : List String → List String)

def freshRows (visited current : List String) : List String :=
  let allRows := ((chunks size (order.iterate current)).flatMap query).dedup
  orderBy compare ((order.iterate allRows).filter fun row => !visited.contains row)

def bfsFrom : Nat → Nat → List String → List String → List (Nat × List String)
  | 0, _, _, _ => []
  | fuel + 1, depth, visited, current =>
    if current.isEmpty then []
    else
      let nextLevel := freshRows order size query visited current
      if nextLevel.isEmpty then []
      else (depth, nextLevel) :: bfsFrom fuel (depth + 1) (visited ++ nextLevel) nextLevel

def bfs (targets : List String) (maxDepth : Int) : List (Nat × List String) :=
  bfsFrom order size query maxDepth.toNat 1 targets targets

end Loop

section Queries

variable (d : Database) (staticOnly : Bool)

def provClause (e : EdgeRow) : Bool :=
  !staticOnly || e.provenance == some .definite || e.provenance == some .probable

def callerKey (e : EdgeRow) : String := e.sourceFile ++ "::" ++ e.caller

def callersRows (chunk : List String) : List String :=
  ((d.edges.rows.filter fun e =>
    e.calleeQualified.any chunk.contains && provClause staticOnly e).map callerKey).dedup

def calleesRows (chunk : List String) : List String :=
  ((d.edges.rows.filter fun e =>
    chunk.contains (callerKey e) && provClause staticOnly e).filterMap EdgeRow.calleeQualified).dedup

/-- `edges e JOIN edge_candidates ec ON ec.edge_id = e.id`. -/
def candidatePairs : List (EdgeRow × CandidateRow) :=
  d.edges.rows.flatMap fun e =>
    (d.candidates.rows.filter fun c => c.edgeId == e.id).map fun c => (e, c)

def callersAmbiguousRows (chunk : List String) : List String :=
  (callersRows d staticOnly chunk ++ ((candidatePairs d).filter fun p =>
    chunk.contains p.2.candidateQualified && provClause staticOnly p.1).map
      fun p => callerKey p.1).dedup

def calleesAmbiguousRows (chunk : List String) : List String :=
  (calleesRows d staticOnly chunk ++ ((candidatePairs d).filter fun p =>
    chunk.contains (callerKey p.1) && provClause staticOnly p.1).map
      fun p => p.2.candidateQualified).dedup

variable (order : HashOrder) (size : Nat) (targets : List String) (maxDepth : Int)

def bfsCallers : List (Nat × List String) :=
  bfs order size (callersRows d staticOnly) targets maxDepth

def bfsCallees : List (Nat × List String) :=
  bfs order size (calleesRows d staticOnly) targets maxDepth

def bfsCallersAmbiguous : List (Nat × List String) :=
  bfs order size (callersAmbiguousRows d staticOnly) targets maxDepth

def bfsCalleesAmbiguous : List (Nat × List String) :=
  bfs order size (calleesAmbiguousRows d staticOnly) targets maxDepth

/-- The call relation that the resolved edges give. -/
def Calls (x y : String) : Prop :=
  ∃ e ∈ d.edges.rows, provClause staticOnly e = true ∧ callerKey e = x ∧
    e.calleeQualified = some y

/-- The call relation with the candidates of the ambiguous edges. -/
def MayCall (x y : String) : Prop :=
  Calls d staticOnly x y ∨ ∃ e ∈ d.edges.rows, ∃ c ∈ d.candidates.rows, c.edgeId = e.id ∧
    provClause staticOnly e = true ∧ callerKey e = x ∧ c.candidateQualified = y

end Queries

section Imports

/-- A file's merged import targets, under the files in their order. -/
structure ImportGraph where
  forward : List (String × List String)
  keyed : (forward.map Prod.fst).Nodup

variable (graph : ImportGraph)

def importers (visited : List String) (node : String) : List String :=
  (graph.forward.filter fun f => f.2.contains node && !visited.contains f.1).map Prod.fst

def importTargets (visited : List String) (node : String) : List String :=
  match graph.forward.find? fun f => f.1 == node with
  | some f => f.2.filter fun target => !visited.contains target
  | none => []

/-- A `BTreeSet` is the sorted list of its elements. -/
def nextFiles (reverse : Bool) (visited frontier : List String) : List String :=
  sortedSet (frontier.flatMap fun node =>
    if reverse then importers graph visited node else importTargets graph visited node)

def bfsFilesFrom (reverse : Bool) : Nat → Nat → List String → List String →
    List (Nat × List String)
  | 0, _, _, _ => []
  | fuel + 1, level, visited, frontier =>
    if frontier.isEmpty then []
    else
      let next := nextFiles graph reverse visited frontier
      if next.isEmpty then []
      else (level, next) :: bfsFilesFrom reverse fuel (level + 1) (visited ++ next) next

def bfsFiles (seeds : List String) (depth : Int) (reverse : Bool) : List (Nat × List String) :=
  bfsFilesFrom graph reverse depth.toNat 1 seeds (sortedSet seeds)

def Imports (x y : String) : Prop := ∃ targets, (x, targets) ∈ graph.forward ∧ y ∈ targets

end Imports

/-- The order of the qualified names. -/
def Precedes (a b : String) : Prop := compare a b = .lt

theorem precedes_asymm (a b : String) (h : Precedes a b) : ¬ Precedes b a := by
  unfold Precedes at h ⊢
  have hswap : compare b a = (compare a b).swap := Std.OrientedCmp.eq_swap
  rw [hswap, h]
  exact fun h => by cases h

theorem precedes_of_sorted {names : List String} (hnodup : names.Nodup)
    (hsorted : names.Pairwise fun a b => (compare a b).isLE = true) : names.Pairwise Precedes := by
  refine (hsorted.and hnodup).imp fun {a b} h => ?_
  obtain ⟨hle, hne⟩ := h
  unfold Precedes
  cases hcmp : compare a b with
  | lt => rfl
  | eq => exact absurd (Std.LawfulEqOrd.eq_of_compare hcmp) hne
  | gt =>
    rw [hcmp] at hle
    cases hle

theorem orderBy_precedes {names : List String} (hnodup : names.Nodup) :
    (orderBy compare names).Pairwise Precedes :=
  precedes_of_sorted ((orderBy_perm _ _).nodup_iff.mpr hnodup) (orderBy_pairwise names)

section Levels

variable {order : HashOrder} {size : Nat} {query : List String → List String}
variable {R : String → String → Prop}

/-- The rows of a chunk are what the relation leads to from its members. -/
def Answers (R : String → String → Prop) (query : List String → List String) : Prop :=
  ∀ chunk y, y ∈ query chunk ↔ ∃ x ∈ chunk, R x y

theorem mem_iterate {set : List String} {x : String} : x ∈ order.iterate set ↔ x ∈ set :=
  (order.perm set).mem_iff

theorem freshRows_fresh (h : Answers R query) :
    Fresh R Precedes (freshRows order size query) := by
  refine ⟨fun visited current => ?_, fun visited current y => ?_⟩
  · refine orderBy_precedes (List.Nodup.filter _ ?_)
    exact (order.perm _).nodup_iff.mpr (List.nodup_dedup _)
  · have hrows : y ∈ ((chunks size (order.iterate current)).flatMap query).dedup ↔
        ∃ x ∈ current, R x y := by
      rw [List.mem_dedup, List.mem_flatMap]
      constructor
      · rintro ⟨chunk, hchunk, hy⟩
        obtain ⟨x, hx, hxy⟩ := (h chunk y).mp hy
        have hmem : x ∈ (chunks size (order.iterate current)).flatten :=
          List.mem_flatten.mpr ⟨chunk, hchunk, hx⟩
        rw [flatten_chunks, mem_iterate] at hmem
        exact ⟨x, hmem, hxy⟩
      · rintro ⟨x, hx, hxy⟩
        rw [← @mem_iterate order, ← flatten_chunks size (order.iterate current)] at hx
        obtain ⟨chunk, hchunk, hx⟩ := List.mem_flatten.mp hx
        exact ⟨chunk, hchunk, (h chunk y).mpr ⟨x, hx, hxy⟩⟩
    rw [freshRows, mem_orderBy, List.mem_filter, mem_iterate, hrows]
    simp

theorem freshRows_nil (visited : List String) : freshRows order size query visited [] = [] := by
  have hnil : ∀ set : List String, set = [] → order.iterate set = [] := fun set hset =>
    (hset ▸ order.perm set : List.Perm (order.iterate set) []).eq_nil
  unfold freshRows
  simp only [hnil [] rfl]
  rw [show ((chunks size []).flatMap query).dedup = [] from rfl, hnil [] rfl]
  rfl

theorem bfsFrom_eq (fuel depth : Nat) (visited current : List String) :
    bfsFrom order size query fuel depth visited current =
      levelsFrom (freshRows order size query) fuel depth visited current := by
  induction fuel generalizing depth visited current with
  | zero => rfl
  | succ fuel ih =>
    unfold bfsFrom levelsFrom
    cases current with
    | nil => rw [freshRows_nil]; rfl
    | cons x current =>
      rw [List.isEmpty_cons, if_neg Bool.false_ne_true]
      cases freshRows order size query visited (x :: current) with
      | nil => rfl
      | cons y next => simp only [List.isEmpty_cons, Bool.false_eq_true, if_false, ih]

theorem bfs_exact (h : Answers R query) (targets : List String) (maxDepth : Int) :
    Exact R Precedes {x | x ∈ targets} 1 maxDepth.toNat
      (bfs order size query targets maxDepth) := by
  unfold bfs
  rw [bfsFrom_eq]
  exact levelsFrom_exact (freshRows_fresh h) _ _

/-- Neither the order of the sets nor the size of the chunks shows in the levels. -/
theorem bfs_eq (h : Answers R query) (order order' : HashOrder) (size size' : Nat)
    (targets : List String) (maxDepth : Int) :
    bfs order size query targets maxDepth = bfs order' size' query targets maxDepth := by
  unfold bfs
  rw [bfsFrom_eq, bfsFrom_eq]
  have hfresh : freshRows order size query = freshRows order' size' query :=
    (freshRows_fresh h).eq (freshRows_fresh h) precedes_asymm
  rw [hfresh]

end Levels

section Answers

variable (d : Database) (staticOnly : Bool)

theorem callersRows_answers :
    Answers (fun y x => Calls d staticOnly x y) (callersRows d staticOnly) := by
  intro chunk x
  simp only [callersRows, List.mem_dedup, List.mem_map, List.mem_filter, Bool.and_eq_true,
    Option.any_eq_true, List.contains_iff_mem, Calls]
  constructor
  · rintro ⟨e, ⟨he, ⟨y, hy, hmem⟩, hprov⟩, hkey⟩
    exact ⟨y, hmem, e, he, hprov, hkey, hy⟩
  · rintro ⟨y, hmem, e, he, hprov, hkey, hy⟩
    exact ⟨e, ⟨he, ⟨y, hy, hmem⟩, hprov⟩, hkey⟩

theorem calleesRows_answers : Answers (Calls d staticOnly) (calleesRows d staticOnly) := by
  intro chunk y
  simp only [calleesRows, List.mem_dedup, List.mem_filterMap, List.mem_filter, Bool.and_eq_true,
    List.contains_iff_mem, Calls]
  constructor
  · rintro ⟨e, ⟨he, hmem, hprov⟩, hy⟩
    exact ⟨callerKey e, hmem, e, he, hprov, rfl, hy⟩
  · rintro ⟨x, hmem, e, he, hprov, rfl, hy⟩
    exact ⟨e, ⟨he, hmem, hprov⟩, hy⟩

theorem mem_candidatePairs {e : EdgeRow} {c : CandidateRow} :
    (e, c) ∈ candidatePairs d ↔ e ∈ d.edges.rows ∧ c ∈ d.candidates.rows ∧ c.edgeId = e.id := by
  simp only [candidatePairs, List.mem_flatMap, List.mem_map, List.mem_filter, beq_iff_eq,
    Prod.mk.injEq]
  constructor
  · rintro ⟨e', he, c', ⟨hc, hid⟩, rfl, rfl⟩
    exact ⟨he, hc, hid⟩
  · rintro ⟨he, hc, hid⟩
    exact ⟨e, he, c, ⟨hc, hid⟩, rfl, rfl⟩

theorem callersAmbiguousRows_answers :
    Answers (fun y x => MayCall d staticOnly x y) (callersAmbiguousRows d staticOnly) := by
  intro chunk x
  have hplain := callersRows_answers d staticOnly chunk x
  simp only [callersAmbiguousRows, List.mem_dedup, List.mem_append, hplain, List.mem_map,
    List.mem_filter, Bool.and_eq_true, List.contains_iff_mem, Prod.exists, mem_candidatePairs]
  constructor
  · rintro (⟨y, hmem, hcall⟩ | ⟨e, c, ⟨⟨he, hc, hid⟩, hmem, hprov⟩, hkey⟩)
    · exact ⟨y, hmem, .inl hcall⟩
    · exact ⟨_, hmem, .inr ⟨e, he, c, hc, hid, hprov, hkey, rfl⟩⟩
  · rintro ⟨y, hmem, hcall | ⟨e, he, c, hc, hid, hprov, hkey, rfl⟩⟩
    · exact .inl ⟨y, hmem, hcall⟩
    · exact .inr ⟨e, c, ⟨⟨he, hc, hid⟩, hmem, hprov⟩, hkey⟩

theorem calleesAmbiguousRows_answers :
    Answers (MayCall d staticOnly) (calleesAmbiguousRows d staticOnly) := by
  intro chunk y
  have hplain := calleesRows_answers d staticOnly chunk y
  simp only [calleesAmbiguousRows, List.mem_dedup, List.mem_append, hplain, List.mem_map,
    List.mem_filter, Bool.and_eq_true, List.contains_iff_mem, Prod.exists, mem_candidatePairs]
  constructor
  · rintro (⟨x, hmem, hcall⟩ | ⟨e, c, ⟨⟨he, hc, hid⟩, hmem, hprov⟩, hy⟩)
    · exact ⟨x, hmem, .inl hcall⟩
    · exact ⟨_, hmem, .inr ⟨e, he, c, hc, hid, hprov, rfl, hy⟩⟩
  · rintro ⟨x, hmem, hcall | ⟨e, he, c, hc, hid, hprov, rfl, hy⟩⟩
    · exact .inl ⟨x, hmem, hcall⟩
    · exact .inr ⟨e, c, ⟨⟨he, hc, hid⟩, hmem, hprov⟩, hy⟩

end Answers

section Files

variable {graph : ImportGraph}

theorem ImportGraph.find (h : (path, targets) ∈ graph.forward) :
    graph.forward.find? (fun f => f.1 == path) = some (path, targets) := by
  have hkeyed := graph.keyed
  revert h hkeyed
  induction graph.forward with
  | nil => exact fun h => by cases h
  | cons f forward ih =>
    intro h hkeyed
    obtain ⟨hnew, hkeyed⟩ := List.nodup_cons.mp hkeyed
    rcases List.mem_cons.mp h with rfl | h
    · exact List.find?_cons_of_pos (beq_self_eq_true _)
    · have hne : (f.1 == path) = false := by
        rw [beq_eq_false_iff_ne]
        rintro rfl
        exact hnew (List.mem_map.mpr ⟨_, h, rfl⟩)
      rw [List.find?_cons_of_neg (by simp [hne])]
      exact ih h hkeyed

theorem mem_importers {visited : List String} {node x : String} :
    x ∈ importers graph visited node ↔ Imports graph x node ∧ x ∉ visited := by
  simp only [importers, Imports, List.mem_map, List.mem_filter, Bool.and_eq_true,
    List.contains_iff_mem, Bool.not_eq_true', Prod.exists]
  constructor
  · rintro ⟨path, targets, ⟨hmem, htarget, hnot⟩, rfl⟩
    exact ⟨⟨targets, hmem, htarget⟩, by simpa using hnot⟩
  · rintro ⟨⟨targets, hmem, htarget⟩, hnot⟩
    exact ⟨x, targets, ⟨hmem, htarget, by simpa using hnot⟩, rfl⟩

theorem mem_importTargets {visited : List String} {node y : String} :
    y ∈ importTargets graph visited node ↔ Imports graph node y ∧ y ∉ visited := by
  unfold importTargets Imports
  cases hfind : graph.forward.find? fun f => f.1 == node with
  | none =>
    refine iff_of_false List.not_mem_nil fun h => ?_
    obtain ⟨⟨targets, hmem, -⟩, -⟩ := h
    rw [ImportGraph.find hmem] at hfind
    cases hfind
  | some f =>
    have hat := List.find?_some hfind
    have hnode : f.1 = node := beq_iff_eq.mp hat
    have hmem := List.mem_of_find?_eq_some hfind
    subst hnode
    simp only [List.mem_filter, Bool.not_eq_true', List.contains_eq_mem, decide_eq_false_iff_not]
    refine and_congr_left fun _ => ⟨fun hy => ⟨f.2, hmem, hy⟩, ?_⟩
    rintro ⟨targets, hmem', hy⟩
    rw [ImportGraph.find hmem', Option.some.injEq] at hfind
    rw [← hfind]
    exact hy

theorem nextFiles_fresh (reverse : Bool) :
    Fresh (if reverse then fun y x => Imports graph x y else Imports graph) Precedes
      (nextFiles graph reverse) := by
  refine ⟨fun visited frontier => orderBy_precedes (List.nodup_dedup _), fun visited frontier y => ?_⟩
  rw [nextFiles, mem_sortedSet, List.mem_flatMap]
  cases reverse with
  | true =>
    simp only [if_true, mem_importers]
    constructor
    · rintro ⟨x, hx, himport, hnot⟩
      exact ⟨⟨x, hx, himport⟩, hnot⟩
    · rintro ⟨⟨x, hx, himport⟩, hnot⟩
      exact ⟨x, hx, himport, hnot⟩
  | false =>
    simp only [Bool.false_eq_true, if_false, mem_importTargets]
    constructor
    · rintro ⟨x, hx, himport, hnot⟩
      exact ⟨⟨x, hx, himport⟩, hnot⟩
    · rintro ⟨⟨x, hx, himport⟩, hnot⟩
      exact ⟨x, hx, himport, hnot⟩

theorem bfsFilesFrom_eq (reverse : Bool) (fuel level : Nat) (visited frontier : List String) :
    bfsFilesFrom graph reverse fuel level visited frontier =
      levelsFrom (nextFiles graph reverse) fuel level visited frontier := by
  induction fuel generalizing level visited frontier with
  | zero => rfl
  | succ fuel ih =>
    unfold bfsFilesFrom levelsFrom
    cases frontier with
    | nil => rfl
    | cons x frontier =>
      rw [List.isEmpty_cons, if_neg Bool.false_ne_true]
      cases nextFiles graph reverse visited (x :: frontier) with
      | nil => rfl
      | cons y next => simp only [List.isEmpty_cons, Bool.false_eq_true, if_false, ih]

theorem bfsFiles_exact (graph : ImportGraph) (seeds : List String) (depth : Int) (reverse : Bool) :
    Exact (if reverse then fun y x => Imports graph x y else Imports graph) Precedes
      {x | x ∈ seeds} 1 depth.toNat (bfsFiles graph seeds depth reverse) := by
  unfold bfsFiles
  rw [bfsFilesFrom_eq]
  have hseeds : Searched (if reverse then fun y x => Imports graph x y else Imports graph)
      {x | x ∈ seeds} 0 seeds (sortedSet seeds) :=
    searched_start.of_mem_iff fun _ => mem_sortedSet.symm
  have h := levelsFrom_of_searched (nextFiles_fresh reverse) depth.toNat hseeds
  rwa [Nat.zero_add, Nat.zero_add] at h

end Files

section Distances

variable (d : Database) (staticOnly : Bool)

/-- The levels are the sets at each distance, in order, whatever the order of the hash sets. -/
structure ExactLevels (R : String → String → Prop)
    (levels : HashOrder → Nat → List String → Int → List (Nat × List String)) : Prop where
  exact : ∀ order size targets maxDepth,
    Exact R Precedes {x | x ∈ targets} 1 maxDepth.toNat (levels order size targets maxDepth)
  canonical : ∀ order order' size size' targets maxDepth,
    levels order size targets maxDepth = levels order' size' targets maxDepth

/-- A name is among the callers of another where the other is among its callees. -/
def Dual (up down : HashOrder → Nat → List String → Int → List (Nat × List String)) : Prop :=
  ∀ order size maxDepth x y i, (∃ l ∈ up order size [x] maxDepth, l.1 = i ∧ y ∈ l.2) ↔
    ∃ l ∈ down order size [y] maxDepth, l.1 = i ∧ x ∈ l.2

theorem exactLevels_bfs {R : String → String → Prop} {query : List String → List String}
    (h : Answers R query) : ExactLevels R fun order size => bfs order size query :=
  ⟨fun _ _ targets maxDepth => bfs_exact h targets maxDepth,
    fun order order' size size' targets maxDepth => bfs_eq h order order' size size' targets maxDepth⟩

theorem ExactLevels.dual {R : String → String → Prop}
    {up down : HashOrder → Nat → List String → Int → List (Nat × List String)}
    (hup : ExactLevels (fun y x => R x y) up) (hdown : ExactLevels R down) : Dual up down :=
  fun order size maxDepth x y i =>
    (hup.exact order size [x] maxDepth).dual (hdown.exact order size [y] maxDepth) i

/-- Callers, callees and imports are found at their distance, and the two directions are dual. -/
theorem levels_exact (graph : ImportGraph) :
    ExactLevels (fun y x => Calls d staticOnly x y) (bfsCallers d staticOnly) ∧
      ExactLevels (Calls d staticOnly) (bfsCallees d staticOnly) ∧
      ExactLevels (fun y x => MayCall d staticOnly x y) (bfsCallersAmbiguous d staticOnly) ∧
      ExactLevels (MayCall d staticOnly) (bfsCalleesAmbiguous d staticOnly) ∧
      Dual (bfsCallers d staticOnly) (bfsCallees d staticOnly) ∧
      Dual (bfsCallersAmbiguous d staticOnly) (bfsCalleesAmbiguous d staticOnly) ∧
      ExactLevels (fun y x => Imports graph x y)
        (fun _ _ seeds depth => bfsFiles graph seeds depth true) ∧
      ExactLevels (Imports graph) (fun _ _ seeds depth => bfsFiles graph seeds depth false) ∧
      Dual (fun _ _ seeds depth => bfsFiles graph seeds depth true)
        (fun _ _ seeds depth => bfsFiles graph seeds depth false) := by
  have hcallers : ExactLevels (fun y x => Calls d staticOnly x y) (bfsCallers d staticOnly) :=
    exactLevels_bfs (callersRows_answers d staticOnly)
  have hcallees : ExactLevels (Calls d staticOnly) (bfsCallees d staticOnly) :=
    exactLevels_bfs (calleesRows_answers d staticOnly)
  have hmayCallers : ExactLevels (fun y x => MayCall d staticOnly x y)
      (bfsCallersAmbiguous d staticOnly) :=
    exactLevels_bfs (callersAmbiguousRows_answers d staticOnly)
  have hmayCallees : ExactLevels (MayCall d staticOnly) (bfsCalleesAmbiguous d staticOnly) :=
    exactLevels_bfs (calleesAmbiguousRows_answers d staticOnly)
  have himporters : ExactLevels (fun y x => Imports graph x y)
      (fun _ _ seeds depth => bfsFiles graph seeds depth true) :=
    ⟨fun _ _ seeds depth => bfsFiles_exact graph seeds depth true, fun _ _ _ _ _ _ => rfl⟩
  have himported : ExactLevels (Imports graph)
      (fun _ _ seeds depth => bfsFiles graph seeds depth false) :=
    ⟨fun _ _ seeds depth => bfsFiles_exact graph seeds depth false, fun _ _ _ _ _ _ => rfl⟩
  exact ⟨hcallers, hcallees, hmayCallers, hmayCallees, hcallers.dual hcallees,
    hmayCallers.dual hmayCallees, himporters, himported, himporters.dual himported⟩

end Distances

end RemyCC.Mcp
