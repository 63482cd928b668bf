import RemyCC.Mcp.Paths

/-!
# Call paths are shortest

After `k` rounds each search knows what is within `k` steps of its end, and no
node is known to both, so no path of `2 * k` steps leads from one end to the
other. The first node that both know lies on a shortest path.
-/

namespace RemyCC.Mcp

open Index RemyCC.Search

section Loading

variable (symbols : List (Int × SymbolRow)) (edges : List EdgeRow) (staticOnly : Bool)

def labelOf (e : EdgeRow) : Label := (e.provenance, e.via)

/-- The entry that an edge makes under the node it leaves. -/
def entryFrom (names : String → Option Int) (x : Int) (e : EdgeRow) : Option (Int × Label) :=
  (edgeIds names e).bind fun ids => if ids.1 = x then some (ids.2, labelOf e) else none

/-- The entry that an edge makes under the node it leads to. -/
def entryTo (names : String → Option Int) (y : Int) (e : EdgeRow) : Option (Int × Label) :=
  (edgeIds names e).bind fun ids => if ids.2 = y then some (ids.1, labelOf e) else none

/-- The first stored edge between two nodes. -/
def firstEdge (x y : Int) : Option EdgeRow :=
  (edgeRows edges staticOnly).find? fun e => edgeIds (nameToId symbols) e == some (x, y)

theorem entryFrom_eq_some {names : String → Option Int} {x : Int} {e : EdgeRow} {entry : Int × Label} :
    entryFrom names x e = some entry ↔ edgeIds names e = some (x, entry.1) ∧ entry.2 = labelOf e := by
  unfold entryFrom
  obtain ⟨y, label⟩ := entry
  cases edgeIds names e with
  | none => simp
  | some ids =>
    obtain ⟨s, t⟩ := ids
    by_cases hs : s = x
    · simp [hs, eq_comm]
    · simp [hs]

theorem entryTo_eq_some {names : String → Option Int} {y : Int} {e : EdgeRow} {entry : Int × Label} :
    entryTo names y e = some entry ↔ edgeIds names e = some (entry.1, y) ∧ entry.2 = labelOf e := by
  unfold entryTo
  obtain ⟨x, label⟩ := entry
  cases edgeIds names e with
  | none => simp
  | some ids =>
    obtain ⟨s, t⟩ := ids
    by_cases ht : t = y
    · simp [ht, eq_comm]
    · simp [ht]

theorem pushEdge_apply (names : String → Option Int) (adj : Adjacency × Adjacency) (e : EdgeRow)
    (x : Int) : (pushEdge names adj e).1 x = adj.1 x ++ (entryFrom names x e).toList ∧
      (pushEdge names adj e).2 x = adj.2 x ++ (entryTo names x e).toList := by
  unfold pushEdge entryFrom entryTo
  cases edgeIds names e with
  | none => simp
  | some ids =>
    obtain ⟨s, t⟩ := ids
    simp only [Adjacency.push, beq_iff_eq, Option.bind_some]
    constructor
    · by_cases hs : x = s
      · simp [hs, labelOf]
      · simp [hs, Ne.symm hs]
    · by_cases ht : x = t
      · simp [ht, labelOf]
      · simp [ht, Ne.symm ht]

theorem foldl_pushEdge (names : String → Option Int) (rows : List EdgeRow)
    (adj : Adjacency × Adjacency) (x : Int) :
    (rows.foldl (pushEdge names) adj).1 x = adj.1 x ++ rows.filterMap (entryFrom names x) ∧
      (rows.foldl (pushEdge names) adj).2 x = adj.2 x ++ rows.filterMap (entryTo names x) := by
  induction rows generalizing adj with
  | nil => simp
  | cons e rows ih =>
    obtain ⟨hfwd, hbwd⟩ := ih (pushEdge names adj e)
    obtain ⟨hfrom, hto⟩ := pushEdge_apply names adj e x
    rw [List.foldl_cons, hfwd, hbwd, hfrom, hto, List.append_assoc, List.append_assoc]
    constructor
    · cases hentry : entryFrom names x e <;> simp [hentry]
    · cases hentry : entryTo names x e <;> simp [hentry]

theorem adjFwd_eq (x : Int) : (loadGraph symbols edges staticOnly).adjFwd x =
    (edgeRows edges staticOnly).filterMap (entryFrom (nameToId symbols) x) :=
  (foldl_pushEdge _ _ _ x).1

theorem adjBwd_eq (y : Int) : (loadGraph symbols edges staticOnly).adjBwd y =
    (edgeRows edges staticOnly).filterMap (entryTo (nameToId symbols) y) :=
  (foldl_pushEdge _ _ _ y).2

theorem leads_adjFwd_iff {x y : Int} : Leads (loadGraph symbols edges staticOnly).adjFwd x y ↔
    ∃ e ∈ edgeRows edges staticOnly, edgeIds (nameToId symbols) e = some (x, y) := by
  simp only [Leads, adjFwd_eq, List.mem_filterMap, entryFrom_eq_some]
  constructor
  · rintro ⟨label, e, he, hids, -⟩
    exact ⟨e, he, hids⟩
  · rintro ⟨e, he, hids⟩
    exact ⟨labelOf e, e, he, hids, rfl⟩

theorem leads_adjBwd_iff {x y : Int} : Leads (loadGraph symbols edges staticOnly).adjBwd y x ↔
    ∃ e ∈ edgeRows edges staticOnly, edgeIds (nameToId symbols) e = some (x, y) := by
  simp only [Leads, adjBwd_eq, List.mem_filterMap, entryTo_eq_some]
  constructor
  · rintro ⟨label, e, he, hids, -⟩
    exact ⟨e, he, hids⟩
  · rintro ⟨e, he, hids⟩
    exact ⟨labelOf e, e, he, hids, rfl⟩

/-- The two adjacencies hold the same edges. -/
theorem leads_adjBwd : Leads (loadGraph symbols edges staticOnly).adjBwd =
    fun y x => Leads (loadGraph symbols edges staticOnly).adjFwd x y := by
  funext y x
  rw [eq_iff_iff, leads_adjBwd_iff, leads_adjFwd_iff]

/-- The first entry under a node comes from the first stored edge. -/
theorem firstLabel_adjFwd (x y : Int) :
    firstLabel (loadGraph symbols edges staticOnly).adjFwd x y =
      (firstEdge symbols edges staticOnly x y).map labelOf := by
  unfold firstLabel firstEdge
  rw [adjFwd_eq, List.find?_filterMap]
  have hany : (fun e => Option.any (fun entry => entry.1 == y) (entryFrom (nameToId symbols) x e)) =
      fun e => edgeIds (nameToId symbols) e == some (x, y) := by
    funext e
    rw [Bool.eq_iff_iff, Option.any_eq_true, beq_iff_eq]
    constructor
    · rintro ⟨entry, hentry, hy⟩
      rw [← beq_iff_eq.mp hy]
      exact (entryFrom_eq_some.mp hentry).1
    · exact fun hids => ⟨(y, labelOf e), entryFrom_eq_some.mpr ⟨hids, rfl⟩, beq_self_eq_true y⟩
  rw [hany]
  cases hfind : (edgeRows edges staticOnly).find? fun e =>
      edgeIds (nameToId symbols) e == some (x, y) with
  | none => rfl
  | some e =>
    have hat := List.find?_some hfind
    have hentry : entryFrom (nameToId symbols) x e = some (y, labelOf e) :=
      entryFrom_eq_some.mpr ⟨beq_iff_eq.mp hat, rfl⟩
    rw [Option.bind_some, hentry]
    rfl

end Loading

section Halves

variable {graph : Graph}

/-- A step is under the label of the first edge that leads to it. -/
def Follows (graph : Graph) (a b : PathStep) : Prop :=
  firstLabel graph.adjFwd a.id b.id = some (b.provenance, b.via)

theorem followBack_isChain {prev : Int} {ids : List Int}
    (h : (prev :: ids).IsChain (Leads graph.adjFwd)) {step : PathStep} (hid : step.id = prev) :
    (step :: followBack graph prev ids).IsChain (Follows graph) := by
  induction ids generalizing prev step with
  | nil => exact List.isChain_singleton _
  | cons nid ids ih =>
    obtain ⟨hleads, hrest⟩ := List.isChain_cons_cons.mp h
    obtain ⟨label, hlabel⟩ := firstLabel_of_leads hleads
    refine List.isChain_cons_cons.mpr ⟨?_, ih hrest rfl⟩
    unfold Follows
    simp only [hid, hlabel, Option.getD_some]

theorem map_followBack (prev : Int) (ids : List Int) :
    (followBack graph prev ids).map PathStep.id = ids := by
  induction ids generalizing prev with
  | nil => rfl
  | cons nid ids ih => rw [followBack, List.map_cons, ih]

theorem fwdHalf_isChain {steps : List (Int × Parent Int Label)}
    (h : steps.IsChain (Hangs graph.adjFwd)) :
    (steps.map pathStep).reverse.IsChain (Follows graph) := by
  rw [List.isChain_reverse, List.isChain_map]
  exact h

theorem bwdHalf_isChain (hconverse : Leads graph.adjBwd = fun y x => Leads graph.adjFwd x y)
    {steps : List (Int × Parent Int Label)} (h : steps.IsChain (Hangs graph.adjBwd)) :
    (steps.map Prod.fst).IsChain (Leads graph.adjFwd) := by
  rw [List.isChain_map]
  refine h.imp fun a b hhang => ?_
  have hleads := leads_of_firstLabel hhang
  rwa [hconverse] at hleads

/-- What the reconstruction gives where the two searches know the same node. -/
structure Path (graph : Graph) (src tgt : Int) (n : Nat) (path : List PathStep) : Prop where
  starts : path.head? = some ⟨src, none, none⟩
  ends : (path.map PathStep.id).getLast? = some tgt
  follows : path.IsChain (Follows graph)
  length : path.length = n + 1

theorem reconstructPath_path
    (hconverse : Leads graph.adjBwd = fun y x => Leads graph.adjFwd x y) {src tgt meet : Int}
    {fwd bwd : ParentMap Int Label} {m n : Nat} (hfwd : Tree graph.adjFwd src unlabelled fwd)
    (hbwd : Tree graph.adjBwd tgt unlabelled bwd) (hknown : knows fwd meet = true)
    (hknown' : knows bwd meet = true) (hm : AtDistance (Leads graph.adjFwd) {src} m meet)
    (hn : AtDistance (Leads graph.adjBwd) {tgt} n meet) :
    ∃ path, reconstructPath graph meet fwd bwd = some path ∧ Path graph src tgt (m + n) path := by
  obtain ⟨p, hp⟩ := knows_iff.mp hknown
  obtain ⟨q, hq⟩ := knows_iff.mp hknown'
  obtain ⟨m', hm', hatm⟩ := hfwd.depth hp
  obtain ⟨n', hn', hatn⟩ := hbwd.depth hq
  rw [hatm.eq hm] at hm'
  rw [hatn.eq hn] at hn'
  obtain ⟨up, hup, hclimbed⟩ := hfwd.climb hp hm hm'
  obtain ⟨down, hdown, hclimbed'⟩ := hbwd.climb hq hn (hn'.trans (Nat.lt_succ_self _))
  have hrest : climb bwd bwd.length q.node = some down := by
    rw [climb, hq, Option.bind_some] at hdown
    obtain ⟨rest, hrest, heq⟩ := Option.map_eq_some_iff.mp hdown
    rw [hrest, (List.cons.inj heq).2]
  have hids : (meet :: down.map Prod.fst).IsChain (Leads graph.adjFwd) :=
    bwdHalf_isChain hconverse hclimbed'.hang
  have hback := followBack_isChain hids (rfl : (pathStep (meet, p)).id = meet)
  have hfront := fwdHalf_isChain hclimbed.hang
  rw [List.map_cons, List.reverse_cons] at hfront
  refine ⟨((up.map pathStep).reverse ++ [pathStep (meet, p)]) ++
    followBack graph meet (down.map Prod.fst), ?_, ?_, ?_, ?_, ?_⟩
  · rw [reconstructPath, hup, Option.bind_some, hq, Option.bind_some, hrest, Option.map_some,
      List.map_cons, List.reverse_cons]
  · have hlast : (((meet, p) :: up).map pathStep).getLast? = some (pathStep (src, unlabelled)) := by
      rw [List.getLast?_map, hclimbed.last, Option.map_some]
    rw [← List.reverse_cons, ← List.map_cons, List.head?_append, List.head?_reverse, hlast]
    rfl
  · have hlast : ((meet, q) :: down).map Prod.fst = meet :: down.map Prod.fst := rfl
    rw [List.append_assoc, List.map_append, List.singleton_append, List.map_cons, map_followBack,
      List.getLast?_append_of_ne_nil _ (List.cons_ne_nil _ _)]
    have hend := congrArg (Option.map Prod.fst) hclimbed'.last
    rw [← List.getLast?_map, hlast] at hend
    exact hend
  · rw [List.append_assoc, List.singleton_append]
    exact List.isChain_split.mpr ⟨hfront, hback⟩
  · have hlen := hclimbed.length
    have hlen' := hclimbed'.length
    have hback : (followBack graph meet (down.map Prod.fst)).length = down.length := by
      rw [← List.length_map PathStep.id, map_followBack, List.length_map]
    rw [List.length_cons] at hlen hlen'
    rw [List.length_append, List.length_append, List.length_reverse, List.length_map, hback,
      List.length_singleton]
    omega

end Halves

section Rounds

variable {graph : Graph} {src tgt : Int} {i j : Nat}
variable {fwd bwd : ParentMap Int Label} {frontF frontB : List Int}

/-- No node is known to both searches. -/
def Apart (fwd bwd : ParentMap Int Label) : Prop :=
  ∀ x, knows fwd x = true → ¬ knows bwd x = true

theorem Apart.symm (h : Apart fwd bwd) : Apart bwd fwd := fun x hbwd hfwd => h x hfwd hbwd

/-- Two searches that are apart are further apart than they have gone together. -/
theorem Apart.no_steps (h : Apart fwd bwd)
    (hconverse : Leads graph.adjBwd = fun y x => Leads graph.adjFwd x y)
    (hfwd : Level graph.adjFwd src unlabelled i fwd frontF)
    (hbwd : Level graph.adjBwd tgt unlabelled j bwd frontB) {n : Nat} (hn : n ≤ i + j) :
    ¬ Steps (Leads graph.adjFwd) n src tgt := by
  intro hsteps
  have hknown {m : Nat} {x : Int} (hx : Steps (Leads graph.adjFwd) m src x) (hm : m ≤ i) :
      knows fwd x = true := by
    obtain ⟨m', hm', hat⟩ := (reaches_singleton.mpr hx).atDistance
    exact (hfwd.known x).mpr ⟨m', hm'.trans hm, hat⟩
  have hknown' {m : Nat} {x : Int} (hx : Steps (Leads graph.adjFwd) m x tgt) (hm : m ≤ j) :
      knows bwd x = true := by
    obtain ⟨m', hm', hat⟩ := (reaches_singleton.mpr hx.swap).atDistance
    rw [← hconverse] at hat
    exact (hbwd.known x).mpr ⟨m', hm'.trans hm, hat⟩
  rcases Nat.le_total n i with hle | hle
  · exact h tgt (hknown hsteps hle) (hknown' (.refl tgt) (Nat.zero_le j))
  · obtain ⟨m, rfl⟩ := Nat.exists_eq_add_of_le hle
    obtain ⟨x, hleft, hright⟩ := hsteps.split
    exact h x (hknown hleft le_rfl) (hknown' hright (Nat.le_of_add_le_add_left hn))

/-- A path of `n` steps than which there is no shorter. -/
def Shortest (graph : Graph) (src tgt : Int) (n : Nat) (path : List PathStep) : Prop :=
  Path graph src tgt n path ∧ ∀ m, Steps (Leads graph.adjFwd) m src tgt → n ≤ m

/-- What an outcome says about the paths of at most `bound` steps. -/
def Settles (graph : Graph) (src tgt : Int) (bound : Nat) : Outcome → Prop
  | .found path => ∃ n ≤ bound, Shortest graph src tgt n path
  | .overBudget => True
  | .notFound => ∀ n ≤ bound, ¬ Steps (Leads graph.adjFwd) n src tgt
  | .stuck => False

/-- A node known to both searches lies on a shortest path if no path is shorter than they go. -/
theorem reconstructed_settles
    (hconverse : Leads graph.adjBwd = fun y x => Leads graph.adjFwd x y)
    (hfwd : Tree graph.adjFwd src unlabelled fwd) (hbwd : Tree graph.adjBwd tgt unlabelled bwd)
    {meet : Int} (hknown : knows fwd meet = true) (hknown' : knows bwd meet = true)
    (hat : ∃ m ≤ i, AtDistance (Leads graph.adjFwd) {src} m meet)
    (hat' : ∃ n ≤ j, AtDistance (Leads graph.adjBwd) {tgt} n meet)
    (hleast : ∀ n < i + j, ¬ Steps (Leads graph.adjFwd) n src tgt) {bound : Nat}
    (hbound : i + j ≤ bound) :
    Settles graph src tgt bound (reconstructed graph meet fwd bwd) := by
  obtain ⟨m, hm, hatm⟩ := hat
  obtain ⟨n, hn, hatn⟩ := hat'
  obtain ⟨path, hpath, hproper⟩ :=
    reconstructPath_path hconverse hfwd hbwd hknown hknown' hatm hatn
  rw [reconstructed, hpath]
  refine ⟨m + n, by omega, hproper, fun k hk => ?_⟩
  by_contra hless
  exact hleast k (by omega) hk

/-- Where a search has come to its end nothing further can be reached. -/
theorem no_steps_of_nil (hfwd : Level graph.adjFwd src unlabelled i fwd [])
    (hnear : ∀ n ≤ i, ¬ Steps (Leads graph.adjFwd) n src tgt) (n : Nat) :
    ¬ Steps (Leads graph.adjFwd) n src tgt := by
  intro hsteps
  obtain ⟨m, -, hat⟩ := (reaches_singleton.mpr hsteps).atDistance
  rcases Nat.le_total m i with hle | hle
  · exact hnear m hle (reaches_singleton.mp hat.reaches)
  · refine atDistance_empty_of_le (fun x hx => ?_) hle tgt hat
    exact List.not_mem_nil ((hfwd.front x).mpr hx)

theorem bidirRounds_settles
    (hconverse : Leads graph.adjBwd = fun y x => Leads graph.adjFwd x y) {k : Nat}
    (hfwd : Level graph.adjFwd src unlabelled k fwd frontF)
    (hbwd : Level graph.adjBwd tgt unlabelled k bwd frontB) (hapart : Apart fwd bwd)
    (maxVisited : Int) (rounds : Nat) :
    Settles graph src tgt (2 * (k + rounds))
      (bidirRounds graph maxVisited rounds fwd bwd frontF frontB) := by
  induction rounds generalizing k fwd bwd frontF frontB with
  | zero => exact fun n hn => hapart.no_steps hconverse hfwd hbwd (by omega)
  | succ rounds ih =>
    unfold bidirRounds
    by_cases hbudget : maxVisited < (fwd.length + bwd.length : Nat)
    · rw [if_pos hbudget]
      trivial
    rw [if_neg hbudget]
    by_cases hempty : (frontF.isEmpty && frontB.isEmpty) = true
    · rw [if_pos hempty]
      have hnil := List.isEmpty_iff.mp (Bool.and_eq_true_iff.mp hempty).1
      subst hnil
      exact fun n _ => no_steps_of_nil hfwd
        (fun m hm => hapart.no_steps hconverse hfwd hbwd (by omega)) n
    rw [if_neg hempty]
    cases hrun : expandFront graph.adjFwd bwd frontF (fwd, []) with
    | met meet fwd' =>
      have hmet := @Level.grown _ _ _ _ _ _ _ bwd _ _ hfwd
      rw [hrun] at hmet
      obtain ⟨htree, hknown, hknown', hat⟩ := hmet
      exact reconstructed_settles hconverse htree hbwd.tree hknown hknown' hat
        ((hbwd.known meet).mp hknown')
        (fun n hn => hapart.no_steps hconverse hfwd hbwd (by omega)) (by omega)
    | done fwd' nextF =>
      obtain ⟨hfwd', hapart'⟩ := hfwd.next hapart hrun
      simp only
      cases hrun' : expandFront graph.adjBwd fwd' frontB (bwd, []) with
      | met meet bwd' =>
        have hmet := @Level.grown _ _ _ _ _ _ _ fwd' _ _ hbwd
        rw [hrun'] at hmet
        obtain ⟨htree, hknown, hknown', hat⟩ := hmet
        exact reconstructed_settles hconverse hfwd'.tree htree hknown' hknown
          ((hfwd'.known meet).mp hknown') hat
          (fun n hn => Apart.no_steps hapart' hconverse hfwd' hbwd (by omega)) (by omega)
      | done bwd' nextB =>
        obtain ⟨hbwd', hapart''⟩ := hbwd.next (Apart.symm hapart') hrun'
        have hrest := ih hfwd' hbwd' (Apart.symm hapart'')
        rwa [Nat.add_right_comm, Nat.add_assoc] at hrest

theorem bidirRun_settles
    (hconverse : Leads graph.adjBwd = fun y x => Leads graph.adjFwd x y)
    (src tgt maxDepth maxVisited : Int) :
    Settles graph src tgt (2 * maxDepth.toNat) (bidirRun graph src tgt maxDepth maxVisited) := by
  unfold bidirRun
  by_cases hsame : src = tgt
  · rw [if_pos (beq_iff_eq.mpr hsame)]
    subst hsame
    exact ⟨0, Nat.zero_le _, ⟨rfl, rfl, List.isChain_singleton _, rfl⟩, fun m _ => Nat.zero_le m⟩
  · have hapart : Apart [(src, unlabelled)] [(tgt, unlabelled)] := by
      intro x hfwd hbwd
      rw [knows_cons] at hfwd hbwd
      rcases hfwd with rfl | hfwd
      · rcases hbwd with rfl | hbwd
        · exact hsame rfl
        · cases hbwd
      · cases hfwd
    have h := bidirRounds_settles hconverse (Level.single rfl) (Level.single rfl) hapart maxVisited
      maxDepth.toNat
    rw [Nat.zero_add] at h
    rw [if_neg (by simpa using hsame)]
    exact h

end Rounds

section Calls

variable (symbols : List (Int × SymbolRow)) (edges : List EdgeRow) (staticOnly : Bool)

/-- A shortest call path, each step of it along the first stored edge between its ends. -/
structure CallPath (src tgt : Int) (path : List PathStep) : Prop where
  starts : path.head? = some ⟨src, none, none⟩
  ends : (path.map PathStep.id).getLast? = some tgt
  follows : path.IsChain fun a b =>
    (b.id, b.provenance, b.via) ∈ (loadGraph symbols edges staticOnly).adjFwd a.id ∧
      ∃ e, firstEdge symbols edges staticOnly a.id b.id = some e ∧
        b.provenance = e.provenance ∧ b.via = e.via
  least : ∀ n, Steps (Leads (loadGraph symbols edges staticOnly).adjFwd) n src tgt →
    path.length ≤ n + 1
  nodup : (path.map PathStep.id).Nodup

theorem mem_of_firstLabel {adj : Adjacency} {x y : Int} {label : Label}
    (h : firstLabel adj x y = some label) : (y, label) ∈ adj x := by
  obtain ⟨e, he, rfl⟩ := Option.map_eq_some_iff.mp h
  have hat := List.find?_some he
  exact beq_iff_eq.mp hat ▸ List.mem_of_find?_eq_some he

variable {src tgt : Int} {n : Nat} {path : List PathStep}

theorem Path.ids_isChain {graph : Graph} (h : Path graph src tgt n path) :
    (path.map PathStep.id).IsChain (Leads graph.adjFwd) := by
  rw [List.isChain_map]
  exact h.follows.imp fun _ _ hab => leads_of_firstLabel hab

theorem Path.ids_head {graph : Graph} (h : Path graph src tgt n path) :
    (path.map PathStep.id).head? = some src := by
  rw [List.head?_map, h.starts]
  rfl

theorem Path.steps {graph : Graph} (h : Path graph src tgt n path) :
    Steps (Leads graph.adjFwd) n src tgt := by
  obtain ⟨m, hlen, hsteps⟩ := steps_of_isChain h.ids_isChain h.ids_head h.ends
  rw [List.length_map, h.length] at hlen
  rwa [Nat.succ.inj hlen]

theorem callPath_of_shortest
    (h : Shortest (loadGraph symbols edges staticOnly) src tgt n path) :
    CallPath symbols edges staticOnly src tgt path := by
  obtain ⟨hpath, hleast⟩ := h
  have hless : ∀ m, Steps (Leads (loadGraph symbols edges staticOnly).adjFwd) m src tgt →
      path.length ≤ m + 1 := fun m hm => by
    rw [hpath.length]
    exact Nat.succ_le_succ (hleast m hm)
  refine ⟨hpath.starts, hpath.ends, hpath.follows.imp fun a b hab => ⟨mem_of_firstLabel hab, ?_⟩,
    hless, ?_⟩
  · unfold Follows at hab
    rw [firstLabel_adjFwd] at hab
    obtain ⟨e, he, hlabel⟩ := Option.map_eq_some_iff.mp hab
    obtain ⟨hprov, hvia⟩ := Prod.mk.inj hlabel
    exact ⟨e, he, hprov.symm, hvia.symm⟩
  · refine nodup_of_shortest hpath.ids_isChain hpath.ids_head hpath.ends fun m hm => ?_
    rw [List.length_map]
    exact hless m hm

/-- The search finds a path if one is short enough, and what it finds is a shortest. -/
theorem bidirBfs_shortest (src tgt maxDepth maxVisited : Int) :
    (bidirRun (loadGraph symbols edges staticOnly) src tgt maxDepth maxVisited ≠ .overBudget →
      ((bidirBfs (loadGraph symbols edges staticOnly) src tgt maxDepth maxVisited).isSome = true ↔
        ∃ n ≤ 2 * maxDepth.toNat,
          Steps (Leads (loadGraph symbols edges staticOnly).adjFwd) n src tgt)) ∧
    (∀ path, bidirBfs (loadGraph symbols edges staticOnly) src tgt maxDepth maxVisited = some path →
      CallPath symbols edges staticOnly src tgt path) ∧
    bidirRun (loadGraph symbols edges staticOnly) src tgt maxDepth maxVisited ≠ .stuck := by
  have hsettles := bidirRun_settles (leads_adjBwd symbols edges staticOnly) src tgt maxDepth
    maxVisited
  unfold bidirBfs
  cases hrun : bidirRun (loadGraph symbols edges staticOnly) src tgt maxDepth maxVisited with
  | found path =>
    rw [hrun] at hsettles
    obtain ⟨n, hn, hshortest⟩ := hsettles
    refine ⟨fun _ => iff_of_true rfl ⟨n, hn, hshortest.1.steps⟩, fun path' hpath => ?_,
      fun h => (by cases h)⟩
    rw [← Option.some.inj hpath]
    exact callPath_of_shortest symbols edges staticOnly hshortest
  | overBudget =>
    exact ⟨fun h => absurd rfl h, fun path hpath => (by cases hpath), fun h => (by cases h)⟩
  | notFound =>
    rw [hrun] at hsettles
    refine ⟨fun _ => iff_of_false Bool.false_ne_true ?_, fun path hpath => (by cases hpath),
      fun h => (by cases h)⟩
    rintro ⟨n, hn, hsteps⟩
    exact hsettles n hn hsteps
  | stuck =>
    rw [hrun] at hsettles
    exact hsettles.elim

end Calls

end RemyCC.Mcp
