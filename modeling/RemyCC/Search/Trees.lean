import RemyCC.Search.Distance
import Mathlib.Data.List.Chain
import Mathlib.Data.List.Nodup

/-!
# Search trees

A search remembers for each node it has found the one it came from and the
label of the edge. It grows level by level and gives up where it finds a node
that another search knows. The nodes one comes to by climbing the tree are a
shortest walk, and each hangs by the first edge from its parent.
-/

namespace RemyCC.Search

universe u v

variable {α : Type u} {L : Type v} [DecidableEq α]

structure Parent (α : Type u) (L : Type v) where
  node : Option α
  label : L

abbrev ParentMap (α : Type u) (L : Type v) := List (α × Parent α L)

/-- The search so far, or a node that both searches know. -/
inductive Expanded (α : Type u) (L : Type v) where
  | met (node : α) (parents : ParentMap α L)
  | done (parents : ParentMap α L) (next : List α)

section Growing

variable (adj : α → List (α × L)) (other : ParentMap α L)

def knows (parents : ParentMap α L) (x : α) : Bool := (parents.lookup x).isSome

/-- A node without a parent gets this one. -/
def discover (nid : α) (e : α × L) (s : ParentMap α L × List α) : ParentMap α L × List α :=
  if knows s.1 e.1 then s else ((e.1, ⟨some nid, e.2⟩) :: s.1, s.2 ++ [e.1])

def expandNode (nid : α) : List (α × L) → ParentMap α L × List α → Expanded α L
  | [], s => .done s.1 s.2
  | e :: rest, s =>
    let s := discover nid e s
    if knows other e.1 then .met e.1 s.1 else expandNode nid rest s

def expandFront : List α → ParentMap α L × List α → Expanded α L
  | [], s => .done s.1 s.2
  | nid :: front, s =>
    match expandNode other nid (adj nid) s with
    | .met node parents => .met node parents
    | .done parents next => expandFront front (parents, next)

/-- The nodes from one up to the root, with what each is recorded under. -/
def climb (parents : ParentMap α L) : Nat → Option α → Option (List (α × Parent α L))
  | _, none => some []
  | 0, some _ => none
  | fuel + 1, some node =>
    (parents.lookup node).bind fun p => (climb parents fuel p.node).map fun rest => (node, p) :: rest

end Growing

/-- The relation of the edges. -/
def Leads (adj : α → List (α × L)) (x y : α) : Prop := ∃ label, (y, label) ∈ adj x

/-- The label of the first edge from one node to another. -/
def firstLabel (adj : α → List (α × L)) (x y : α) : Option L :=
  ((adj x).find? fun e => e.1 == y).map Prod.snd

section Labels

variable {adj : α → List (α × L)} {x y : α}

theorem firstLabel_of_leads (h : Leads adj x y) : ∃ label, firstLabel adj x y = some label := by
  obtain ⟨label, hmem⟩ := h
  have hsome : ((adj x).find? fun e => e.1 == y).isSome = true :=
    List.find?_isSome.mpr ⟨_, hmem, beq_self_eq_true _⟩
  obtain ⟨e, he⟩ := Option.isSome_iff_exists.mp hsome
  exact ⟨e.2, congrArg (Option.map Prod.snd) he⟩

theorem leads_of_firstLabel {label : L} (h : firstLabel adj x y = some label) : Leads adj x y := by
  obtain ⟨e, he, rfl⟩ := Option.map_eq_some_iff.mp h
  have hnode := List.find?_some he
  exact ⟨e.2, beq_iff_eq.mp hnode ▸ List.mem_of_find?_eq_some he⟩

/-- The first edge to a node that those before it do not lead to. -/
theorem firstLabel_of_split {earlier later : List (α × L)} {e : α × L}
    (hsplit : adj x = earlier ++ e :: later) (hnew : ∀ e' ∈ earlier, e'.1 ≠ e.1) :
    firstLabel adj x e.1 = some e.2 := by
  have hnone : earlier.find? (fun e' => e'.1 == e.1) = none :=
    List.find?_eq_none.mpr fun e' he' h => hnew e' he' (beq_iff_eq.mp h)
  have hfirst : (e :: later).find? (fun e' => e'.1 == e.1) = some e :=
    List.find?_cons_of_pos (beq_self_eq_true _)
  rw [firstLabel, hsplit, List.find?_append, hnone, Option.none_or, hfirst]
  rfl

end Labels

section Maps

variable {parents : ParentMap α L} {x y : α} {p q : Parent α L}

theorem knows_iff : knows parents x = true ↔ ∃ p, parents.lookup x = some p :=
  Option.isSome_iff_exists

theorem lookup_new (hy : parents.lookup y = some q) (hx : ¬ knows parents x = true) :
    List.lookup y ((x, p) :: parents) = some q := by
  have hne : (y == x) = false := by
    rw [beq_eq_false_iff_ne]
    rintro rfl
    exact hx (knows_iff.mpr ⟨q, hy⟩)
  rw [List.lookup_cons, hne, hy]

theorem knows_cons : knows ((x, p) :: parents) y = true ↔ y = x ∨ knows parents y = true := by
  unfold knows
  rw [List.lookup_cons]
  cases hxy : y == x with
  | true => simp [beq_iff_eq.mp hxy]
  | false => simp [beq_eq_false_iff_ne.mp hxy]

theorem length_pos_of_lookup (h : parents.lookup x = some p) : 0 < parents.length := by
  cases parents with
  | nil => cases h
  | cons _ _ => exact Nat.succ_pos _

end Maps

/-- A node hangs on its parent by the first edge between them. -/
def Hangs (adj : α → List (α × L)) (a b : α × Parent α L) : Prop :=
  firstLabel adj b.1 a.1 = some a.2.label

/-- Every node is the root or one step further from it than the parent it hangs on. -/
structure Tree (adj : α → List (α × L)) (root : α) (start : Parent α L) (parents : ParentMap α L) :
    Prop where
  ends : start.node = none
  placed : ∀ x p, parents.lookup x = some p → (x = root ∧ p = start) ∨
    ∃ y q n, p.node = some y ∧ parents.lookup y = some q ∧ Hangs adj (x, p) (y, q) ∧
      AtDistance (Leads adj) {root} n y ∧ AtDistance (Leads adj) {root} (n + 1) x ∧
      n + 1 < parents.length

section Trees

variable {adj : α → List (α × L)} {root : α} {start : Parent α L} {parents : ParentMap α L}

theorem Tree.single (hend : start.node = none) : Tree adj root start [(root, start)] := by
  refine ⟨hend, fun x p hx => .inl ?_⟩
  rw [List.lookup_cons] at hx
  cases hroot : x == root with
  | true =>
    rw [hroot] at hx
    exact ⟨beq_iff_eq.mp hroot, (Option.some.inj hx).symm⟩
  | false =>
    rw [hroot] at hx
    cases hx

theorem Tree.depth (h : Tree adj root start parents) {x : α} {p : Parent α L}
    (hx : parents.lookup x = some p) :
    ∃ n < parents.length, AtDistance (Leads adj) {root} n x := by
  rcases h.placed x p hx with ⟨rfl, -⟩ | ⟨y, q, n, -, -, -, -, hat, hlen⟩
  · exact ⟨0, length_pos_of_lookup hx, atDistance_self⟩
  · exact ⟨n + 1, hlen, hat⟩

/-- What climbing from a node gives. -/
structure Climbed (adj : α → List (α × L)) (root : α) (start : Parent α L) (x : α) (n : Nat)
    (steps : List (α × Parent α L)) : Prop where
  first : (steps.map Prod.fst).head? = some x
  last : steps.getLast? = some (root, start)
  hang : steps.IsChain (Hangs adj)
  length : steps.length = n + 1

theorem Climbed.cons {x : α} {p : Parent α L} {n : Nat} {y : α × Parent α L}
    {rest : List (α × Parent α L)} (hhang : Hangs adj (x, p) y)
    (h : Climbed adj root start y.1 n (y :: rest)) :
    Climbed adj root start x (n + 1) ((x, p) :: y :: rest) := by
  refine ⟨rfl, ?_, ?_, ?_⟩
  · rw [List.getLast?_cons_cons]
    exact h.last
  · exact List.isChain_cons_cons.mpr ⟨hhang, h.hang⟩
  · rw [List.length_cons, h.length]

theorem Tree.climb (h : Tree adj root start parents) {n fuel : Nat} {x : α} {p : Parent α L}
    (hx : parents.lookup x = some p) (hat : AtDistance (Leads adj) {root} n x) (hfuel : n < fuel) :
    ∃ rest, climb parents fuel (some x) = some ((x, p) :: rest) ∧
      Climbed adj root start x n ((x, p) :: rest) := by
  induction fuel generalizing n x p with
  | zero => exact absurd hfuel (Nat.not_lt_zero n)
  | succ fuel ih =>
    rcases h.placed x p hx with ⟨rfl, rfl⟩ | ⟨y, q, m, hnode, hy, hhang, haty, hatx, -⟩
    · have hzero : n = 0 := hat.eq atDistance_self
      subst hzero
      refine ⟨[], ?_, ⟨rfl, rfl, List.isChain_singleton _, rfl⟩⟩
      rw [Search.climb, hx, Option.bind_some, h.ends]
      cases fuel <;> rfl
    · have hsucc : n = m + 1 := hat.eq hatx
      subst hsucc
      obtain ⟨rest, hclimb, hclimbed⟩ := ih hy haty (Nat.lt_of_succ_lt_succ hfuel)
      refine ⟨(y, q) :: rest, ?_, hclimbed.cons hhang⟩
      rw [Search.climb, hx, Option.bind_some, hnode, hclimb]
      rfl

end Trees

/-- The search while it goes through the edges that leave the level `n`. -/
structure Growing (adj : α → List (α × L)) (root : α) (start : Parent α L) (n : Nat)
    (s : ParentMap α L × List α) : Prop where
  tree : Tree adj root start s.1
  known : ∀ x, knows s.1 x = true ↔
    (∃ m ≤ n, AtDistance (Leads adj) {root} m x) ∨ x ∈ s.2
  next : ∀ x ∈ s.2, AtDistance (Leads adj) {root} (n + 1) x

/-- The search between two levels. -/
structure Level (adj : α → List (α × L)) (root : α) (start : Parent α L) (n : Nat)
    (parents : ParentMap α L) (front : List α) : Prop where
  tree : Tree adj root start parents
  known : ∀ x, knows parents x = true ↔ ∃ m ≤ n, AtDistance (Leads adj) {root} m x
  front : ∀ x, x ∈ front ↔ AtDistance (Leads adj) {root} n x

section Levels

variable {adj : α → List (α × L)} {root : α} {start : Parent α L} {n : Nat}
variable {other : ParentMap α L} {s : ParentMap α L × List α}

theorem knows_discover {nid x : α} {e : α × L} :
    knows (discover nid e s).1 x = true ↔ x = e.1 ∨ knows s.1 x = true := by
  unfold discover
  by_cases hknown : knows s.1 e.1 = true
  · rw [if_pos hknown]
    refine ⟨.inr, ?_⟩
    rintro (rfl | h)
    · exact hknown
    · exact h
  · rw [if_neg hknown, knows_cons]

theorem Tree.discover (h : Tree adj root start s.1) {nid : α} {e : α × L}
    {earlier later : List (α × L)} (hnid : knows s.1 nid = true)
    (hat : AtDistance (Leads adj) {root} n nid) (hsplit : adj nid = earlier ++ e :: later)
    (hearlier : ∀ e' ∈ earlier, knows s.1 e'.1 = true) (hnew : ¬ knows s.1 e.1 = true)
    (hfar : AtDistance (Leads adj) {root} (n + 1) e.1) :
    Tree adj root start ((e.1, ⟨some nid, e.2⟩) :: s.1) := by
  refine ⟨h.ends, fun x p hx => ?_⟩
  obtain ⟨q, hq⟩ := knows_iff.mp hnid
  by_cases hxe : x = e.1
  · subst hxe
    rw [List.lookup_cons_self, Option.some.injEq] at hx
    subst hx
    refine .inr ⟨nid, q, n, rfl, lookup_new hq hnew, ?_, hat, hfar, ?_⟩
    · exact firstLabel_of_split hsplit fun e' he' heq => hnew (heq ▸ hearlier e' he')
    · obtain ⟨m, hm, hatm⟩ := h.depth hq
      rw [hat.eq hatm, List.length_cons]
      exact Nat.succ_lt_succ hm
  · rw [List.lookup_cons, beq_eq_false_iff_ne.mpr hxe] at hx
    rcases h.placed x p hx with hroot | ⟨y, q', m, hnode, hy, hhang, haty, hatx, hlen⟩
    · exact .inl hroot
    · exact .inr ⟨y, q', m, hnode, lookup_new hy hnew, hhang, haty, hatx,
        hlen.trans (Nat.lt_succ_self _)⟩

theorem Growing.discover (h : Growing adj root start n s) {nid : α} {e : α × L}
    {earlier later : List (α × L)} (hat : AtDistance (Leads adj) {root} n nid)
    (hsplit : adj nid = earlier ++ e :: later)
    (hearlier : ∀ e' ∈ earlier, knows s.1 e'.1 = true) :
    Growing adj root start n (discover nid e s) := by
  by_cases hknown : knows s.1 e.1 = true
  · rw [Search.discover, if_pos hknown]
    exact h
  · have hleads : Leads adj nid e.1 := ⟨e.2, hsplit ▸ List.mem_append_right _ List.mem_cons_self⟩
    have hfar : AtDistance (Leads adj) {root} (n + 1) e.1 :=
      atDistance_succ_iff.mpr ⟨⟨nid, hat, hleads⟩, fun m hm hnear =>
        hknown ((h.known e.1).mpr (.inl ⟨m, hm, hnear⟩))⟩
    have hnid : knows s.1 nid = true := (h.known nid).mpr (.inl ⟨n, le_rfl, hat⟩)
    rw [Search.discover, if_neg hknown]
    refine ⟨h.tree.discover hnid hat hsplit hearlier hknown hfar, fun x => ?_, fun x hx => ?_⟩
    · rw [knows_cons, h.known, List.mem_append, List.mem_singleton, or_comm, or_assoc]
    · rcases List.mem_append.mp hx with hx | hx
      · exact h.next x hx
      · exact List.mem_singleton.mp hx ▸ hfar

/-- Where a search stands that has come to all of `reached`, or where it met the other. -/
def Grown (adj : α → List (α × L)) (root : α) (start : Parent α L) (n : Nat)
    (other : ParentMap α L) (reached : α → Prop) : Expanded α L → Prop
  | .met node parents => Tree adj root start parents ∧ knows parents node = true ∧
      knows other node = true ∧ ∃ m ≤ n + 1, AtDistance (Leads adj) {root} m node
  | .done parents next => Growing adj root start n (parents, next) ∧
      ∀ x, reached x → knows parents x = true ∧ ¬ knows other x = true

theorem expandNode_grown {nid : α} {earlier rest : List (α × L)} {reached : α → Prop}
    (h : Growing adj root start n s) (hat : AtDistance (Leads adj) {root} n nid)
    (hsplit : adj nid = earlier ++ rest)
    (hearlier : ∀ e ∈ earlier, knows s.1 e.1 = true ∧ ¬ knows other e.1 = true)
    (hreached : ∀ x, reached x → knows s.1 x = true ∧ ¬ knows other x = true) :
    Grown adj root start n other (fun x => Leads adj nid x ∨ reached x)
      (expandNode other nid rest s) := by
  induction rest generalizing earlier s with
  | nil =>
    refine ⟨h, fun x hx => ?_⟩
    rcases hx with ⟨label, hmem⟩ | hx
    · rw [hsplit, List.append_nil] at hmem
      exact hearlier _ hmem
    · exact hreached x hx
  | cons e rest ih =>
    have hgrowing := h.discover hat hsplit fun e' he' => (hearlier e' he').1
    have hself : knows (Search.discover nid e s).1 e.1 = true := knows_discover.mpr (.inl rfl)
    have hkept {x : α} (hx : knows s.1 x = true) : knows (Search.discover nid e s).1 x = true :=
      knows_discover.mpr (.inr hx)
    unfold expandNode
    by_cases hmeet : knows other e.1 = true
    · simp only [hmeet, if_true]
      refine ⟨hgrowing.tree, hself, hmeet, ?_⟩
      rcases (hgrowing.known e.1).mp hself with ⟨m, hm, hnear⟩ | hnext
      · exact ⟨m, hm.trans n.le_succ, hnear⟩
      · exact ⟨n + 1, le_rfl, hgrowing.next _ hnext⟩
    · simp only [hmeet, Bool.false_eq_true, if_false]
      have hsplit' : adj nid = (earlier ++ [e]) ++ rest := by
        rw [hsplit, List.append_assoc, List.singleton_append]
      refine ih hgrowing hsplit' ?_ ?_
      · intro e' he'
        rcases List.mem_append.mp he' with he' | he'
        · exact ⟨hkept (hearlier e' he').1, (hearlier e' he').2⟩
        · rw [List.mem_singleton.mp he']
          exact ⟨hself, hmeet⟩
      · exact fun x hx => ⟨hkept (hreached x hx).1, (hreached x hx).2⟩

theorem expandFront_grown {front : List α} {reached : α → Prop} (h : Growing adj root start n s)
    (hfront : ∀ x ∈ front, AtDistance (Leads adj) {root} n x)
    (hreached : ∀ x, reached x → knows s.1 x = true ∧ ¬ knows other x = true) :
    Grown adj root start n other (fun x => (∃ y ∈ front, Leads adj y x) ∨ reached x)
      (expandFront adj other front s) := by
  induction front generalizing s reached with
  | nil =>
    refine ⟨h, fun x hx => ?_⟩
    rcases hx with ⟨y, hy, -⟩ | hx
    · cases hy
    · exact hreached x hx
  | cons nid front ih =>
    have hsplit : adj nid = [] ++ adj nid := rfl
    have hnode := expandNode_grown h (hfront nid List.mem_cons_self) hsplit
      (fun e he => absurd he List.not_mem_nil) hreached
    unfold expandFront
    cases hrun : expandNode other nid (adj nid) s with
    | met node parents =>
      rw [hrun] at hnode
      exact hnode
    | done parents next =>
      rw [hrun] at hnode
      obtain ⟨hgrowing, hall⟩ := hnode
      have hrest := ih hgrowing (fun x hx => hfront x (List.mem_cons_of_mem _ hx)) hall
      have hreach : (fun x => (∃ y ∈ nid :: front, Leads adj y x) ∨ reached x) =
          fun x => (∃ y ∈ front, Leads adj y x) ∨ Leads adj nid x ∨ reached x := by
        funext x
        rw [eq_iff_iff, or_left_comm, ← or_assoc, List.exists_mem_cons_iff]
      rw [hreach]
      exact hrest

theorem Level.single (hend : start.node = none) :
    Level adj root start 0 [(root, start)] [root] := by
  refine ⟨Tree.single hend, fun x => ?_, fun x => ?_⟩
  · rw [knows_cons]
    constructor
    · rintro (rfl | h)
      · exact ⟨0, le_rfl, atDistance_self⟩
      · cases h
    · rintro ⟨m, hm, hat⟩
      rw [Nat.le_zero.mp hm] at hat
      exact .inl (Set.mem_singleton_iff.mp (atDistance_zero_iff.mp hat))
  · rw [atDistance_zero_iff, List.mem_singleton, Set.mem_singleton_iff]

variable {parents : ParentMap α L} {front : List α}

theorem Level.growing (h : Level adj root start n parents front) :
    Growing adj root start n (parents, []) :=
  ⟨h.tree, fun x => by rw [h.known, or_iff_left List.not_mem_nil],
    fun _ hx => absurd hx List.not_mem_nil⟩

theorem Level.grown (h : Level adj root start n parents front) :
    Grown adj root start n other (fun x => (∃ y ∈ front, Leads adj y x) ∨ False)
      (expandFront adj other front (parents, [])) :=
  expandFront_grown h.growing (fun x hx => (h.front x).mp hx) fun _ hx => hx.elim

/-- A search that meets no other goes on to the next level and still meets none. -/
theorem Level.next (h : Level adj root start n parents front)
    (hapart : ∀ x, knows parents x = true → ¬ knows other x = true)
    {parents' : ParentMap α L} {next : List α}
    (hrun : expandFront adj other front (parents, []) = .done parents' next) :
    Level adj root start (n + 1) parents' next ∧
      ∀ x, knows parents' x = true → ¬ knows other x = true := by
  have hgrown := @Level.grown _ _ _ _ _ _ _ other _ _ h
  rw [hrun] at hgrown
  obtain ⟨hgrowing, hall⟩ := hgrown
  have hfar {x : α} (hx : AtDistance (Leads adj) {root} (n + 1) x) :
      knows parents' x = true ∧ ¬ knows other x = true := by
    obtain ⟨⟨y, hy, hleads⟩, -⟩ := atDistance_succ_iff.mp hx
    exact hall x (.inl ⟨y, (h.front y).mpr hy, hleads⟩)
  have hknown (x : α) : knows parents' x = true ↔
      ∃ m ≤ n + 1, AtDistance (Leads adj) {root} m x := by
    constructor
    · intro hx
      rcases (hgrowing.known x).mp hx with ⟨m, hm, hat⟩ | hx
      · exact ⟨m, hm.trans n.le_succ, hat⟩
      · exact ⟨n + 1, le_rfl, hgrowing.next x hx⟩
    · rintro ⟨m, hm, hat⟩
      rcases Nat.le_succ_iff.mp hm with hm | rfl
      · exact (hgrowing.known x).mpr (.inl ⟨m, hm, hat⟩)
      · exact (hfar hat).1
  refine ⟨⟨hgrowing.tree, hknown, fun x => ⟨hgrowing.next x, fun hat => ?_⟩⟩, fun x hx => ?_⟩
  · rcases (hgrowing.known x).mp (hfar hat).1 with ⟨m, hm, hnear⟩ | hx
    · have heq := hat.eq hnear
      omega
    · exact hx
  · obtain ⟨m, hm, hat⟩ := (hknown x).mp hx
    rcases Nat.le_succ_iff.mp hm with hm | rfl
    · exact hapart x ((h.known x).mpr ⟨m, hm, hat⟩)
    · exact (hfar hat).2

end Levels

end RemyCC.Search
