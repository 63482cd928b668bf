import RemyCC.Retrieval.Agreement
import RemyCC.Retrieval.Ledger

/-!
# What a written summary is charged to

The file of a symbol is cut from the reference of the symbol at its last
separator, so a change of a symbol is counted at its own file where the name
holds no separator. The versions of a node are numbered without a gap.
-/

namespace RemyCC.Retrieval

open Relational Text Index Python

section References

/-- A name whose reference is split behind the path. -/
def Simple (name : String) : Prop :=
  contains name "::" = false ∧ [':'].isPrefixOf name.toList = false

instance (name : String) : Decidable (Simple name) := inferInstanceAs (Decidable (_ ∧ _))

theorem beforeLast_append {sep text before : List Char} (lead : List Char)
    (h : beforeLast sep text = some before) :
    beforeLast sep (lead ++ text) = some (lead ++ before) := by
  induction lead with
  | nil => exact h
  | cons c lead ih => rw [List.cons_append, beforeLast, ih, List.cons_append]

theorem beforeLast_eq_none_iff {sep text : List Char} :
    beforeLast sep text = none ↔ beforeChars sep text = none := by
  induction text with
  | nil => exact Iff.rfl
  | cons c text ih =>
    rw [beforeLast, beforeChars]
    cases hrest : beforeLast sep text with
    | none => simp [ih.mp hrest]
    | some before =>
      have hfound : beforeChars sep text ≠ none := fun h => by
        rw [ih.mpr h] at hrest
        cases hrest
      refine iff_of_false (Option.some_ne_none _) ?_
      split
      · exact Option.some_ne_none _
      · simpa using hfound

theorem simple_iff {name : String} :
    Simple name ↔ beforeLast [':', ':'] (':' :: name.toList) = none := by
  have hsep : "::".toList = [':', ':'] := rfl
  rw [beforeLast_eq_none_iff, beforeChars, Simple, contains, hsep, List.isPrefixOf, beq_self_eq_true,
    Bool.true_and]
  cases [':'].isPrefixOf name.toList <;> cases beforeChars [':', ':'] name.toList <;> simp

theorem symbolRef_toList (path name : String) :
    (symbolRef path name).toList = path.toList ++ ':' :: ':' :: name.toList := by
  simp [symbolRef, List.append_assoc]

theorem ownerOf_symbolRef {path name : String} :
    ownerOf (symbolRef path name) = some path ↔ Simple name := by
  have hsep : "::".toList = [':', ':'] := rfl
  rw [simple_iff, ownerOf, hsep, symbolRef_toList]
  cases hname : beforeLast [':', ':'] (':' :: name.toList) with
  | none =>
    have hcut : beforeLast [':', ':'] (':' :: ':' :: name.toList) = some [] := by
      rw [beforeLast, hname]
      rfl
    rw [beforeLast_append _ hcut, List.append_nil, Option.map_some, String.ofList_toList]
    exact iff_of_true rfl rfl
  | some before =>
    have hcut : beforeLast [':', ':'] (':' :: ':' :: name.toList) = some (':' :: before) := by
      rw [beforeLast, hname]
    rw [beforeLast_append _ hcut, Option.map_some]
    refine iff_of_false (fun h => ?_) (Option.some_ne_none _)
    have htext := congrArg String.toList (Option.some.inj h)
    rw [String.toList_ofList] at htext
    exact absurd htext (by simp)

end References

theorem resolveParent_ne {d : Database} {child parent : Node}
    (h : resolveParent d child = some parent) : parent.kind ≠ child.kind := by
  obtain ⟨kind, ref⟩ := child
  cases kind with
  | symbol =>
    obtain ⟨_, -, rfl⟩ := Option.map_eq_some_iff.mp h
    exact NodeKind.noConfusion
  | file =>
    obtain ⟨_, -, rfl⟩ := Option.map_eq_some_iff.mp h
    exact NodeKind.noConfusion
  | cluster => cases h

namespace Ledger

variable {g : Digests} {limits : Limits} {reader : PayloadReader} {l l' : Ledger} {c : WriteCall}
  {version : Nat}

section Counters

/-- The counter of a node goes up by one and no other counter changes. -/
structure Charged (l l' : Ledger) (node : Node) : Prop where
  counted : l'.childChangeCount node = l.childChangeCount node + 1
  others : ∀ n, n ≠ node → l'.counter? n = l.counter? n

theorem counter?_bump (node n : Node) : (l.bump node).counter? n =
    if n = node then
      some ⟨node, l.childChangeCount node + 1,
        ((l.counter? node).map NodeChangeCounter.leafDescendantCount).getD 0⟩
    else l.counter? n := by
  unfold counter? bump childChangeCount counter?
  dsimp only
  rw [Keyed.find?_update, Keyed.find?_insertOrIgnore]
  cases hfind : l.counters.rows.find? (fun r => decide (r.node = n)) with
  | none =>
    by_cases hn : n = node
    · subst hn
      simp [hfind]
    · simp [hn, Ne.symm hn]
  | some r =>
    have hr : r.node = n := by simpa using List.find?_some hfind
    by_cases hn : n = node
    · subst hn
      simp [hfind, hr]
    · simp [hr, hn]

theorem charged_bump (node : Node) : Charged l (l.bump node) node where
  counted := by
    rw [childChangeCount, counter?_bump, if_pos rfl]
    rfl
  others n hn := by rw [counter?_bump, if_neg hn]

/-- A change counted at one node is not counted at another, nor is it none. -/
theorem Charged.node_eq {node other : Node} (h : Charged l l' node)
    (hother : Charged l l' other) : node = other := by
  by_contra hne
  have hsame : l'.childChangeCount node = l.childChangeCount node := by
    rw [childChangeCount, hother.others node hne, childChangeCount]
  have hcounted := h.counted
  omega

theorem Charged.counters_ne {node : Node} (h : Charged l l' node) :
    l'.counters ≠ l.counters := by
  intro heq
  have hcounted := h.counted
  unfold childChangeCount counter? at hcounted
  rw [heq] at hcounted
  omega

end Counters

section Reading

theorem rowsOf_eq (hsummaries : l'.summaries = (l.insertVersion c).summaries) {node : Node}
    (h : node ≠ c.node) : l'.rowsOf node = l.rowsOf node := by
  rw [rowsOf, hsummaries, insertVersion, Numbered.insert_rows, List.filter_append,
    List.filter_cons_of_neg (by simpa using Ne.symm h), List.filter_nil, List.append_nil]
  rfl

theorem refreshNode_keeps {node : Node} (h : l.refreshNode g limits node = some l') :
    l'.index = l.index ∧ l'.summaries = l.summaries ∧ l'.counters = l.counters := by
  unfold refreshNode at h
  split at h
  · cases h
    exact ⟨rfl, rfl, rfl⟩
  · obtain ⟨_, -, h⟩ := Option.bind_eq_some_iff.mp h
    obtain ⟨_, -, h⟩ := Option.bind_eq_some_iff.mp h
    cases h
    exact ⟨rfl, rfl, rfl⟩

/-- A node reads as current after a version of another node has been written as before. -/
theorem selectCurrent_congr (hsummaries : l'.summaries = (l.insertVersion c).summaries)
    {node : Node} (h : node ≠ c.node) :
    l'.selectCurrent limits node = l.selectCurrent limits node := by
  rw [selectCurrent, rowsOf_eq hsummaries h, selectCurrent]

end Reading

section Spec

/-- The payload is not the one of the version before; a version without a payload has none
that a new one could equal. -/
def Differs (reader : PayloadReader) : Option String → Option String → Prop
  | some new, some old => new ≠ old ∧ ∀ payload previous, reader.loads new = .ok payload →
      reader.loads old = .ok previous → reader.equal payload previous = false
  | _, _ => True

theorem differs_iff {new old : Option String} {same : Bool}
    (h : matchesPrevious reader new old = some same) : Differs reader new old ↔ same = false := by
  unfold matchesPrevious at h
  split at h
  · next new old =>
    split at h
    · next heq =>
      cases h
      exact iff_of_false (fun hdiffers => hdiffers.1 heq) Bool.noConfusion
    · next hne =>
      cases hnew : reader.loads new with
      | error e =>
        cases e with
        | decode =>
          rw [hnew] at h
          cases h
          exact iff_of_true ⟨hne, fun _ _ hp _ => by cases hnew.symm.trans hp⟩ rfl
        | raised =>
          rw [hnew] at h
          cases h
      | ok payload =>
        rw [hnew] at h
        cases hold : reader.loads old with
        | error e =>
          cases e with
          | decode =>
            rw [hold] at h
            cases h
            exact iff_of_true ⟨hne, fun _ _ _ hp => by cases hold.symm.trans hp⟩ rfl
          | raised =>
            rw [hold] at h
            cases h
        | ok previous =>
          rw [hold] at h
          cases h
          constructor
          · exact fun hdiffers => hdiffers.2 _ _ hnew hold
          · rintro hsame
            refine ⟨hne, fun _ _ hp hq => ?_⟩
            cases hnew.symm.trans hp
            cases hold.symm.trans hq
            exact hsame
  · next hnone =>
    cases h
    refine iff_of_true ?_ rfl
    unfold Differs
    split
    · exact absurd rfl (hnone _ _ rfl)
    · trivial

/-- A write that its parent has to hear of. -/
structure Due (reader : PayloadReader) (l : Ledger) (c : WriteCall) : Prop where
  available : c.status.available = true
  differs : Differs reader c.payload ((l.newest? c.node).bind (·.summary))

end Spec

section Step

/-- The node at whose counter a write is counted, if there is one. -/
def Counts (limits : Limits) (reader : PayloadReader) (l : Ledger) (c : WriteCall)
    (parent : Node) : Prop :=
  Due reader l c ∧ resolveParent l.index c.node = some parent ∧ l.hasCurrent limits parent = true

theorem bumpParent_cases (hindex : l'.index = l.index)
    (hsummaries : l'.summaries = (l.insertVersion c).summaries) {written : Ledger}
    (h : l'.bumpParent limits c.node = some written) :
    (written = l' ∧ ∀ parent, resolveParent l.index c.node = some parent →
        l.hasCurrent limits parent = false) ∨
      ∃ parent, written = l'.bump parent ∧ resolveParent l.index c.node = some parent ∧
        l.hasCurrent limits parent = true := by
  unfold bumpParent at h
  rw [hindex] at h
  split at h
  · next hnone =>
    cases h
    refine .inl ⟨rfl, fun parent hparent => ?_⟩
    cases hnone.symm.trans hparent
  · next parent hparent =>
    obtain ⟨current, hcurrent, h⟩ := Option.bind_eq_some_iff.mp h
    have hkind := resolveParent_ne hparent
    rw [selectCurrent_congr hsummaries fun heq => hkind (congrArg Node.kind heq)] at hcurrent
    have hhas : l.hasCurrent limits parent = current.id.isSome := by
      rw [hasCurrent, hcurrent, Option.bind_some]
    cases hid : current.id.isSome with
    | true =>
      rw [hid] at h
      cases h
      exact .inr ⟨parent, rfl, hparent, hhas.trans hid⟩
    | false =>
      rw [hid] at h
      cases h
      refine .inl ⟨rfl, fun other hother => ?_⟩
      cases hparent.symm.trans hother
      exact hhas.trans hid

theorem countChange_cases (hindex : l'.index = l.index)
    (hsummaries : l'.summaries = (l.insertVersion c).summaries) {written : Ledger}
    (h : l'.countChange limits reader ((l.newest? c.node).bind (·.summary)) c = some written) :
    (written = l' ∧ ∀ parent, ¬Counts limits reader l c parent) ∨
      ∃ parent, written = l'.bump parent ∧ Counts limits reader l c parent := by
  unfold countChange at h
  cases havailable : c.status.available with
  | false =>
    rw [havailable] at h
    cases h
    refine .inl ⟨rfl, fun parent hcounts => ?_⟩
    cases havailable.symm.trans hcounts.1.available
  | true =>
    rw [havailable] at h
    obtain ⟨same, hsame, h⟩ := Option.bind_eq_some_iff.mp h
    have hdiffers := differs_iff hsame
    cases same with
    | true =>
      cases h
      exact .inl ⟨rfl, fun parent hcounts => Bool.noConfusion (hdiffers.mp hcounts.1.differs)⟩
    | false =>
      have hdue : Due reader l c := ⟨havailable, hdiffers.mpr rfl⟩
      obtain ⟨rfl, hnone⟩ | ⟨parent, rfl, hparent, hcurrent⟩ := bumpParent_cases hindex hsummaries h
      · refine .inl ⟨rfl, fun parent hcounts => ?_⟩
        cases (hnone parent hcounts.2.1).symm.trans hcounts.2.2
      · exact .inr ⟨parent, rfl, hdue, hparent, hcurrent⟩

/-- What a write does: a version is added, and one counter goes up or none. -/
theorem writeSummaryVersion_cases
    (h : l.writeSummaryVersion g limits reader c = some (l', version)) :
    version = l.topVersion c.node + 1 ∧ l'.index = l.index ∧
      l'.summaries = (l.insertVersion c).summaries ∧
      ((l'.counters = l.counters ∧ ∀ parent, ¬Counts limits reader l c parent) ∨
        ∃ parent, l'.counters = (l.bump parent).counters ∧ Counts limits reader l c parent) := by
  unfold writeSummaryVersion at h
  obtain ⟨refreshed, hrefreshed, h⟩ := Option.bind_eq_some_iff.mp h
  obtain ⟨written, hwritten, h⟩ := Option.bind_eq_some_iff.mp h
  obtain ⟨hindex, hsummaries, hcounters⟩ := refreshNode_keeps hrefreshed
  cases h
  obtain ⟨rfl, hnone⟩ | ⟨parent, rfl, hcounts⟩ :=
    countChange_cases (l := l) hindex hsummaries hwritten
  · exact ⟨rfl, hindex, hsummaries, .inl ⟨hcounters, hnone⟩⟩
  · refine ⟨rfl, hindex, hsummaries, .inr ⟨parent, ?_, hcounts⟩⟩
    unfold bump
    dsimp only
    rw [hcounters]
    rfl

end Step

section Parents

/-- A write is counted at a node that has a current summary, where it has something new to
say, and nowhere else. -/
structure ChargedTo (limits : Limits) (reader : PayloadReader) (l : Ledger) (c : WriteCall)
    (l' : Ledger) (parent : Node) : Prop where
  due : Due reader l c → l.hasCurrent limits parent = true → Charged l l' parent
  silent : ¬(Due reader l c ∧ l.hasCurrent limits parent = true) → l'.counters = l.counters

theorem Charged.congr {node : Node} {l'' : Ledger} (h : Charged l l' node)
    (hcounters : l''.counters = l'.counters) : Charged l l'' node := by
  have hcounter (n : Node) : l''.counter? n = l'.counter? n := by
    rw [counter?, hcounters, counter?]
  constructor
  · rw [childChangeCount, hcounter, ← h.counted, childChangeCount]
  · exact fun n hn => (hcounter n).trans (h.others n hn)

theorem chargedTo_iff (h : l.writeSummaryVersion g limits reader c = some (l', version))
    (parent : Node) : ChargedTo limits reader l c l' parent ↔
      (Due reader l c → resolveParent l.index c.node = some parent ∨
        l.hasCurrent limits parent = false ∧ ∀ other, resolveParent l.index c.node = some other →
          l.hasCurrent limits other = false) := by
  obtain ⟨-, -, -, hcases⟩ := writeSummaryVersion_cases h
  constructor
  · intro hcharged hdue
    obtain ⟨hcounters, hnone⟩ | ⟨other, hcounters, hcounts⟩ := hcases
    · have hcurrent : l.hasCurrent limits parent = false := by
        refine Bool.eq_false_iff.mpr fun hcurrent => ?_
        exact (hcharged.due hdue hcurrent).counters_ne hcounters
      refine .inr ⟨hcurrent, fun other hother => Bool.eq_false_iff.mpr fun hhas => ?_⟩
      exact hnone other ⟨hdue, hother, hhas⟩
    · have hbumped : Charged l l' other := (charged_bump other).congr hcounters
      cases hcurrent : l.hasCurrent limits parent with
      | true =>
        cases (hcharged.due hdue hcurrent).node_eq hbumped
        exact .inl hcounts.2.1
      | false =>
        refine absurd (hcharged.silent fun hboth => ?_) hbumped.counters_ne
        cases hcurrent.symm.trans hboth.2
  · intro hfits
    obtain ⟨hcounters, hnone⟩ | ⟨other, hcounters, hcounts⟩ := hcases
    · refine ⟨fun hdue hcurrent => ?_, fun _ => hcounters⟩
      rcases hfits hdue with hparent | ⟨hidle, -⟩
      · exact absurd ⟨hdue, hparent, hcurrent⟩ (hnone parent)
      · cases hidle.symm.trans hcurrent
    · have hparent : parent = other := by
        rcases hfits hcounts.1 with hparent | ⟨-, hidle⟩
        · exact Option.some.inj (hparent.symm.trans hcounts.2.1)
        · cases (hidle other hcounts.2.1).symm.trans hcounts.2.2
      subst hparent
      refine ⟨fun _ _ => (charged_bump parent).congr hcounters, fun hnot => ?_⟩
      exact absurd ⟨hcounts.1, hcounts.2.2⟩ hnot

/-- Every write is charged to the parent of its node: a symbol's to its file, a file's to its
cluster, and any other to nobody. -/
structure Accounts (limits : Limits) (reader : PayloadReader) (l : Ledger) (c : WriteCall)
    (l' : Ledger) : Prop where
  symbol : ∀ s ∈ l.index.symbols.rows, c.node = symbolNode s.filePath s.name →
    ChargedTo limits reader l c l' (fileNode s.filePath)
  file : ∀ k ∈ l.index.clusters.rows, ∀ m ∈ l.index.members, m.clusterId = k.id →
    c.node = fileNode m.filePath → ChargedTo limits reader l c l' (clusterNode k.name)
  unclustered : ∀ path, c.node = fileNode path → clustersOf l.index path = [] →
    l'.counters = l.counters
  cluster : ∀ name, c.node = clusterNode name → l'.counters = l.counters

/-- What is asked of a write with something new to say: its symbol has a simple name, or its
file no other cluster, or no summary that could be concerned is current. -/
structure Fits (limits : Limits) (reader : PayloadReader) (l : Ledger) (c : WriteCall) :
    Prop where
  symbol : ∀ s ∈ l.index.symbols.rows, c.node = symbolNode s.filePath s.name → Due reader l c →
    Simple s.name ∨ l.hasCurrent limits (fileNode s.filePath) = false ∧
      ∀ owner, ownerOf (symbolRef s.filePath s.name) = some owner →
        l.hasCurrent limits (fileNode owner) = false
  file : ∀ k ∈ l.index.clusters.rows, ∀ m ∈ l.index.members, m.clusterId = k.id →
    c.node = fileNode m.filePath → Due reader l c →
    (clustersOf l.index m.filePath).head?.map ClusterRow.name = some k.name ∨
      l.hasCurrent limits (clusterNode k.name) = false ∧
        ∀ other, (clustersOf l.index m.filePath).head? = some other →
          l.hasCurrent limits (clusterNode other.name) = false

theorem resolveParent_symbol (d : Database) (path name : String) :
    resolveParent d (symbolNode path name) = (ownerOf (symbolRef path name)).map fileNode := rfl

theorem resolveParent_file (d : Database) (path : String) :
    resolveParent d (fileNode path) = ((clustersOf d path).head?.map ClusterRow.name).map
      clusterNode := by
  rw [Option.map_map]
  rfl

theorem map_eq_some_of_injective {α β : Type} {f : α → β} (hf : Function.Injective f)
    {o : Option α} {a : α} : o.map f = some (f a) ↔ o = some a := by
  rw [← Option.map_some, (Option.map_injective hf).eq_iff]

theorem fileNode_injective : Function.Injective fileNode := fun _ _ h => congrArg Node.ref h

theorem clusterNode_injective : Function.Injective clusterNode := fun _ _ h => congrArg Node.ref h

theorem accounts_iff (h : l.writeSummaryVersion g limits reader c = some (l', version)) :
    Accounts limits reader l c l' ↔ Fits limits reader l c := by
  have hsilent : resolveParent l.index c.node = none → l'.counters = l.counters := by
    intro hparent
    obtain ⟨-, -, -, ⟨hcounters, -⟩ | ⟨parent, -, hcounts⟩⟩ := writeSummaryVersion_cases h
    · exact hcounters
    · cases hparent.symm.trans hcounts.2.1
  have hsymbol (path name : String) (hnode : c.node = symbolNode path name) :
      ChargedTo limits reader l c l' (fileNode path) ↔ (Due reader l c → Simple name ∨
        l.hasCurrent limits (fileNode path) = false ∧
          ∀ owner, ownerOf (symbolRef path name) = some owner →
            l.hasCurrent limits (fileNode owner) = false) := by
    rw [chargedTo_iff h, hnode, resolveParent_symbol, map_eq_some_of_injective fileNode_injective,
      ownerOf_symbolRef]
    simp only [Option.map_eq_some_iff, forall_exists_index, and_imp, forall_apply_eq_imp_iff₂]
  have hfile (path name : String) (hnode : c.node = fileNode path) :
      ChargedTo limits reader l c l' (clusterNode name) ↔ (Due reader l c →
        (clustersOf l.index path).head?.map ClusterRow.name = some name ∨
          l.hasCurrent limits (clusterNode name) = false ∧
            ∀ other, (clustersOf l.index path).head? = some other →
              l.hasCurrent limits (clusterNode other.name) = false) := by
    rw [chargedTo_iff h, hnode, resolveParent_file, map_eq_some_of_injective clusterNode_injective]
    simp only [Option.map_map, Option.map_eq_some_iff, forall_exists_index, and_imp,
      forall_apply_eq_imp_iff₂, Function.comp_apply]
  constructor
  · intro haccounts
    exact ⟨fun s hs hnode => (hsymbol _ _ hnode).mp (haccounts.symbol s hs hnode),
      fun k hk m hm hid hnode => (hfile _ _ hnode).mp (haccounts.file k hk m hm hid hnode)⟩
  · intro hfits
    refine ⟨fun s hs hnode => (hsymbol _ _ hnode).mpr (hfits.symbol s hs hnode),
      fun k hk m hm hid hnode => (hfile _ _ hnode).mpr (hfits.file k hk m hm hid hnode), ?_, ?_⟩
    · intro path hnode hclusters
      refine hsilent ?_
      rw [hnode, resolveParent_file, hclusters]
      rfl
    · intro name hnode
      refine hsilent ?_
      rw [hnode]
      rfl

end Parents

section Versions

def versions (l : Ledger) (node : Node) : List Nat := (l.rowsOf node).map SummaryVersion.version

/-- The newest version is the greatest number, or nought where there is no version. -/
theorem topVersion_spec (l : Ledger) (node : Node) :
    (∀ v ∈ l.versions node, v ≤ l.topVersion node) ∧
      (l.versions node ≠ [] → l.topVersion node ∈ l.versions node) := by
  have hsort : (versionsOf node l.summaries.rows).map SummaryVersion.row =
      newestFirst ((l.rowsOf node).map SummaryVersion.row) :=
    map_orderBy_comp SummaryVersion.row (fun a b => compare b.version a.version) _
  have hpairwise := newestFirst_pairwise ((l.rowsOf node).map SummaryVersion.row)
  have hmem (r : SummaryVersion) : r ∈ versionsOf node l.summaries.rows ↔ r ∈ l.rowsOf node :=
    mem_orderBy
  rw [← hsort, List.pairwise_map] at hpairwise
  unfold topVersion newest? versions
  cases hrows : versionsOf node l.summaries.rows with
  | nil =>
    have hnone : l.rowsOf node = [] := List.eq_nil_iff_forall_not_mem.mpr fun r hr => by
      rw [← hmem, hrows] at hr
      cases hr
    simp [hnone]
  | cons r rows =>
    rw [hrows] at hpairwise hmem
    constructor
    · intro v hv
      obtain ⟨s, hs, rfl⟩ := List.mem_map.mp hv
      rcases List.mem_cons.mp ((hmem s).mpr hs) with rfl | hs
      · exact le_refl _
      · exact (List.pairwise_cons.mp hpairwise).1 s hs
    · exact fun _ => List.mem_map_of_mem ((hmem r).mp List.mem_cons_self)

theorem versions_eq (hsummaries : l'.summaries = (l.insertVersion c).summaries) (node : Node) :
    l'.versions node = l.versions node ++ if c.node = node then [l.topVersion node + 1] else [] := by
  rw [versions, rowsOf, hsummaries, insertVersion, Numbered.insert_rows, List.filter_append,
    List.map_append]
  refine congrArg _ ?_
  by_cases hnode : c.node = node
  · subst hnode
    simp
  · simp [hnode]

theorem topVersion_eq (hsummaries : l'.summaries = (l.insertVersion c).summaries) (node : Node) :
    l'.topVersion node = l.topVersion node + if c.node = node then 1 else 0 := by
  have hversions := versions_eq hsummaries node
  obtain ⟨hle, -⟩ := topVersion_spec l node
  obtain ⟨hle', hmem'⟩ := topVersion_spec l' node
  split at hversions
  · next hnode =>
    rw [if_pos hnode]
    have hnew := hle' (l.topVersion node + 1) (by simp [hversions])
    have htop := hmem' (by simp [hversions])
    rw [hversions, List.mem_append, List.mem_singleton] at htop
    rcases htop with htop | htop
    · have hold := hle _ htop
      omega
    · exact htop
  · next hnode =>
    have hnewest : l'.newest? node = l.newest? node :=
      congrArg (fun rows : List SummaryVersion =>
        (orderBy (fun a b : SummaryVersion => compare b.version a.version) rows).head?)
        (rowsOf_eq hsummaries (Ne.symm hnode))
    rw [if_neg hnode, Nat.add_zero, topVersion, hnewest, topVersion]

/-- How many of the calls write a version of the node. -/
def written (g : Digests) (limits : Limits) (reader : PayloadReader) (node : Node) :
    Ledger → List WriteCall → Nat
  | _, [] => 0
  | l, c :: calls =>
    (if c.node = node ∧ (l.writeSummaryVersion g limits reader c).isSome then 1 else 0) +
      written g limits reader node (l.attempt g limits reader c) calls

theorem versions_run (node : Node) (calls : List WriteCall) :
    (run (attempt g limits reader) l calls).versions node = l.versions node ++
      List.range' (l.topVersion node + 1) (written g limits reader node l calls) := by
  induction calls generalizing l with
  | nil => simp [written]
  | cons c calls ih =>
    rw [run_cons, ih, written]
    cases hwrite : l.writeSummaryVersion g limits reader c with
    | none => simp [attempt, hwrite]
    | some result =>
      obtain ⟨l', version⟩ := result
      obtain ⟨-, -, hsummaries, -⟩ := writeSummaryVersion_cases hwrite
      have hattempt : l.attempt g limits reader c = l' := by rw [attempt, hwrite]; rfl
      rw [hattempt, versions_eq hsummaries, topVersion_eq hsummaries]
      by_cases hnode : c.node = node
      · simp [hnode, Nat.add_comm 1, List.range'_succ]
      · simp [hnode]

end Versions

section Runs

variable (g limits reader)

def Accounted (l : Ledger) (c : WriteCall) : Prop :=
  ∀ l' version, l.writeSummaryVersion g limits reader c = some (l', version) →
    Accounts limits reader l c l'

def Fitting (l : Ledger) (c : WriteCall) : Prop :=
  (l.writeSummaryVersion g limits reader c).isSome → Fits limits reader l c

theorem accounted_iff (l : Ledger) (c : WriteCall) :
    Accounted g limits reader l c ↔ Fitting g limits reader l c := by
  unfold Accounted Fitting
  cases hwrite : l.writeSummaryVersion g limits reader c with
  | none => simp
  | some result =>
    obtain ⟨l', version⟩ := result
    rw [← accounts_iff hwrite]
    simp

/-- In every run each write is charged to the right parent, and the versions of each node
are numbered on from the last, if and only if each write fits. -/
theorem writes_charged_iff (l : Ledger) (calls : List WriteCall) :
    (Meets (attempt g limits reader) (Accounted g limits reader) l calls ∧
      ∀ node, (run (attempt g limits reader) l calls).versions node = l.versions node ++
        List.range' (l.topVersion node + 1) (written g limits reader node l calls)) ↔
      Meets (attempt g limits reader) (Fitting g limits reader) l calls := by
  have hsame : Accounted g limits reader = Fitting g limits reader :=
    funext fun l => funext fun c => propext (accounted_iff g limits reader l c)
  rw [hsame]
  exact and_iff_left fun node => versions_run node calls

end Runs

end Ledger

section Example

def plainFile (path : String) : FileRow :=
  ⟨path, "1", none, none, none, "", none, ⟨"", "", ""⟩⟩

def plainSymbol (path name : String) : SymbolRow :=
  ⟨path, name, name, "function", "", none, none, none, none, name⟩

/-- A file with one function in a namespace. -/
def spaceIndex : Database :=
  { Database.empty with
    files := ⟨[plainFile "a.cpp"], List.nodup_singleton _⟩
    symbols := ⟨[plainSymbol "a.cpp" "ns::run"], List.nodup_singleton _⟩ }

def spaceLedger : Ledger := ⟨spaceIndex, .empty, .empty, .empty⟩

def plainReader : PayloadReader := ⟨String, .ok, fun a b => a == b⟩

def bareDigests : Digests := ⟨⟨fun _ segment => segment, id⟩, id⟩

def fileCall : WriteCall :=
  ⟨fileNode "a.cpp", some "\x7b\"short\": \"Runs.\", \"full\": null\x7d", .ok⟩

def symbolCall : WriteCall :=
  ⟨symbolNode "a.cpp" "ns::run", some "\x7b\"short\": \"Runs it.\", \"full\": null\x7d", .ok⟩

/-- The tables when the summary of the symbol comes to be written. -/
def summedLedger : Ledger := spaceLedger.attempt bareDigests interpreter plainReader fileCall

theorem summedLedger_current : summedLedger.hasCurrent interpreter (fileNode "a.cpp") = true := by
  decide +kernel

theorem symbolCall_written :
    (summedLedger.writeSummaryVersion bareDigests interpreter plainReader symbolCall).isSome =
      true := by
  decide +kernel

theorem symbolCall_due : Ledger.Due plainReader summedLedger symbolCall := by
  have hnone : (summedLedger.newest? symbolCall.node).bind (·.summary) = none := by decide +kernel
  refine ⟨rfl, ?_⟩
  rw [hnone]
  trivial

/-- The summary of a function in a namespace is not counted at its file. -/
theorem namespace_uncharged : ¬ ∀ (g : Digests) (limits : Limits) (reader : PayloadReader)
    (l : Ledger) (calls : List WriteCall),
    Meets (Ledger.attempt g limits reader) (Ledger.Accounted g limits reader) l calls ∧
      ∀ node, (run (Ledger.attempt g limits reader) l calls).versions node = l.versions node ++
        List.range' (l.topVersion node + 1) (Ledger.written g limits reader node l calls) := by
  intro h
  obtain ⟨-, haccounted, -⟩ :=
    (h bareDigests interpreter plainReader spaceLedger [fileCall, symbolCall]).1
  have hfits := (Ledger.accounted_iff _ _ _ _ _).mp haccounted symbolCall_written
  rcases hfits.symbol (plainSymbol "a.cpp" "ns::run") (List.mem_singleton_self _) rfl
    symbolCall_due with hsimple | ⟨hidle, -⟩
  · exact absurd hsimple (by decide)
  · exact absurd (summedLedger_current.symm.trans hidle) Bool.noConfusion

end Example

end RemyCC.Retrieval
