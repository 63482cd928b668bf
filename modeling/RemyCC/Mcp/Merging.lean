import RemyCC.Relational.Grouping
import Mathlib.Data.List.Infix

/-!
# Merging the channels of a search

The hits of all channels are merged by file and name into one item for each,
which keeps where it was found. An index from keys to items is kept up along
with the items.
-/

namespace RemyCC.Mcp

open Relational

structure Hit where
  name : String
  filePath : String
  lineno : Option Int
  symbolType : String
  deriving DecidableEq, Repr

namespace Hit

def key (h : Hit) : String × String := (h.filePath, h.name)

end Hit

def channelPriorities : List (String × Int) := [("exact", 0), ("prefix", 1), ("bm25", 2), ("fuzzy", 3)]

/-- A channel that is not listed comes last, with `i64::MAX`. -/
def channelPriority (channel : String) : Int :=
  ((channelPriorities.find? fun c => c.1 == channel).map Prod.snd).getD 9223372036854775807

structure Merged where
  name : String
  filePath : String
  lineno : Option Int
  symbolType : String
  sources : List (String × Int)
  priority : Int
  bestRank : Int
  deriving DecidableEq, Repr

namespace Merged

def key (m : Merged) : String × String := (m.filePath, m.name)

/-- The item of a hit that is the first with its key. -/
def ofHit (priority rank : Int) (h : Hit) : Merged where
  name := h.name
  filePath := h.filePath
  lineno := h.lineno
  symbolType := h.symbolType
  sources := []
  priority := priority
  bestRank := rank

def addSource (channel : String) (rank : Int) (m : Merged) : Merged :=
  { m with sources := m.sources ++ [(channel, rank)] }

@[simp]
theorem key_addSource (channel : String) (rank : Int) (m : Merged) :
    (m.addSource channel rank).key = m.key := rfl

@[simp]
theorem key_ofHit (priority rank : Int) (h : Hit) : (ofHit priority rank h).key = h.key := rfl

end Merged

/-- The index by keys, and the items in the order of their first hits. -/
structure Merging where
  index : String × String → Option Nat
  items : List Merged

namespace Merging

def empty : Merging := ⟨fun _ => none, []⟩

/-- `entry(key).or_insert_with(..)`, with the place of the item. -/
def entry (priority rank : Int) (h : Hit) (m : Merging) : Nat × Merging :=
  match m.index h.key with
  | some i => (i, m)
  | none => (m.items.length,
      { index := fun k => if k = h.key then some m.items.length else m.index k
        items := m.items ++ [Merged.ofHit priority rank h] })

def addHit (channel : String) (priority rank : Int) (h : Hit) (m : Merging) : Merging :=
  let (i, m) := m.entry priority rank h
  { m with items := m.items.modify i (Merged.addSource channel rank) }

/-- The hits of a channel from a rank on. -/
def addRows (channel : String) (priority : Int) : Int → List Hit → Merging → Merging
  | _, [], m => m
  | rank, h :: rows, m => addRows channel priority (rank + 1) rows (m.addHit channel priority rank h)

def addChannel (m : Merging) (result : String × List Hit) : Merging :=
  addRows result.1 (channelPriority result.1) 1 result.2 m

end Merging

section Sorting

variable (toLowercase : String → String)

def mergedOrder : Merged → Merged → Ordering :=
  compareLex (compareOn Merged.priority) (compareLex (compareOn Merged.bestRank)
    (compareLex (compareOn fun m => toLowercase m.name) (compareLex (compareOn Merged.name)
      (compareLex (compareOn Merged.filePath) (compareOn fun m => m.lineno.getD 0)))))

instance : Std.TransCmp (mergedOrder toLowercase) :=
  inferInstanceAs (Std.TransCmp (compareLex (compareOn Merged.priority)
    (compareLex (compareOn Merged.bestRank) (compareLex (compareOn fun m => toLowercase m.name)
      (compareLex (compareOn Merged.name) (compareLex (compareOn Merged.filePath)
        (compareOn fun m => m.lineno.getD 0)))))))

/-- The merged items in order, none of them cut off. -/
def mergedItems (results : List (String × List Hit)) : List Merged :=
  orderBy (mergedOrder toLowercase) (results.foldl Merging.addChannel .empty).items

def mergeCandidates (results : List (String × List Hit)) (limit : Int) : List Merged :=
  (mergedItems toLowercase results).take limit.toNat

end Sorting

/-- A hit with its channel and its rank. -/
structure Occurrence where
  channel : String
  rank : Int
  hit : Hit
  deriving DecidableEq, Repr

namespace Occurrence

def source (o : Occurrence) : String × Int := (o.channel, o.rank)

def priority (o : Occurrence) : Int := channelPriority o.channel

def key (o : Occurrence) : String × String := o.hit.key

end Occurrence

def occurrencesFrom (channel : String) : Int → List Hit → List Occurrence
  | _, [] => []
  | rank, h :: rows => ⟨channel, rank, h⟩ :: occurrencesFrom channel (rank + 1) rows

/-- All hits of all channels, in order. -/
def occurrences (results : List (String × List Hit)) : List Occurrence :=
  results.flatMap fun r => occurrencesFrom r.1 1 r.2

/-- Where a key occurs. -/
def occurrencesOf (key : String × String) (os : List Occurrence) : List Occurrence :=
  os.filter fun o => o.key = key

namespace Merging

def addOccurrence (m : Merging) (o : Occurrence) : Merging :=
  m.addHit o.channel o.priority o.rank o.hit

theorem addRows_eq (channel : String) (rank : Int) (rows : List Hit) (m : Merging) :
    addRows channel (channelPriority channel) rank rows m =
      (occurrencesFrom channel rank rows).foldl addOccurrence m := by
  induction rows generalizing rank m with
  | nil => rfl
  | cons h rows ih =>
    rw [addRows, occurrencesFrom, List.foldl_cons, ih]
    rfl

theorem foldl_addChannel (results : List (String × List Hit)) (m : Merging) :
    results.foldl addChannel m = (occurrences results).foldl addOccurrence m := by
  induction results generalizing m with
  | nil => rfl
  | cons r results ih =>
    have hrest : occurrences (r :: results) = occurrencesFrom r.1 1 r.2 ++ occurrences results :=
      List.flatMap_cons
    rw [List.foldl_cons, ih, hrest, List.foldl_append, addChannel, addRows_eq]

/-- The item of a key once some hits have been merged, by the first of them with that key. -/
def itemOf (os : List Occurrence) (first : Occurrence) : Merged :=
  { Merged.ofHit first.priority first.rank first.hit with
    sources := (occurrencesOf first.key os).map Occurrence.source }

/-- What the index and the items are after some hits. -/
structure Holds (os : List Occurrence) (m : Merging) : Prop where
  distinct : (m.items.map Merged.key).Nodup
  index : ∀ k, m.index k = m.items.findIdx? fun x => x.key == k
  item : ∀ x ∈ m.items, ∃ first, (occurrencesOf x.key os).head? = some first ∧ x = itemOf os first
  complete : ∀ o ∈ os, o.key ∈ m.items.map Merged.key

section Steps

variable {os : List Occurrence} {m : Merging}

theorem occurrencesOf_concat (k : String × String) (os : List Occurrence) (o : Occurrence) :
    occurrencesOf k (os ++ [o]) = occurrencesOf k os ++ if o.key = k then [o] else [] := by
  rw [occurrencesOf, List.filter_append, List.filter_singleton]
  by_cases hkey : o.key = k
  · simp [hkey, occurrencesOf]
  · simp [hkey, occurrencesOf]

theorem key_of_head {k : String × String} {first : Occurrence}
    (h : (occurrencesOf k os).head? = some first) : first.key = k := by
  have hmem := (List.mem_filter.mp (List.mem_of_head? h)).2
  exact of_decide_eq_true hmem

theorem head_concat {k : String × String} {first : Occurrence} (o : Occurrence)
    (h : (occurrencesOf k os).head? = some first) :
    (occurrencesOf k (os ++ [o])).head? = some first := by
  rw [occurrencesOf_concat, List.head?_append, h]
  rfl

/-- Another hit is added to the sources of the item with its key alone. -/
def note (o : Occurrence) (x : Merged) : Merged :=
  if x.key = o.key then x.addSource o.channel o.rank else x

@[simp]
theorem note_key (o : Occurrence) (x : Merged) : (note o x).key = x.key := by
  unfold note
  split <;> rfl

theorem note_itemOf (o first : Occurrence) :
    note o (itemOf os first) = itemOf (os ++ [o]) first := by
  unfold note itemOf
  rw [occurrencesOf_concat]
  by_cases hkey : o.key = first.key
  · rw [if_pos hkey, List.map_append, List.map_singleton]
    exact if_pos hkey.symm
  · rw [if_neg hkey, List.append_nil]
    exact if_neg (Ne.symm hkey)

/-- The place found by a key that no other item has is the one that changes. -/
theorem modify_findIdx {items : List Merged} {k : String × String} {i : Nat} (f : Merged → Merged)
    (hdistinct : (items.map Merged.key).Nodup)
    (hi : items.findIdx? (fun x => x.key == k) = some i) :
    items.modify i f = items.map fun x => if x.key = k then f x else x := by
  induction items generalizing i with
  | nil => cases hi
  | cons x items ih =>
    rw [List.map_cons, List.nodup_cons] at hdistinct
    rw [List.findIdx?_cons] at hi
    by_cases hkey : x.key = k
    · rw [if_pos (beq_iff_eq.mpr hkey)] at hi
      rw [← Option.some.inj hi, List.modify_zero_cons, List.map_cons, if_pos hkey]
      have hrest : items.map (fun x => if x.key = k then f x else x) = items.map id := by
        refine List.map_congr_left fun y hy => if_neg fun heq => hdistinct.1 ?_
        rw [hkey, ← heq]
        exact List.mem_map_of_mem hy
      rw [hrest, List.map_id]
    · rw [if_neg fun h => hkey (beq_iff_eq.mp h)] at hi
      obtain ⟨j, hj, rfl⟩ := Option.map_eq_some_iff.mp hi
      rw [List.modify_succ_cons, List.map_cons, if_neg hkey, ih hdistinct.2 hj]

theorem modify_concat {α : Type} (f : α → α) (xs : List α) (x : α) :
    (xs ++ [x]).modify xs.length f = xs ++ [f x] := by
  induction xs with
  | nil => rfl
  | cons y xs ih => rw [List.cons_append, List.length_cons, List.modify_succ_cons, ih, List.cons_append]

theorem findIdx_note (o : Occurrence) (items : List Merged) (k : String × String) :
    (items.map (note o)).findIdx? (fun x => x.key == k) = items.findIdx? fun x => x.key == k := by
  rw [List.findIdx?_map]
  congr 1
  funext x
  rw [Function.comp_apply, note_key]

theorem Holds.empty : Holds [] .empty where
  distinct := List.nodup_nil
  index := fun _ => rfl
  item := fun _ hx => absurd hx List.not_mem_nil
  complete := fun _ ho => absurd ho List.not_mem_nil

theorem Holds.noted (h : Holds os m) (o : Occurrence) {x : Merged} (hx : x ∈ m.items) :
    ∃ first, (occurrencesOf (note o x).key (os ++ [o])).head? = some first ∧
      note o x = itemOf (os ++ [o]) first := by
  obtain ⟨first, hfirst, heq⟩ := h.item x hx
  refine ⟨first, ?_, ?_⟩
  · rw [note_key]
    exact head_concat o hfirst
  · rw [heq, note_itemOf]

/-- A hit whose key has an item. -/
theorem Holds.add_known (h : Holds os m) {o : Occurrence} {i : Nat} (hi : m.index o.key = some i) :
    Holds (os ++ [o]) (m.addOccurrence o) := by
  have hitems : (m.addOccurrence o).items = m.items.map (note o) := by
    rw [h.index] at hi
    have hmodify := modify_findIdx (Merged.addSource o.channel o.rank) h.distinct hi
    rw [← h.index] at hi
    simp only [addOccurrence, addHit, entry, show m.index o.hit.key = some i from hi, hmodify]
    rfl
  have hindex : (m.addOccurrence o).index = m.index := by
    simp only [addOccurrence, addHit, entry, show m.index o.hit.key = some i from hi]
  have hkeys : (m.addOccurrence o).items.map Merged.key = m.items.map Merged.key := by
    rw [hitems, List.map_map]
    exact List.map_congr_left fun x _ => note_key o x
  refine ⟨hkeys ▸ h.distinct, fun k => ?_, fun x hx => ?_, fun o' ho' => ?_⟩
  · rw [hindex, hitems, findIdx_note, h.index]
  · rw [hitems] at hx
    obtain ⟨y, hy, rfl⟩ := List.mem_map.mp hx
    exact h.noted o hy
  · rw [hkeys]
    rcases List.mem_append.mp ho' with ho' | ho'
    · exact h.complete o' ho'
    · rw [List.mem_singleton.mp ho']
      rw [h.index] at hi
      obtain ⟨hlt, hkey, -⟩ := List.findIdx?_eq_some_iff_getElem.mp hi
      exact List.mem_map.mpr ⟨_, List.getElem_mem hlt, beq_iff_eq.mp hkey⟩

/-- A hit whose key comes up for the first time. -/
theorem Holds.add_new (h : Holds os m) {o : Occurrence} (hnone : m.index o.key = none) :
    Holds (os ++ [o]) (m.addOccurrence o) := by
  have hfresh : o.key ∉ m.items.map Merged.key := by
    rw [h.index, List.findIdx?_eq_none_iff] at hnone
    intro hmem
    obtain ⟨x, hx, hkey⟩ := List.mem_map.mp hmem
    exact Bool.false_ne_true ((hnone x hx).symm.trans (beq_iff_eq.mpr hkey))
  have hfirst : occurrencesOf o.key os = [] := by
    rw [occurrencesOf, List.filter_eq_nil_iff]
    intro o' ho' hkey
    exact hfresh (of_decide_eq_true hkey ▸ h.complete o' ho')
  have hnew : Merged.addSource o.channel o.rank (Merged.ofHit o.priority o.rank o.hit) =
      itemOf (os ++ [o]) o := by
    unfold itemOf
    rw [occurrencesOf_concat, if_pos rfl, hfirst]
    rfl
  have hitems : (m.addOccurrence o).items = m.items.map (note o) ++ [itemOf (os ++ [o]) o] := by
    have hkept : m.items.map (note o) = m.items := by
      refine (List.map_congr_left fun x hx => ?_).trans (List.map_id _)
      refine if_neg fun heq => hfresh ?_
      rw [← heq]
      exact List.mem_map_of_mem hx
    rw [hkept, ← hnew]
    simp only [addOccurrence, addHit, entry, show m.index o.hit.key = none from hnone]
    exact modify_concat _ _ _
  have hkeys : (m.addOccurrence o).items.map Merged.key = m.items.map Merged.key ++ [o.key] := by
    rw [hitems, List.map_append, List.map_map]
    congr 1
    exact List.map_congr_left fun x _ => note_key o x
  refine ⟨?_, fun k => ?_, fun x hx => ?_, fun o' ho' => ?_⟩
  · rw [hkeys]
    refine List.nodup_append.mpr ⟨h.distinct, List.nodup_singleton _, fun k hk k' hk' heq => ?_⟩
    rw [heq, List.mem_singleton.mp hk'] at hk
    exact hfresh hk
  · have hindex : (m.addOccurrence o).index k = if k = o.key then some m.items.length
        else m.index k := by
      simp only [addOccurrence, addHit, entry, show m.index o.hit.key = none from hnone]
      rfl
    rw [hindex, hitems, List.findIdx?_append, findIdx_note, ← h.index, List.length_map]
    have hkey : (itemOf (os ++ [o]) o).key = o.key := rfl
    rw [List.findIdx?_singleton, hkey]
    by_cases hk : k = o.key
    · rw [if_pos hk, hk, hnone, if_pos (beq_self_eq_true _)]
      simp
    · rw [if_neg hk, if_neg fun heq => hk (beq_iff_eq.mp heq).symm]
      cases m.index k <;> rfl
  · rw [hitems] at hx
    rcases List.mem_append.mp hx with hx | hx
    · obtain ⟨y, hy, rfl⟩ := List.mem_map.mp hx
      exact h.noted o hy
    · rw [List.mem_singleton.mp hx]
      refine ⟨o, ?_, rfl⟩
      have hkey : (itemOf (os ++ [o]) o).key = o.key := rfl
      rw [hkey, occurrencesOf_concat, hfirst, if_pos rfl]
      rfl
  · rw [hkeys]
    rcases List.mem_append.mp ho' with ho' | ho'
    · exact List.mem_append_left _ (h.complete o' ho')
    · rw [List.mem_singleton.mp ho']
      exact List.mem_append_right _ (List.mem_singleton_self _)

theorem Holds.addOccurrence (h : Holds os m) (o : Occurrence) :
    Holds (os ++ [o]) (m.addOccurrence o) := by
  cases hi : m.index o.key with
  | none => exact h.add_new hi
  | some i => exact h.add_known hi

theorem holds_foldl (os : List Occurrence) : Holds os (os.foldl addOccurrence .empty) := by
  induction os using List.reverseRecOn with
  | nil => exact .empty
  | append_singleton os o ih =>
    rw [List.foldl_append]
    exact ih.addOccurrence o

end Steps

end Merging

section Minimal

/-- Occurrences come in the order of priority and rank. -/
def Before (o o' : Occurrence) : Prop :=
  o.priority < o'.priority ∨ (o.priority = o'.priority ∧ o.rank < o'.rank)

theorem occurrencesFrom_channel {channel : String} {rank : Int} {rows : List Hit} {o : Occurrence}
    (h : o ∈ occurrencesFrom channel rank rows) : o.channel = channel ∧ rank ≤ o.rank := by
  induction rows generalizing rank with
  | nil => cases h
  | cons hit rows ih =>
    rcases List.mem_cons.mp h with rfl | h
    · exact ⟨rfl, Int.le_refl _⟩
    · obtain ⟨hchannel, hrank⟩ := ih h
      exact ⟨hchannel, by omega⟩

theorem occurrencesFrom_pairwise (channel : String) (rank : Int) (rows : List Hit) :
    (occurrencesFrom channel rank rows).Pairwise Before := by
  induction rows generalizing rank with
  | nil => exact .nil
  | cons hit rows ih =>
    refine List.pairwise_cons.mpr ⟨fun o ho => .inr ?_, ih (rank + 1)⟩
    obtain ⟨hchannel, hrank⟩ := occurrencesFrom_channel ho
    refine ⟨?_, Int.lt_of_lt_of_le (Int.lt_succ rank) hrank⟩
    rw [Occurrence.priority, Occurrence.priority, hchannel]

theorem occurrences_pairwise {results : List (String × List Hit)}
    (h : results.Pairwise fun r r' => channelPriority r.1 < channelPriority r'.1) :
    (occurrences results).Pairwise Before := by
  refine List.pairwise_flatMap.mpr ⟨fun r _ => occurrencesFrom_pairwise r.1 1 r.2, ?_⟩
  refine h.imp fun {r r'} hlt o ho o' ho' => .inl ?_
  rw [Occurrence.priority, Occurrence.priority, (occurrencesFrom_channel ho).1,
    (occurrencesFrom_channel ho').1]
  exact hlt

theorem head_minimal {os : List Occurrence} (h : os.Pairwise Before) {first o : Occurrence}
    (hfirst : os.head? = some first) (ho : o ∈ os) : o = first ∨ Before first o := by
  cases h with
  | nil => cases ho
  | cons hbefore _ =>
    cases hfirst
    exact (List.mem_cons.mp ho).imp_right fun ho => hbefore o ho

end Minimal

section Rearranged

def Hit.plain (h : Hit) : Hit := { h with lineno := none, symbolType := "" }

/-- All of an item but its line and its type. -/
def Merged.plain (m : Merged) : Merged := { m with lineno := none, symbolType := "" }

def Occurrence.plain (o : Occurrence) : Occurrence := { o with hit := o.hit.plain }

def Merging.plain (m : Merging) : Merging := { m with items := m.items.map Merged.plain }

/-- Which keys are found by which channels at which ranks. -/
def keysOf (results : List (String × List Hit)) : List (String × List (String × String)) :=
  results.map fun r => (r.1, r.2.map Hit.key)

theorem map_modify {α β : Type} {f : α → α} {g : β → β} {view : α → β}
    (h : ∀ a, view (f a) = g (view a)) (i : Nat) (xs : List α) :
    (xs.modify i f).map view = (xs.map view).modify i g := by
  induction xs generalizing i with
  | nil => rw [List.map_nil, List.modify_nil, List.modify_nil, List.map_nil]
  | cons x xs ih =>
    cases i with
    | zero => rw [List.modify_zero_cons, List.map_cons, List.map_cons, List.modify_zero_cons, h]
    | succ i => rw [List.modify_succ_cons, List.map_cons, List.map_cons, List.modify_succ_cons, ih]

theorem plain_addOccurrence (m : Merging) (o : Occurrence) :
    (m.addOccurrence o).plain = m.plain.addOccurrence o.plain := by
  have hkey : o.plain.hit.key = o.hit.key := rfl
  have hnoted (i : Nat) (items : List Merged) :
      (items.modify i (Merged.addSource o.channel o.rank)).map Merged.plain =
        (items.map Merged.plain).modify i (Merged.addSource o.channel o.rank) :=
    @map_modify _ _ (Merged.addSource o.channel o.rank) (Merged.addSource o.channel o.rank)
      Merged.plain (fun _ => rfl) i items
  unfold Merging.addOccurrence Merging.addHit Merging.entry
  rw [hkey]
  unfold Merging.plain
  cases m.index o.hit.key with
  | some i =>
    simp only [hnoted]
    rfl
  | none =>
    simp only [hnoted, List.map_append, List.length_map]
    rfl

theorem plain_foldl (os : List Occurrence) (m : Merging) :
    (os.foldl Merging.addOccurrence m).plain =
      (os.map Occurrence.plain).foldl Merging.addOccurrence m.plain := by
  induction os generalizing m with
  | nil => rfl
  | cons o os ih => rw [List.foldl_cons, ih, plain_addOccurrence, List.map_cons, List.foldl_cons]

theorem plain_occurrencesFrom (channel : String) (rank : Int) (rows : List Hit) :
    (occurrencesFrom channel rank rows).map Occurrence.plain =
      occurrencesFrom channel rank (rows.map Hit.plain) := by
  induction rows generalizing rank with
  | nil => rfl
  | cons h rows ih => rw [occurrencesFrom, List.map_cons, ih, List.map_cons, occurrencesFrom]; rfl

/-- The hits without their lines and types are known by their keys. -/
def unkey (k : String × String) : Hit := ⟨k.2, k.1, none, ""⟩

theorem plain_occurrences (results : List (String × List Hit)) :
    (occurrences results).map Occurrence.plain =
      (keysOf results).flatMap fun r => occurrencesFrom r.1 1 (r.2.map unkey) := by
  unfold occurrences keysOf
  rw [List.map_flatMap, List.flatMap_map]
  refine congrArg (fun f => results.flatMap f) (funext fun r => ?_)
  rw [plain_occurrencesFrom, List.map_map]
  rfl

theorem mergedOrder_plain (lower : String → String) {a b : Merged} (h : a.key = b.key → a = b) :
    mergedOrder lower a.plain b.plain = mergedOrder lower a b := by
  by_cases heq : a = b
  · rw [heq, @Std.ReflCmp.compare_self _ (mergedOrder lower),
      @Std.ReflCmp.compare_self _ (mergedOrder lower)]
  · have hne : a.name = b.name → a.filePath ≠ b.filePath := fun hname hpath =>
      heq (h (Prod.ext hpath hname))
    have htail : ∀ line line' : Ordering, ((compare a.name b.name).then
        ((compare a.filePath b.filePath).then line)) =
          ((compare a.name b.name).then ((compare a.filePath b.filePath).then line')) := by
      intro line line'
      cases hname : compare a.name b.name with
      | lt => rfl
      | gt => rfl
      | eq =>
        have hpath := hne (Std.LawfulEqOrd.eq_of_compare hname)
        cases hcompare : compare a.filePath b.filePath with
        | lt => rfl
        | gt => rfl
        | eq => exact absurd (Std.LawfulEqOrd.eq_of_compare hcompare) hpath
    have hlines := htail (compare (a.plain.lineno.getD 0) (b.plain.lineno.getD 0))
      (compare (a.lineno.getD 0) (b.lineno.getD 0))
    exact congrArg (fun o => (compare a.priority b.priority).then
      ((compare a.bestRank b.bestRank).then ((compare (lower a.name) (lower b.name)).then o))) hlines

end Rearranged

section Results

variable (lower : String → String) (results : List (String × List Hit))

theorem merged_holds : Merging.Holds (occurrences results)
    (results.foldl Merging.addChannel .empty) := by
  rw [Merging.foldl_addChannel]
  exact Merging.holds_foldl _

theorem plain_mergedItems : (mergedItems lower results).map Merged.plain =
    orderBy (mergedOrder lower)
      (((occurrences results).map Occurrence.plain).foldl Merging.addOccurrence .empty).items := by
  have hdistinct := (merged_holds results).distinct
  have hplain := plain_foldl (occurrences results) .empty
  have hitems : (((occurrences results).map Occurrence.plain).foldl Merging.addOccurrence
      .empty).items = (results.foldl Merging.addChannel .empty).items.map Merged.plain := by
    rw [Merging.foldl_addChannel]
    exact (congrArg Merging.items hplain).symm
  rw [hitems]
  unfold mergedItems orderBy
  refine List.map_insertionSort _ _ Merged.plain _ fun a ha b hb => ?_
  rw [mergedOrder_plain lower (List.inj_on_of_nodup_map hdistinct ha hb)]

/-- What the merged items are. -/
structure Complete (items : List Merged) : Prop where
  distinct : (items.map Merged.key).Nodup
  keys : ∀ k, k ∈ items.map Merged.key ↔ ∃ o ∈ occurrences results, o.key = k
  sources : ∀ x ∈ items,
    x.sources = (occurrencesOf x.key (occurrences results)).map Occurrence.source
  best : ∀ x ∈ items, ∃ first ∈ occurrencesOf x.key (occurrences results),
    (x.priority, x.bestRank, x.lineno, x.symbolType) =
        (first.priority, first.rank, first.hit.lineno, first.hit.symbolType) ∧
      ∀ o ∈ occurrencesOf x.key (occurrences results), o = first ∨ Before first o
  sorted : items.Pairwise fun x y => (mergedOrder lower x y).isLE

theorem mergedItems_complete
    (h : results.Pairwise fun r r' => channelPriority r.1 < channelPriority r'.1) :
    Complete lower results (mergedItems lower results) := by
  have hholds := merged_holds results
  have hperm : List.Perm (mergedItems lower results)
      (results.foldl Merging.addChannel .empty).items := orderBy_perm _ _
  have hitem {x : Merged} (hx : x ∈ mergedItems lower results) := hholds.item x (hperm.mem_iff.mp hx)
  refine ⟨(hperm.map _).nodup_iff.mpr hholds.distinct, fun k => ?_, fun x hx => ?_, fun x hx => ?_,
    orderBy_pairwise _⟩
  · rw [(hperm.map Merged.key).mem_iff]
    constructor
    · intro hk
      obtain ⟨x, hx, rfl⟩ := List.mem_map.mp hk
      obtain ⟨first, hfirst, -⟩ := hholds.item x hx
      obtain ⟨hmem, hkey⟩ := List.mem_filter.mp (List.mem_of_head? hfirst)
      exact ⟨first, hmem, of_decide_eq_true hkey⟩
    · rintro ⟨o, ho, rfl⟩
      exact hholds.complete o ho
  · obtain ⟨first, hfirst, heq⟩ := hitem hx
    have hkey := Merging.key_of_head hfirst
    rw [← hkey, heq]
    rfl
  · obtain ⟨first, hfirst, heq⟩ := hitem hx
    refine ⟨first, List.mem_of_head? hfirst, ?_, fun o ho => ?_⟩
    · rw [heq]
      rfl
    · exact head_minimal ((occurrences_pairwise h).filter _) hfirst ho

/-- The merged items are complete, and the output is the first of them; hits of one key that
change places change nothing but the line and the type of their item. -/
theorem mergeCandidates_complete
    (h : results.Pairwise fun r r' => channelPriority r.1 < channelPriority r'.1) (limit : Int) :
    Complete lower results (mergedItems lower results) ∧
      mergeCandidates lower results limit <+: mergedItems lower results ∧
      (mergeCandidates lower results limit).length =
        min limit.toNat (mergedItems lower results).length ∧
      ∀ results', keysOf results' = keysOf results →
        (mergeCandidates lower results' limit).map Merged.plain =
          (mergeCandidates lower results limit).map Merged.plain := by
  refine ⟨mergedItems_complete lower results h, List.take_prefix _ _, List.length_take, ?_⟩
  intro results' hkeys
  unfold mergeCandidates
  rw [List.map_take, List.map_take, plain_mergedItems, plain_mergedItems, plain_occurrences,
    plain_occurrences, hkeys]

end Results

section Moved

def runAt (line : Int) : Hit := ⟨"run", "a.py", some line, "function"⟩

theorem moved_ordered : [("exact", [runAt 1]), ("prefix", [runAt 2])].Pairwise
    fun r r' => channelPriority r.1 < channelPriority r'.1 := by decide

/-- Two hits of one key with different lines, in either order. -/
theorem moved_lines : keysOf [("exact", [runAt 1]), ("prefix", [runAt 2])] =
      keysOf [("exact", [runAt 2]), ("prefix", [runAt 1])] ∧
    mergeCandidates id [("exact", [runAt 1]), ("prefix", [runAt 2])] 10 ≠
      mergeCandidates id [("exact", [runAt 2]), ("prefix", [runAt 1])] 10 := by
  decide +kernel

theorem moved_complete : Complete id [("exact", [runAt 1]), ("prefix", [runAt 2])]
    (mergedItems id [("exact", [runAt 1]), ("prefix", [runAt 2])]) :=
  (mergeCandidates_complete id _ moved_ordered 10).1

end Moved

end RemyCC.Mcp
