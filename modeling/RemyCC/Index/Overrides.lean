import RemyCC.Index.Traces

/-!
# What an override edge leads from and to

The methods of a type are taken to be the functions whose names match the
`LIKE` pattern of the type, and are compared by the last parts of their names. So
a function of a nested type, or of one that the pattern happens to match, counts
as a method too.
-/

namespace RemyCC.Index

open Relational Text

/-- A class or type with a base or trait that it names. -/
structure Visit where
  implPath : String
  implType : String
  basePath : String
  baseName : String
  deriving DecidableEq, Repr

/-- A function directly within a type. -/
structure DirectMethod (d : Database) (path type method : String) (s : SymbolRow) : Prop where
  mem : s ∈ d.symbols.rows
  file : s.filePath = path
  function : s.type = "function"
  name : s.name = type ++ "." ++ method
  direct : '.' ∉ method.toList

/-- From a direct method of the base to the direct method of the same name. -/
def Overriding (d : Database) (v : Visit) (e : InferredEdge) : Prop :=
  ∃ method base impl, DirectMethod d v.basePath v.baseName method base ∧
    DirectMethod d v.implPath v.implType method impl ∧
    e.sourceFile = v.basePath ∧ e.caller = base.name ∧
    e.calleeFile = v.implPath ∧ e.callee = impl.name ∧
    e.calleeQualified = v.implPath ++ "::" ++ impl.name

def interfaceVisits (d : Database) : List Visit :=
  (orderBy symbolOrder (d.symbols.rows.filter fun s => s.type == "class")).flatMap fun s =>
    (sortedSet ((s.bases.bind parseBases).getD [])).flatMap fun base =>
      (symbolKeysWhere (fun b => b.type == "class" && b.shortName == base) d).map fun b =>
        ⟨s.filePath, s.name, b.1, b.2⟩

def traitVisits (d : Database) : List Visit :=
  (traitImpls d).flatMap fun t =>
    (symbolKeysWhere (fun b => b.type == "interface" && b.shortName == t.traitName &&
      like "%.rs" b.filePath) d).map fun b => ⟨t.file, t.fullType, b.1, b.2⟩

/-- The functions that count as methods of the base and have a namesake among those of the
other, in the order of their lines. -/
def matchedMethods (d : Database) (v : Visit) : List SymbolRow :=
  (methodsByLine v.basePath v.baseName d).filter fun m =>
    (methodShorts v.implPath v.implType d).contains (lastPart '.' m.name)

def matchedEdges (via : String) (d : Database) (v : Visit) : List InferredEdge :=
  (matchedMethods d v).map (overrideEdge via v.basePath v.implPath v.implType)

/-- What a synthesizer of override edges is to add. -/
structure Overrides (via : String) (cap : Nat) (d : Database) (visits : List Visit) : Prop where
  real : ∀ t ∈ traceRounds cap (matchedEdges via d) visits [], ∀ e ∈ t.2, Overriding d t.1 e
  capped : ∀ v, (addedFor v (traceRounds cap (matchedEdges via d) visits [])).length ≤ cap
  complete : ∀ v ∈ visits,
    (addedFor v (traceRounds cap (matchedEdges via d) visits [])).length < cap →
      ∀ method base impl, DirectMethod d v.basePath v.baseName method base →
        DirectMethod d v.implPath v.implType method impl →
          overrideEdge via v.basePath v.implPath v.implType base ∈
            addedFor v (traceRounds cap (matchedEdges via d) visits [])

section Names

theorem lastPart_append {method : String} (h : '.' ∉ method.toList) (type : String) :
    lastPart '.' (type ++ "." ++ method) = method := by
  have hname : (type ++ "." ++ method).toList = type.toList ++ '.' :: method.toList := by simp
  rw [lastPart, split, List.getLast?_map, hname, getLast?_splitChar h, Option.map_some,
    Option.getD_some, String.ofList_toList]

theorem like_self (type method : String) : like (type ++ ".%") (type ++ "." ++ method) = true := by
  have hpattern : type ++ ".%" = (type ++ ".") ++ "%" := by
    rw [String.append_assoc]
    rfl
  rw [hpattern, like_lead]

end Names

section Matched

variable {d : Database} {via : String} {cap : Nat} {v : Visit}

theorem isMethodOf_of_direct {path type method : String} {s : SymbolRow}
    (h : DirectMethod d path type method s) : isMethodOf path type s = true := by
  rw [isMethodOf, h.file, h.function, h.name, like_self]
  simp

theorem matched_of_direct {method : String} {base impl : SymbolRow}
    (hbase : DirectMethod d v.basePath v.baseName method base)
    (himpl : DirectMethod d v.implPath v.implType method impl) :
    base ∈ matchedMethods d v := by
  refine List.mem_filter.mpr ⟨?_, ?_⟩
  · exact mem_orderBy.mpr (List.mem_filter.mpr ⟨hbase.mem, isMethodOf_of_direct hbase⟩)
  · refine List.contains_iff_mem.mpr (List.mem_map.mpr ⟨impl, ?_, ?_⟩)
    · exact List.mem_filter.mpr ⟨himpl.mem, isMethodOf_of_direct himpl⟩
    · rw [hbase.name, himpl.name, lastPart_append hbase.direct, lastPart_append hbase.direct]

theorem mem_matchedMethods {m : SymbolRow} (h : m ∈ matchedMethods d v) :
    m ∈ d.symbols.rows ∧ m.filePath = v.basePath := by
  have hmethod := List.mem_filter.mp (mem_orderBy.mp (List.mem_filter.mp h).1)
  have hfile : m.filePath = v.basePath ∧ m.type = "function" ∧
      like (v.baseName ++ ".%") m.name = true := by
    simpa [isMethodOf, and_assoc] using hmethod.2
  exact ⟨hmethod.1, hfile.1⟩

theorem matchedEdges_distinct (via : String) (d : Database) (v : Visit) :
    Distinct (matchedEdges via d v) := by
  have hnodup : (matchedMethods d v).Nodup := by
    have hrows : d.symbols.rows.Nodup := List.Nodup.of_map SymbolRow.key d.symbols.distinct
    exact (((orderBy_perm _ _).nodup_iff.mpr (hrows.filter _))).filter _
  refine List.pairwise_map.mpr (hnodup.imp_of_mem fun {m m'} hm hm' hne => ?_)
  obtain ⟨hmem, hfile⟩ := mem_matchedMethods hm
  obtain ⟨hmem', hfile'⟩ := mem_matchedMethods hm'
  refine Bool.eq_false_iff.mpr fun hkey => hne (d.symbols.eq_of_key hmem hmem' ?_)
  exact Prod.ext (hfile.trans hfile'.symm) (sameKey_iff.mp hkey).2.1

theorem walkMethods_eq (cap : Nat) (edge : SymbolRow → InferredEdge) (implemented : List String)
    (added : Nat) (methods : List SymbolRow) (out : List InferredEdge) :
    walkMethods cap edge implemented added methods out = emitUpTo cap added
      ((methods.filter fun m => implemented.contains (lastPart '.' m.name)).map edge) out := by
  induction methods generalizing added out with
  | nil => rfl
  | cons m methods ih =>
    have hdone : ∀ round, cap ≤ added → emitUpTo cap added round out = out := by
      intro round hcap
      cases round with
      | nil => rfl
      | cons e round => exact if_pos hcap
    unfold walkMethods
    split
    · next hcap => exact (hdone _ hcap).symm
    · next hcap =>
      rw [List.filter_cons]
      split
      · rw [List.map_cons, emitUpTo, if_neg hcap]
        cases emitUnseen (edge m) out with
        | none => exact ih added out
        | some out => exact ih (added + 1) out
      · exact ih added out

theorem overrideEdges_rounds (via : String) (cap : Nat) (d : Database) (implPath implType : String)
    (bases : List (String × String)) (out : List InferredEdge) :
    overrideEdges via cap d implPath implType bases out = emitRounds cap
      ((bases.map fun b => (⟨implPath, implType, b.1, b.2⟩ : Visit)).map (matchedEdges via d)) out := by
  unfold overrideEdges emitRounds
  simp only
  rw [List.map_map, List.foldl_map]
  split
  · next hnone =>
    have hempty (b : String × String) :
        matchedEdges via d ⟨implPath, implType, b.1, b.2⟩ = [] := by
      rw [matchedEdges, matchedMethods, hnone]
      simp
    simp only [Function.comp_apply, hempty, emitUpTo]
    exact (List.foldl_fixed _).symm
  · simp only [walkMethods_eq]
    rfl

theorem emitRounds_append (cap : Nat) (before after : List (List InferredEdge))
    (out : List InferredEdge) :
    emitRounds cap (before ++ after) out = emitRounds cap after (emitRounds cap before out) :=
  List.foldl_append

theorem foldl_emitRounds {α : Type} (cap : Nat) (rounds : α → List (List InferredEdge)) (xs : List α)
    (out : List InferredEdge) :
    xs.foldl (fun out x => emitRounds cap (rounds x) out) out =
      emitRounds cap (xs.flatMap rounds) out := by
  induction xs generalizing out with
  | nil => rfl
  | cons x xs ih => rw [List.foldl_cons, ih, List.flatMap_cons, emitRounds_append]

theorem interface_rounds (cap : Nat) (d : Database) : synthesizeInterfaceOverrideEdges cap d =
    emitRounds cap ((interfaceVisits d).map (matchedEdges "interface-impl" d)) [] := by
  unfold synthesizeInterfaceOverrideEdges interfaceVisits
  simp only [overrideEdges_rounds, foldl_emitRounds, List.map_flatMap]

theorem trait_rounds (cap : Nat) (d : Database) : synthesizeRustTraitImplEdges cap d =
    emitRounds cap ((traitVisits d).map (matchedEdges "trait-impl" d)) [] := by
  unfold synthesizeRustTraitImplEdges traitVisits
  simp only [overrideEdges_rounds, foldl_emitRounds, List.map_flatMap]

/-- When the edges of a synthesizer are as they are to be: of each pair the methods matched
first are direct methods of both types, and a pair that comes up again has no more. -/
def Direct (via : String) (cap : Nat) (d : Database) (visits : List Visit) : Prop :=
  Fair cap (Overriding d) (matchedEdges via d) visits

theorem overrides_iff {visits : List Visit} (hseparate : Separate (matchedEdges via d) visits) :
    Overrides via cap d visits ↔ Direct via cap d visits := by
  have hdistinct : ∀ v ∈ visits, Distinct (matchedEdges via d v) :=
    fun v _ => matchedEdges_distinct via d v
  refine Iff.trans ?_ (@trace_fair_iff _ cap _ _ _ (Overriding d) hdistinct hseparate)
  refine ⟨fun h => ⟨h.real, h.capped⟩, fun h => ⟨h.1, h.2, ?_⟩⟩
  intro v hv hlt method base impl hbase himpl
  exact addedFor_complete hdistinct hseparate hv hlt
    (List.mem_map_of_mem (matched_of_direct hbase himpl))

/-- What the edges of the traced visits are, in the index and on the way there. -/
structure Inserted (via : String) (cap : Nat) (d : Database) (visits : List Visit)
    (edges : List InferredEdge) : Prop where
  emitted : edges = (traceRounds cap (matchedEdges via d) visits []).flatMap Prod.snd
  new : ∀ row ∈ (insertAll edges d).edges.rows, row ∈ d.edges.rows ∨ ∃ e ∈ edges, row = e.row row.id
  stored : ∀ e ∈ edges, e.key ∈ inferredKeys (insertAll edges d)

theorem inserted_of_rounds {visits : List Visit} {edges : List InferredEdge}
    (h : edges = emitRounds cap (visits.map (matchedEdges via d)) []) :
    Inserted via cap d visits edges where
  emitted := by rw [h, emitRounds_trace, List.nil_append]
  new := fun _ hrow => mem_insertAll hrow
  stored := fun _ he => key_mem_insertAll he

end Matched

section Nested

def symbolAt (path type name short : String) (bases : Option String) (line : Int) : SymbolRow where
  filePath := path
  name := name
  shortName := short
  type := type
  args := ""
  lineno := some line
  endLineno := none
  hash := none
  bases := bases
  nameTokens := ""

/-- A base whose only method belongs to a class within it. -/
def nestedSymbols : List SymbolRow :=
  [symbolAt "a.py" "class" "Base" "Base" none 1, symbolAt "a.py" "class" "Base.Inner" "Inner" none 2,
    symbolAt "a.py" "function" "Base.Inner.run" "run" none 3,
    symbolAt "a.py" "class" "Impl" "Impl" (some "[\"Base\"]") 5,
    symbolAt "a.py" "function" "Impl.run" "run" none 6]

theorem nestedSymbols_distinct : (nestedSymbols.map SymbolRow.key).Nodup := by decide

def nestedClasses : Database :=
  { Database.empty with symbols := ⟨nestedSymbols, nestedSymbols_distinct⟩ }

def implVisit : Visit := ⟨"a.py", "Impl", "a.py", "Base"⟩

def innerRun : SymbolRow := symbolAt "a.py" "function" "Base.Inner.run" "run" none 3

theorem nested_visits : interfaceVisits nestedClasses = [implVisit] := by decide +kernel

theorem nested_matched : matchedMethods nestedClasses implVisit = [innerRun] := by decide +kernel

theorem inner_indirect {path method : String} {s : SymbolRow} (hname : s.name = "Base.Inner.run") :
    ¬ DirectMethod nestedClasses path "Base" method s := by
  intro h
  have hchars : "Base.Inner.run".toList = ("Base" ++ "." ++ method).toList :=
    congrArg String.toList (hname.symm.trans h.name)
  have hmethod : method.toList = "Inner.run".toList := by
    simpa using hchars.symm
  exact h.direct (hmethod ▸ by decide)

/-- The same classes where the base has the method itself. -/
def directSymbols : List SymbolRow :=
  [symbolAt "a.py" "class" "Base" "Base" none 1, symbolAt "a.py" "function" "Base.run" "run" none 2,
    symbolAt "a.py" "class" "Impl" "Impl" (some "[\"Base\"]") 5,
    symbolAt "a.py" "function" "Impl.run" "run" none 6]

theorem directSymbols_distinct : (directSymbols.map SymbolRow.key).Nodup := by decide

def directClasses : Database :=
  { Database.empty with symbols := ⟨directSymbols, directSymbols_distinct⟩ }

theorem direct_visits : interfaceVisits directClasses = [implVisit] := by decide +kernel

theorem direct_separate :
    Separate (matchedEdges "interface-impl" directClasses) (interfaceVisits directClasses) := by
  rw [direct_visits]
  intro a ha b hb hne
  exact absurd ((List.mem_singleton.mp ha).trans (List.mem_singleton.mp hb).symm) hne

theorem direct_traits : traitVisits directClasses = [] := by decide +kernel

end Nested

end RemyCC.Index
