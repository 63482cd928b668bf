import RemyCC.Hook.Enrichment

/-!
# Who is reported as a caller

The callers are found by a pattern that starts with the path of the file as it
is, so a path with a wildcard, or one that differs in letter case only, lets in
the callers of other files.
-/

namespace RemyCC.Hook

open Index Relational Text

/-- A caller of a symbol of the target, by its qualified name. -/
def Calls (d : Database) (target name : String) : Prop :=
  ∃ e ∈ d.edges.rows, name = callerName e ∧ ∃ symbol, e.calleeQualified = some (target ++ "::" ++ symbol)

/-- The reported names are the callers of the target, as many as the cap allows. -/
structure Exact (d : Database) (target : String) (limit : Nat) (names : List String) : Prop where
  real : ∀ name ∈ names, Calls d target name
  distinct : names.Nodup
  full : ∀ all : List String, all.Nodup → (∀ name, name ∈ all ↔ Calls d target name) →
    names.length = min limit all.length

/-- Whoever the pattern finds is a caller of the target. -/
def Contained (d : Database) (target : String) : Prop :=
  ∀ e ∈ calling d target, Calls d target (callerName e)

section Callers

variable {scan : List String → List String} {d : Database} {target : String}

theorem mem_calling {e : EdgeRow} : e ∈ calling d target ↔
    e ∈ d.edges.rows ∧ ∃ q, e.calleeQualified = some q ∧ like (target ++ "::%") q = true := by
  unfold calling
  rw [List.mem_filter]
  cases e.calleeQualified with
  | none => simp
  | some q => simp

/-- A caller of the target is found by its pattern, whatever the path is. -/
theorem calling_of_calls {name : String} (h : Calls d target name) :
    ∃ e ∈ calling d target, callerName e = name := by
  obtain ⟨e, he, rfl, symbol, hsymbol⟩ := h
  have hpattern : target ++ "::%" = (target ++ "::") ++ "%" := by
    rw [String.append_assoc]
    rfl
  exact ⟨e, mem_calling.mpr ⟨he, _, hsymbol, hpattern ▸ like_lead _ _⟩, rfl⟩

theorem mem_callers (hscan : ∀ values, List.Perm (scan values) values) {name : String} :
    name ∈ scan ((calling d target).map callerName).dedup ↔
      ∃ e ∈ calling d target, callerName e = name := by
  rw [(hscan _).mem_iff, List.mem_dedup, List.mem_map]

theorem exact_of_contained (hscan : ∀ values, List.Perm (scan values) values)
    (hcontained : Contained d target) (limit : Nat) :
    Exact d target limit (callersOf scan d target limit) := by
  have hcalls {name : String} : name ∈ scan ((calling d target).map callerName).dedup ↔
      Calls d target name := by
    rw [mem_callers hscan]
    refine ⟨?_, calling_of_calls⟩
    rintro ⟨e, he, rfl⟩
    exact hcontained e he
  have hnodup : (scan ((calling d target).map callerName).dedup).Nodup :=
    (hscan _).nodup_iff.mpr (List.nodup_dedup _)
  refine ⟨fun name hname => ?_, ?_, fun all hall hmem => ?_⟩
  · exact hcalls.mp (List.mem_of_mem_take hname)
  · exact hnodup.sublist (List.take_sublist _ _)
  · have hperm : List.Perm (scan ((calling d target).map callerName).dedup) all :=
      (List.perm_ext_iff_of_nodup hnodup hall).mpr fun name => hcalls.trans (hmem name).symm
    rw [callersOf, distinctUpTo, List.length_take, hperm.length_eq]

/-- An engine may find a given value first. -/
def scanFirst (first : String) (values : List String) : List String :=
  if first ∈ values then first :: values.erase first else values

theorem scanFirst_perm (first : String) (values : List String) :
    List.Perm (scanFirst first values) values := by
  unfold scanFirst
  split
  · next hmem => exact (List.perm_cons_erase hmem).symm
  · exact .refl _

theorem callers_scanFirst {e : EdgeRow} (he : e ∈ calling d target) {limit : Nat} (hlimit : 0 < limit) :
    callerName e ∈ callersOf (scanFirst (callerName e)) d target limit := by
  have hmem : callerName e ∈ ((calling d target).map callerName).dedup :=
    List.mem_dedup.mpr (List.mem_map_of_mem he)
  obtain ⟨n, rfl⟩ := Nat.exists_eq_succ_of_ne_zero (Nat.pos_iff_ne_zero.mp hlimit)
  rw [callersOf, distinctUpTo, scanFirst, if_pos hmem, List.take_succ_cons]
  exact List.mem_cons_self

end Callers

/-- What is reported of a file is exact in whatever order the callers are found, if and only if
the pattern of an indexed file finds no callers but its own. -/
theorem callers_exact_iff (d : Database) (target : String) (c : HookConfig) :
    (∀ scan : List String → List String, (∀ values, List.Perm (scan values) values) →
      ∀ found, gather scan d target c = some found →
        Exact d target (c.tier d.files.rows.length).1 found.callers) ↔
      (d.hasFile target = true → Contained d target) := by
  constructor
  · intro h hfile e he
    obtain ⟨file, hrow⟩ := Option.isSome_iff_exists.mp hfile
    have hfirst := callers_scanFirst he (c.tier_pos d.files.rows.length)
    have hgather : ∃ found, gather (scanFirst (callerName e)) d target c = some found ∧
        found.callers = callersOf (scanFirst (callerName e)) d target
          (c.tier d.files.rows.length).1 := by
      unfold gather
      rw [hrow, Option.bind_some]
      simp only
      rw [if_neg fun hnone => List.ne_nil_of_mem hfirst hnone.2.1]
      exact ⟨_, rfl, rfl⟩
    obtain ⟨found, hfound, hcallers⟩ := hgather
    have hexact := h _ (scanFirst_perm (callerName e)) found hfound
    exact hexact.real _ (hcallers ▸ hfirst)
  · intro h scan hscan found hfound
    obtain ⟨file, hrow, hfound⟩ := Option.bind_eq_some_iff.mp hfound
    simp only at hfound
    obtain ⟨-, hfound⟩ := Option.ite_none_left_eq_some.mp hfound
    rw [← Option.some.inj hfound]
    exact exact_of_contained hscan (h (Option.isSome_iff_exists.mpr ⟨file, hrow⟩)) _

section Wildcard

def fileAt (path : String) : FileRow where
  path := path
  structHash := ""
  language := some "python"
  layer := none
  imports := none
  importBindings := "[]"
  kindHint := none
  identity := ⟨"1", "python", ""⟩

def wildcardFiles : List FileRow := [fileAt "a_b.py", fileAt "aXb.py", fileAt "main.py"]

theorem wildcardFiles_distinct : (wildcardFiles.map FileRow.path).Nodup := by decide

def callOf (callee : String) (id : Nat) : EdgeRow where
  id := id
  sourceFile := "main.py"
  caller := "main"
  callee := "f"
  calleeFile := some "aXb.py"
  calleeQualified := some callee
  line := some 1
  provenance := some .definite
  synthesizedFrom := none
  via := none
  callForm := .name

/-- A call of a symbol in a file whose path matches the pattern of another. -/
def wildcard : Database :=
  { Database.empty with
    files := ⟨wildcardFiles, wildcardFiles_distinct⟩
    edges := Database.empty.edges.insert (callOf "aXb.py::f") fun _ => rfl }

def defaultConfig : HookConfig where
  tierFullMax := 200
  tierMidMax := 1000
  cap := 15
  capLarge := 10
  sigMax := 80
  tiers := by decide
  capLarge_range := by decide
  caps := by decide

def wildcardReport : Enrichment := ⟨"a_b.py", none, [], ["main.py::main"], []⟩

theorem wildcard_report : gather id wildcard "a_b.py" defaultConfig = some wildcardReport := by
  decide +kernel

/-- The caller of another file is reported. -/
theorem wildcard_caller : gather id wildcard "a_b.py" defaultConfig = some wildcardReport ∧
    ¬ Exact wildcard "a_b.py" (defaultConfig.tier wildcard.files.rows.length).1
      wildcardReport.callers := by
  refine ⟨wildcard_report, fun h => ?_⟩
  obtain ⟨e, he, -, symbol, hcallee⟩ := h.real "main.py::main" List.mem_cons_self
  rw [List.mem_singleton.mp he] at hcallee
  have hchars := congrArg String.toList (Option.some.inj hcallee)
  rw [String.toList_append, String.toList_append] at hchars
  have hsecond := congrArg (fun chars => chars[1]?) hchars
  revert hsecond
  simp [callOf]

end Wildcard

end RemyCC.Hook
