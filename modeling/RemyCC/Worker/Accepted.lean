import RemyCC.Worker.Agreement

/-!
# Which outputs a job succeeds on

Over any bytes from the pipe: a job succeeds exactly if known progress events
come before one last line, and that line is, up to the order of keys, the text
of a result that has not failed and goes with the exit code.
-/

namespace RemyCC.Worker

open Json (Value)
open Json.Value Text Scheduler Server

section Fields

variable {v : Value} {fields : List (String × Value)} {key : String}

theorem asObject_eq_some (h : v.asObject = some fields) : v = .obj fields := by
  cases v <;> first | (cases h; rfl) | cases h

theorem asStr_eq_some {s : String} (h : v.asStr = some s) : v = .str s := by
  cases v <;> first | (cases h; rfl) | cases h

theorem asArray_eq_some {items : List Value} (h : v.asArray = some items) : v = .arr items := by
  cases v <;> first | (cases h; rfl) | cases h

theorem isStr_eq (h : v.isStr = true) : ∃ s, v = .str s := by
  obtain ⟨s, hs⟩ := Option.isSome_iff_exists.mp h
  exact ⟨s, asStr_eq_some hs⟩

theorem get_obj (fields : List (String × Value)) (key : String) :
    (Value.obj fields).get key = field fields key := rfl

theorem hasExactKeys_iff {expected : List String} : hasExactKeys v expected = true ↔
    ∃ fields, v = .obj fields ∧ fields.length = expected.length ∧
      ∀ key ∈ expected, (field fields key).isSome := by
  unfold hasExactKeys
  cases hobj : v.asObject with
  | none =>
    refine iff_of_false Bool.false_ne_true ?_
    rintro ⟨fields, rfl, -⟩
    cases hobj
  | some fields =>
    simp only [Bool.and_eq_true, beq_iff_eq, List.all_eq_true]
    constructor
    · exact fun h => ⟨fields, asObject_eq_some hobj, h⟩
    · rintro ⟨fields', rfl, h⟩
      cases hobj
      exact h

theorem field_of_str {name : String} (h : (field fields key).bind Value.asStr = some name) :
    field fields key = some (.str name) := by
  obtain ⟨w, hfield, hstr⟩ := Option.bind_eq_some_iff.mp h
  rw [hfield, asStr_eq_some hstr]

end Fields

section Errors

theorem validError_alike {item : Value} (h : validError item = true) :
    ∃ e, Alike item (errorJson e) := by
  unfold validError at h
  simp only [Bool.and_eq_true] at h
  obtain ⟨⟨⟨hkeys, hstage⟩, hpath⟩, hmessage⟩ := h
  obtain ⟨fields, rfl, hlength, hall⟩ := hasExactKeys_iff.mp hkeys
  obtain ⟨stage, hstage, hs⟩ := (Option.any_eq_true _ _).mp hstage
  obtain ⟨path, hpath, hp⟩ := (Option.any_eq_true _ _).mp hpath
  obtain ⟨message, hmessage, hm⟩ := (Option.any_eq_true _ _).mp hmessage
  obtain ⟨stage, rfl⟩ := isStr_eq hs
  obtain ⟨message, rfl⟩ := isStr_eq hm
  have hpathJson : ∃ p, path = pathJson p := by
    rcases Bool.or_eq_true _ _ ▸ hp with hnull | hstr
    · cases path <;> first | exact ⟨none, rfl⟩ | cases hnull
    · obtain ⟨p, rfl⟩ := isStr_eq hstr
      exact ⟨some p, rfl⟩
  obtain ⟨p, rfl⟩ := hpathJson
  have hperm : (fields.map Prod.fst).Perm errorKeys := keys_perm_of_all (by decide) hlength hall
  refine ⟨⟨stage, p, message⟩, Alike.of_keys hperm ?_⟩
  intro key hkey
  simp only [List.map_cons, List.map_nil, List.mem_cons, List.not_mem_nil, or_false] at hkey
  rcases hkey with rfl | rfl | rfl
  · rw [← get_obj, hstage]
    exact .some (.refl _)
  · rw [← get_obj, hpath]
    exact .some (.refl _)
  · rw [← get_obj, hmessage]
    exact .some (.refl _)

theorem hasExactKeys_of_alike {fields fields' : List (String × Value)} {expected : List String}
    (hkeyed : Keyed fields) (hkeyed' : Keyed fields') (hexpected : fields'.map Prod.fst = expected)
    (h : ∀ key, Option.Rel Alike (field fields key) (field fields' key)) :
    hasExactKeys (.obj fields) expected = true := by
  have hmem := Alike.keys_mem_iff h
  refine hasExactKeys_iff.mpr ⟨fields, rfl, ?_, fun key hkey => ?_⟩
  · have hlength := (keys_perm_of_mem_iff hkeyed hkeyed' hmem).length_eq
    rwa [List.length_map, hexpected] at hlength
  · rw [field_isSome_iff, hmem key, hexpected]
    exact hkey

theorem validError_of_alike {item : Value} {e : StageError} (hwell : wellKeyed item = true)
    (h : Alike item (errorJson e)) : validError item = true := by
  obtain ⟨fields, rfl, hfields⟩ := h.of_obj
  have hkeys : hasExactKeys (.obj fields) errorKeys = true :=
    hasExactKeys_of_alike (wellKeyed_keyed hwell) (by simp [Keyed]) rfl hfields
  obtain ⟨stage, hstage, hs⟩ := Alike.field_eq_some (v := .str e.stage) (hfields "stage")
  obtain ⟨path, hpath, hp⟩ := Alike.field_eq_some (v := pathJson e.path) (hfields "path")
  obtain ⟨message, hmessage, hm⟩ := Alike.field_eq_some (v := .str e.message) (hfields "message")
  have hpathAny : (path.isNull || path.isStr) = true := by
    cases hpathJson : e.path with
    | none =>
      rw [hpathJson] at hp
      rw [hp.null_eq]
      rfl
    | some p =>
      rw [hpathJson] at hp
      rw [Alike.str_eq (s := p) hp]
      rfl
  unfold validError
  rw [hkeys, get_obj, get_obj, get_obj, hstage, hpath, hmessage, hs.str_eq, hm.str_eq]
  simp only [Option.any_some, hpathAny]
  rfl

theorem validErrorArray_alike {items : List Value} (h : items.all validError = true) :
    ∃ errors : List StageError, List.Forall₂ Alike items (errors.map errorJson) := by
  induction items with
  | nil => exact ⟨[], .nil⟩
  | cons item items ih =>
    rw [List.all_cons, Bool.and_eq_true] at h
    obtain ⟨e, he⟩ := validError_alike h.1
    obtain ⟨errors, herrors⟩ := ih h.2
    exact ⟨e :: errors, .cons he herrors⟩

theorem validErrorArray_of_alike {items : List Value} {errors : List StageError}
    (hwell : ∀ item ∈ items, wellKeyed item = true)
    (h : List.Forall₂ Alike items (errors.map errorJson)) : items.all validError = true := by
  induction errors generalizing items with
  | nil =>
    rw [List.forall₂_nil_right_iff.mp h]
    rfl
  | cons e errors ih =>
    obtain ⟨item, rest, hitem, hrest, rfl⟩ := List.forall₂_cons_right_iff.mp h
    obtain ⟨hfirst, hwell⟩ := List.forall_mem_cons.mp hwell
    rw [List.all_cons, validError_of_alike hfirst hitem, ih hwell hrest]
    rfl

end Errors

section Result

variable {fields : List (String × Value)}

theorem at_obj_eq {key : String} {v : Value} (h : at_ (.obj fields) key = v) (hv : v ≠ .null) :
    field fields key = some v := by
  have hget : (field fields key).getD .null = v := h
  cases hfield : field fields key with
  | none =>
    rw [hfield] at hget
    exact absurd hget.symm hv
  | some w =>
    rw [hfield] at hget
    exact congrArg some hget

theorem validStringArray_paths {v : Value} (h : validStringArray v = true) :
    ∃ paths, v = pathsJson paths := by
  unfold validStringArray at h
  cases harr : v.asArray with
  | none =>
    rw [harr] at h
    cases h
  | some items =>
    rw [harr, Option.any_some, List.all_eq_true] at h
    rw [asArray_eq_some harr]
    clear harr
    induction items with
    | nil => exact ⟨[], rfl⟩
    | cons item items ih =>
      obtain ⟨hitem, hitems⟩ := List.forall_mem_cons.mp h
      obtain ⟨s, rfl⟩ := isStr_eq hitem
      obtain ⟨paths, hpaths⟩ := ih hitems
      exact ⟨s :: paths, congrArg Value.arr (congrArg (.str s :: ·) (Value.arr.inj hpaths))⟩

theorem validErrorArray_items {v : Value} (h : validErrorArray v = true) :
    ∃ items, v = .arr items ∧ items.all validError = true := by
  unfold validErrorArray at h
  cases harr : v.asArray with
  | none =>
    rw [harr] at h
    cases h
  | some items =>
    rw [harr, Option.any_some] at h
    exact ⟨items, asArray_eq_some harr, h⟩

theorem isBool_eq {v : Value} (h : v.isBool = true) : ∃ b, v = .bool b := by
  cases v <;> first | exact ⟨_, rfl⟩ | cases h

theorem asU64_one {v : Value} (h : v.asU64 = some 1) : v = .int 1 := by
  cases v with
  | int n =>
    by_cases hrange : 0 ≤ n ∧ n < 2 ^ 64
    · have hnat : some n.toNat = some 1 := (if_pos hrange).symm.trans h
      rw [show n = 1 by
        have := Option.some.inj hnat
        omega]
    · exact absurd ((if_neg hrange).symm.trans h) (by decide)
  | _ => cases h

theorem status_of_name {name : String} (h : outcomeNames.contains name = true) :
    ∃ status : RunStatus, status.value = name := by
  simp only [outcomeNames, List.contains_eq_mem, List.mem_cons, List.not_mem_nil, or_false,
    decide_eq_true_eq] at h
  rcases h with rfl | rfl | rfl
  · exact ⟨.success, rfl⟩
  · exact ⟨.partially, rfl⟩
  · exact ⟨.failed, rfl⟩

/-- What passes the checks is the text of a result, up to the order of keys. -/
theorem validScanResult_alike {v : Value} (hkeys : hasExactKeys v resultKeys = true)
    (htype : (v.get "type").bind Value.asStr = some "scan_result")
    (hvalid : validScanResult v = true) :
    ∃ r : ScanResult, Alike v r.toJson ∧
      (v.get "outcome").bind Value.asStr = some r.status.value := by
  obtain ⟨fields, rfl, hlength, hall⟩ := hasExactKeys_iff.mp hkeys
  have hperm : (fields.map Prod.fst).Perm resultKeys := keys_perm_of_all (by decide) hlength hall
  unfold validScanResult at hvalid
  simp only [Bool.and_eq_true, beq_iff_eq] at hvalid
  obtain ⟨⟨⟨⟨⟨⟨houtcome, hversion⟩, hsuccessful⟩, hfailed⟩, hdeleted⟩, hpost⟩, herrors⟩ := hvalid
  obtain ⟨name, hname, hnames⟩ := (Option.any_eq_true _ _).mp houtcome
  obtain ⟨status, rfl⟩ := status_of_name hnames
  obtain ⟨version, hversion, hone⟩ := Option.bind_eq_some_iff.mp hversion
  obtain ⟨successful, hsuccessful⟩ := validStringArray_paths hsuccessful
  obtain ⟨failed, hfailed⟩ := validStringArray_paths hfailed
  obtain ⟨deleted, hdeleted⟩ := validStringArray_paths hdeleted
  obtain ⟨post, hpost⟩ := isBool_eq hpost
  obtain ⟨items, herrors, hitems⟩ := validErrorArray_items herrors
  obtain ⟨errors, halike⟩ := validErrorArray_alike hitems
  refine ⟨⟨status, [], successful, failed, deleted, errors, post⟩, Alike.of_keys hperm ?_, hname⟩
  intro key hkey
  simp only [List.map_cons, List.map_nil, List.mem_cons, List.not_mem_nil, or_false] at hkey
  rcases hkey with rfl | rfl | rfl | rfl | rfl | rfl | rfl | rfl
  · rw [field_of_str htype]
    exact .some (.refl _)
  · rw [get_obj] at hversion
    rw [hversion, asU64_one hone]
    exact .some (.refl _)
  · rw [field_of_str hname]
    exact .some (.refl _)
  · rw [at_obj_eq hsuccessful Value.noConfusion]
    exact .some (.refl _)
  · rw [at_obj_eq hfailed Value.noConfusion]
    exact .some (.refl _)
  · rw [at_obj_eq hdeleted Value.noConfusion]
    exact .some (.refl _)
  · rw [at_obj_eq hpost Value.noConfusion]
    exact .some (.refl _)
  · rw [at_obj_eq herrors Value.noConfusion]
    exact .some (.arr halike)

theorem resultKeys_nodup (r : ScanResult) : ∀ fields, r.toJson = .obj fields → Keyed fields := by
  intro fields h
  cases h
  simp [Keyed]

theorem validStringArray_of_alike {v : Value} {paths : List String}
    (h : Alike v (pathsJson paths)) : validStringArray v = true := by
  rw [show v = pathsJson paths from h.strings_eq]
  exact pathsJson_valid paths

/-- Every text of a result passes the checks, whatever the order of its keys. -/
theorem valid_of_alike {v : Value} {r : ScanResult} (hwell : wellKeyed v = true)
    (h : Alike v r.toJson) : (v.get "type").bind Value.asStr = some "scan_result" ∧
      hasExactKeys v resultKeys = true ∧ validScanResult v = true ∧
        (v.get "outcome").bind Value.asStr = some r.status.value := by
  obtain ⟨fields, rfl, hfields⟩ := h.of_obj
  have hkeys : hasExactKeys (.obj fields) resultKeys = true :=
    hasExactKeys_of_alike (wellKeyed_keyed hwell) (resultKeys_nodup r _ rfl) rfl hfields
  obtain ⟨type, htype, hty⟩ := Alike.field_eq_some (v := .str "scan_result") (hfields "type")
  obtain ⟨version, hversion, hv⟩ := Alike.field_eq_some (v := .int 1) (hfields "schema_version")
  obtain ⟨outcome, houtcome, ho⟩ :=
    Alike.field_eq_some (v := .str r.status.value) (hfields "outcome")
  obtain ⟨successful, hsuccessful, hs⟩ :=
    Alike.field_eq_some (v := pathsJson r.successfulPaths) (hfields "successful_paths")
  obtain ⟨failed, hfailed, hf⟩ :=
    Alike.field_eq_some (v := pathsJson r.failedPaths) (hfields "failed_paths")
  obtain ⟨deleted, hdeleted, hd⟩ :=
    Alike.field_eq_some (v := pathsJson r.deletedPaths) (hfields "deleted_paths")
  obtain ⟨post, hpost, hp⟩ :=
    Alike.field_eq_some (v := .bool r.postprocessComplete) (hfields "postprocess_complete")
  obtain ⟨errors, herrors, he⟩ :=
    Alike.field_eq_some (v := .arr (r.errors.map errorJson)) (hfields "errors")
  obtain ⟨items, rfl, hitems⟩ := he.items
  have hwellItems : ∀ item ∈ items, wellKeyed item = true :=
    Json.wellKeyedItems_iff.mp (wellKeyed_field hwell herrors)
  have hname : outcomeNames.contains r.status.value = true := by
    cases r.status <;> rfl
  refine ⟨?_, hkeys, ?_, ?_⟩
  · rw [get_obj, htype, hty.str_eq]
    rfl
  · unfold validScanResult at_
    simp only [get_obj, houtcome, hversion, hsuccessful, hfailed, hdeleted, hpost, herrors,
      ho.str_eq, hv.int_eq, hp.bool_eq, Option.getD_some, validStringArray_of_alike hs,
      validStringArray_of_alike hf, validStringArray_of_alike hd]
    have herrorsValid : validErrorArray (.arr items) = true :=
      validErrorArray_of_alike hwellItems hitems
    rw [herrorsValid, Bool.and_true]
    simp only [Option.bind_some, Value.asStr, Option.any_some, hname]
    rfl
  · rw [get_obj, houtcome, ho.str_eq]
    rfl

end Result

section Lines

variable {o : Outside} {code : Option Int} {stderr : Captured} {v : Value}

/-- The fields of a progress event the supervisor knows. -/
structure ProgressFields (fields : List (String × Value)) : Prop where
  type : field fields "type" = some (.str "progress")
  stage : ∃ stage ∈ progressStages, field fields "stage" = some (.str stage)
  known : ∀ f ∈ fields, f.1 ∈ progressKeys

theorem validProgressLine_iff {value : Value} :
    ((value.get "type").bind Value.asStr = some "progress" ∧ validProgressLine value = true) ↔
      ∃ fields, value = .obj fields ∧ ProgressFields fields := by
  unfold validProgressLine
  cases hobj : value.asObject with
  | none =>
    refine iff_of_false (fun h => Bool.false_ne_true h.2) ?_
    rintro ⟨fields, rfl, -⟩
    cases hobj
  | some fields =>
    rw [asObject_eq_some hobj]
    simp only [Bool.and_eq_true, List.all_eq_true, List.contains_iff_mem, get_obj]
    constructor
    · rintro ⟨htype, hknown, hstage⟩
      obtain ⟨stage, hstage, hmem⟩ := (Option.any_eq_true _ _).mp hstage
      exact ⟨fields, rfl, field_of_str htype,
        ⟨stage, List.contains_iff_mem.mp hmem, field_of_str hstage⟩, hknown⟩
    · rintro ⟨fields', heq, htype, ⟨stage, hmem, hstage⟩, hknown⟩
      cases heq
      rw [htype, hstage]
      exact ⟨rfl, hknown, List.contains_iff_mem.mpr hmem⟩

theorem judgeResult_succeeded_iff {result : Value} :
    judgeResult o code stderr result = .succeeded v ↔ result = v ∧ validScanResult v = true ∧
      ((code = some 0 ∧ (v.get "outcome").bind Value.asStr = some "success") ∨
        (code = some 2 ∧ (v.get "outcome").bind Value.asStr = some "partial")) := by
  unfold judgeResult
  by_cases hvalid : validScanResult result = true
  · rw [if_pos hvalid]
    dsimp only
    split
    · next hpair =>
      constructor
      · intro h
        cases h
        exact ⟨rfl, hvalid, hpair⟩
      · rintro ⟨rfl, -, -⟩
        rfl
    · next hpair =>
      refine iff_of_false WorkerOutcome.noConfusion ?_
      rintro ⟨rfl, -, h⟩
      exact hpair h
  · rw [if_neg hvalid]
    refine iff_of_false WorkerOutcome.noConfusion ?_
    rintro ⟨rfl, h, -⟩
    exact hvalid h

/-- Behind the result no further line is taken. -/
theorem evaluateLines_after (result : Value) (lines : List String) :
    evaluateLines o code stderr (some result) lines = .ok (.succeeded v) ↔
      lines = [] ∧ judgeResult o code stderr result = .succeeded v := by
  cases lines with
  | nil => simp [evaluateLines]
  | cons line rest =>
    refine iff_of_false ?_ fun h => List.cons_ne_nil _ _ h.1
    rw [evaluateLines]
    cases Json.parse line with
    | none =>
      intro h
      cases h
    | some value =>
      simp only [Option.isNone_some, Bool.false_eq_true, and_false, false_and, if_false]
      intro h
      cases h

/-- A list that ends in one item and is not empty before it, seen from its first item. -/
theorem exists_concat_cons {α : Type} {P Q : α → Prop} (a : α) (rest : List α) :
    (∃ init last, a :: rest = init ++ [last] ∧ (∀ b ∈ init, P b) ∧ Q last) ↔
      (rest = [] ∧ Q a) ∨ (P a ∧ ∃ init last, rest = init ++ [last] ∧ (∀ b ∈ init, P b) ∧
        Q last) := by
  constructor
  · rintro ⟨init, last, heq, hinit, hlast⟩
    cases init with
    | nil =>
      obtain ⟨rfl, rfl⟩ := List.cons.inj heq
      exact .inl ⟨rfl, hlast⟩
    | cons b init =>
      obtain ⟨rfl, rfl⟩ := List.cons.inj heq
      obtain ⟨hb, hinit⟩ := List.forall_mem_cons.mp hinit
      exact .inr ⟨hb, init, last, rfl, hinit, hlast⟩
  · rintro (⟨rfl, h⟩ | ⟨ha, init, last, rfl, hinit, hlast⟩)
    · exact ⟨[], a, rfl, List.forall_mem_nil _, h⟩
    · exact ⟨a :: init, last, rfl, List.forall_mem_cons.mpr ⟨ha, hinit⟩, hlast⟩

def IsEvent (line : String) : Prop :=
  ∃ fields, Json.parse line = some (.obj fields) ∧ ProgressFields fields

theorem isEvent_iff {line : String} {value : Value} (h : Json.parse line = some value) :
    IsEvent line ↔ (value.get "type").bind Value.asStr = some "progress" ∧
      validProgressLine value = true := by
  rw [validProgressLine_iff]
  constructor
  · rintro ⟨fields, hparse, hfields⟩
    rw [h] at hparse
    exact ⟨fields, Option.some.inj hparse, hfields⟩
  · rintro ⟨fields, rfl, hfields⟩
    exact ⟨fields, h, hfields⟩

/-- The last line of an output a job succeeds on. -/
structure IsLast (o : Outside) (code : Option Int) (stderr : Captured) (v : Value)
    (line : String) : Prop where
  parse : Json.parse line = some v
  type : (v.get "type").bind Value.asStr = some "scan_result"
  keys : hasExactKeys v resultKeys = true
  judged : judgeResult o code stderr v = .succeeded v

theorem evaluateLines_succeeded_iff (lines : List String) :
    evaluateLines o code stderr none lines = .ok (.succeeded v) ↔
      ∃ events last, lines = events ++ [last] ∧ (∀ line ∈ events, IsEvent line) ∧
        IsLast o code stderr v last := by
  induction lines with
  | nil =>
    refine iff_of_false ?_ ?_
    · rw [evaluateLines]
      intro h
      cases h
    · rintro ⟨events, last, h, -⟩
      exact absurd h.symm (by simp)
  | cons line rest ih =>
    rw [exists_concat_cons, ← ih, evaluateLines]
    cases hparse : Json.parse line with
    | none =>
      have hevent : ¬ IsEvent line := by
        rintro ⟨fields, h, -⟩
        rw [hparse] at h
        cases h
      have hlast : ¬ IsLast o code stderr v line := fun h => by
        cases hparse.symm.trans h.parse
      simp only [hevent, hlast, and_false, false_and, or_self, iff_false]
      intro h
      cases h
    | some value =>
      have hvalue : ∀ h : IsLast o code stderr v line, value = v := fun h =>
        Option.some.inj (hparse.symm.trans h.parse)
      simp only [isEvent_iff hparse, Option.isNone_none, and_true, true_and]
      by_cases hprogress : (value.get "type").bind Value.asStr = some "progress"
      · have hlast : ¬ IsLast o code stderr v line := fun h => by
          have htype := h.type
          rw [← hvalue h, hprogress] at htype
          exact absurd htype (by decide)
        simp only [hprogress, hlast, if_true, and_false, false_or, true_and]
        split
        · next hvalid => simp only [hvalid, true_and]
        · next hvalid =>
          simp only [hvalid, Bool.false_eq_true, false_and, iff_false]
          intro h
          cases h
      · simp only [hprogress, if_false, false_and, or_false]
        split
        · next hresult =>
          rw [evaluateLines_after]
          refine and_congr_right fun _ => ⟨fun h => ?_, fun h => hvalue h ▸ h.judged⟩
          obtain ⟨rfl, -⟩ := judgeResult_succeeded_iff.mp h
          exact ⟨hparse, hresult.1, hresult.2, h⟩
        · next hresult =>
          refine iff_of_false (fun h => by cases h) fun h => hresult ?_
          have hv := hvalue h.2
          rw [hv]
          exact ⟨h.2.type, h.2.keys⟩

/-- A job succeeds on an output as the text of a result: on the bytes `bytes`, with `v`. -/
structure Accepted (code : Option Int) (bytes : List UInt8) (v : Value) : Prop where
  limit : bytes.length ≤ OUTPUT_LIMIT
  lines : ∃ text events last, text? bytes = some text ∧ textLines text = events ++ [last] ∧
    (∀ line ∈ events, IsEvent line) ∧ Json.parse last = some v
  result : ∃ r : ScanResult, Alike v r.toJson ∧ r.status ≠ .failed ∧ code = some r.status.exitCode

theorem isLast_iff {line : String} : IsLast o code stderr v line ↔ Json.parse line = some v ∧
    ∃ r : ScanResult, Alike v r.toJson ∧ r.status ≠ .failed ∧ code = some r.status.exitCode := by
  constructor
  · intro h
    obtain ⟨-, hvalid, hpair⟩ := judgeResult_succeeded_iff.mp h.judged
    obtain ⟨r, hr, houtcome⟩ := validScanResult_alike h.keys h.type hvalid
    refine ⟨h.parse, r, hr, ?_⟩
    rw [houtcome] at hpair
    cases hstatus : r.status with
    | success =>
      rw [hstatus] at hpair
      rcases hpair with ⟨hcode, -⟩ | ⟨-, hname⟩
      · exact ⟨by decide, hcode⟩
      · exact absurd hname (by decide)
    | partially =>
      rw [hstatus] at hpair
      rcases hpair with ⟨-, hname⟩ | ⟨hcode, -⟩
      · exact absurd hname (by decide)
      · exact ⟨by decide, hcode⟩
    | failed =>
      rw [hstatus] at hpair
      rcases hpair with ⟨-, hname⟩ | ⟨-, hname⟩ <;> exact absurd hname (by decide)
  · rintro ⟨hparse, r, hr, hstatus, rfl⟩
    obtain ⟨htype, hkeys, hvalid, houtcome⟩ := valid_of_alike (Json.parse_wellKeyed hparse) hr
    refine ⟨hparse, htype, hkeys, judgeResult_succeeded_iff.mpr ⟨rfl, hvalid, ?_⟩⟩
    rw [houtcome]
    exact (exit_matches r.status).mpr hstatus

theorem evaluate_succeeded_iff (o : Outside) (code : Option Int) (stderr : Captured) (jobId : Int)
    (bytes : List UInt8) (v : Value) :
    evaluate o code stderr (readStdout jobId bytes).1 = .ok (.succeeded v) ↔
      Accepted code bytes v := by
  rw [readStdout_captured]
  by_cases hlimit : OUTPUT_LIMIT < bytes.length
  · refine iff_of_false ?_ fun h => absurd h.limit (Nat.not_le.mpr hlimit)
    unfold evaluate
    rw [if_pos (by exact decide_eq_true hlimit)]
    intro h
    cases h
  · have hle := Nat.not_lt.mp hlimit
    have hcaptured : captured bytes = ⟨bytes, false⟩ := by
      rw [captured, List.take_of_length_le hle, decide_eq_false hlimit]
    unfold evaluate
    rw [hcaptured]
    simp only [Bool.false_eq_true, if_false]
    cases htext : text? bytes with
    | none =>
      refine iff_of_false (fun h => by cases h) ?_
      rintro ⟨-, ⟨text, events, last, h, -⟩, -⟩
      rw [htext] at h
      cases h
    | some text =>
      simp only [evaluateLines_succeeded_iff, isLast_iff]
      constructor
      · rintro ⟨events, last, hlines, hevents, hparse, hresult⟩
        exact ⟨hle, ⟨text, events, last, htext, hlines, hevents, hparse⟩, hresult⟩
      · rintro ⟨-, ⟨text', events, last, h, hlines, hevents, hparse⟩, hresult⟩
        cases htext.symm.trans h
        exact ⟨events, last, hlines, hevents, hparse, hresult⟩

end Lines

end RemyCC.Worker
