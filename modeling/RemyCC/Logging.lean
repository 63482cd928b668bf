import RemyCC.Json.Keys
import RemyCC.Json.Print
import RemyCC.Json.Shape
import RemyCC.Server.Framing
import RemyCC.Server.Replies

/-!
# The log of the daemon

A record is appended as one line of JSON, and a file that would grow beyond the
limit is set aside first, in the place of the one set aside before. The calls
come one after the other, and any of the operations on the files may fail.

As long as no append breaks off in a line, the two files hold the latest records
that were written, in their order and each on a line of its own. Where nothing
fails, a record is only given up when the two files together hold more than the
limit.
-/

namespace RemyCC.Logging

open Json (Value Printable)
open Server

structure LogCall where
  level : String
  event : String
  extra : Value

/-- What a call meets: the time, the process, and which operations on the files
fail; an append that fails has written some of the bytes. -/
structure Moment where
  ts : UInt64
  pid : UInt32
  statFails : Bool
  removeFails : Bool
  renameFails : Bool
  openFails : Bool
  cut : Option Nat

def record (moment : Moment) (call : LogCall) : Value :=
  let fields := [("ts", .int moment.ts.toNat), ("level", .str call.level),
    ("event", .str call.event), ("pid", .int moment.pid.toNat)]
  match call.extra with
  | .obj extra => .obj (extra.foldl (fun fields f => Value.setField f.1 f.2 fields) fields)
  | _ => .obj fields

def entryLine (v : Value) : Written where
  text := Json.print v
  crlf := false

/-- The files `daemon.log` and `daemon.log.1`. -/
structure Files where
  path : Option (List UInt8)
  rotatedPath : Option (List UInt8)

def rename (moment : Moment) (files : Files) : Files × Bool :=
  if moment.renameFails then (files, false)
  else ({ path := none, rotatedPath := files.path }, true)

/-- The second component tells whether the call goes on. -/
def rotateIfNeeded (maxBytes : Nat) (moment : Moment) (incoming : Nat) (files : Files) :
    Files × Bool :=
  match files.path with
  | none => (files, true)
  | some current =>
    if moment.statFails then (files, true)
    else if current.length = 0 ∨ current.length + incoming ≤ maxBytes then (files, true)
    else match files.rotatedPath with
      | none => rename moment files
      | some _ =>
        if moment.removeFails then (files, false)
        else rename moment { files with rotatedPath := none }

def log (maxBytes : Nat) (moment : Moment) (call : LogCall) (files : Files) : Files × Bool :=
  let line := (entryLine (record moment call)).bytes
  let rotated := rotateIfNeeded maxBytes moment line.length files
  if rotated.2 = false ∨ moment.openFails then (rotated.1, false)
  else
    let current := rotated.1.path.getD []
    match moment.cut with
    | none => ({ rotated.1 with path := some (current ++ line) }, true)
    | some n => ({ rotated.1 with path := some (current ++ line.take n) }, false)

/-- The files after the calls, and the records of those that succeeded. -/
def logRun (maxBytes : Nat) : List (Moment × LogCall) → Files → Files × List Value
  | [], files => (files, [])
  | (moment, call) :: calls, files =>
    let logged := log maxBytes moment call files
    let rest := logRun maxBytes calls logged.1
    (rest.1, (if logged.2 then [record moment call] else []) ++ rest.2)

/-- The records that were written: those that are gone, those in the file that
is set aside, and those in the current one. -/
structure Journal where
  lost : List Value
  older : List Value
  newer : List Value

namespace Journal

def empty : Journal := ⟨[], [], []⟩

def all (j : Journal) : List Value := j.lost ++ (j.older ++ j.newer)

/-- The current file is set aside. -/
def turn (j : Journal) : Journal := ⟨j.lost ++ j.older, j.newer, []⟩

/-- The file that is set aside is removed. -/
def drop (j : Journal) : Journal := ⟨j.lost ++ j.older, [], j.newer⟩

def add (v : Value) (j : Journal) : Journal := ⟨j.lost, j.older, j.newer ++ [v]⟩

theorem turn_all (j : Journal) : j.turn.all = j.all := by simp [all, turn]

theorem drop_all (j : Journal) : j.drop.all = j.all := by simp [all, drop]

theorem add_all (v : Value) (j : Journal) : (j.add v).all = j.all ++ [v] := by simp [all, add]

end Journal

section Bytes

def recordBytes (records : List Value) : List UInt8 := (records.map entryLine).flatMap Written.bytes

theorem recordBytes_append (records : List Value) (v : Value) :
    recordBytes (records ++ [v]) = recordBytes records ++ (entryLine v).bytes := by
  simp [recordBytes]

theorem recordBytes_eq_nil {records : List Value} : recordBytes records = [] ↔ records = [] := by
  cases records <;> simp [recordBytes, Written.bytes]

/-- A file is within the limit, but for a record that has it to itself. -/
def Sized (maxBytes : Nat) (records : List Value) : Prop :=
  records.length ≤ 1 ∨ (recordBytes records).length ≤ maxBytes

def Journal.Sized (maxBytes : Nat) (j : Journal) : Prop :=
  Logging.Sized maxBytes j.older ∧ Logging.Sized maxBytes j.newer

/-- Nothing is gone, or what is left exceeds the limit. -/
def Journal.Retained (maxBytes : Nat) (j : Journal) : Prop :=
  j.lost = [] ∨ maxBytes < (recordBytes j.older).length + (recordBytes j.newer).length

end Bytes

section Steps

/-- The files hold the journal. -/
structure Holds (j : Journal) (files : Files) : Prop where
  path : files.path.getD [] = recordBytes j.newer
  rotatedPath : files.rotatedPath = if j.older = [] then none else some (recordBytes j.older)

variable {maxBytes incoming : Nat} {moment : Moment} {call : LogCall} {files : Files} {j : Journal}

theorem Holds.renamed (hholds : Holds j files) (hnewer : j.newer ≠ []) (hpath : files.path ≠ none) :
    Holds j.turn { path := none, rotatedPath := files.path } := by
  obtain ⟨current, hcurrent⟩ := Option.ne_none_iff_exists'.mp hpath
  have hbytes := hholds.path
  rw [hcurrent, Option.getD_some] at hbytes
  refine ⟨rfl, ?_⟩
  rw [hcurrent, hbytes, Journal.turn, if_neg hnewer]

theorem Holds.removed (hholds : Holds j files) :
    Holds j.drop { files with rotatedPath := none } := ⟨hholds.path, rfl⟩

/-- What a rotation makes of the journal: nothing; or the older file is gone and the current one
cannot take its place; or it has, because the line did not fit. -/
inductive Rotated (maxBytes incoming : Nat) (moment : Moment) (j : Journal) :
    Journal → Bool → Prop
  | fits (h : moment.statFails = false →
      j.newer = [] ∨ (recordBytes j.newer).length + incoming ≤ maxBytes) :
      Rotated maxBytes incoming moment j j true
  | failed : Rotated maxBytes incoming moment j j false
  | dropped (h : moment.renameFails = true) : Rotated maxBytes incoming moment j j.drop false
  | turned (h : maxBytes < (recordBytes j.newer).length + incoming) :
      Rotated maxBytes incoming moment j j.turn true

theorem rotateIfNeeded_cases (hholds : Holds j files) :
    ∃ j', Holds j' (rotateIfNeeded maxBytes moment incoming files).1 ∧
      Rotated maxBytes incoming moment j j' (rotateIfNeeded maxBytes moment incoming files).2 := by
  unfold rotateIfNeeded
  cases hpath : files.path with
  | none =>
    have hnewer : j.newer = [] := by
      rw [← recordBytes_eq_nil, ← hholds.path, hpath, Option.getD_none]
    exact ⟨j, hholds, .fits fun _ => .inl hnewer⟩
  | some current =>
    have hcurrent : current = recordBytes j.newer := by
      rw [← hholds.path, hpath, Option.getD_some]
    subst hcurrent
    simp only
    split
    · next hstat => exact ⟨j, hholds, .fits fun h => by rw [h] at hstat; cases hstat⟩
    · split
      · next hfits =>
        refine ⟨j, hholds, .fits fun _ => hfits.imp_left fun hzero => ?_⟩
        exact recordBytes_eq_nil.mp (List.length_eq_zero_iff.mp hzero)
      · next hover =>
        obtain ⟨hzero, hlong⟩ := not_or.mp hover
        have hnewer : j.newer ≠ [] := by
          rintro hnil
          exact hzero (by rw [hnil]; rfl)
        have hturned := hholds.renamed hnewer (by rw [hpath]; exact Option.some_ne_none _)
        unfold rename
        cases hrotated : files.rotatedPath with
        | none =>
          simp only
          split
          · exact ⟨j, hholds, .failed⟩
          · exact ⟨j.turn, hturned, .turned (Nat.not_le.mp hlong)⟩
        | some older =>
          have hremoved := hholds.removed
          rw [hpath] at hturned hremoved
          simp only
          split
          · exact ⟨j, hholds, .failed⟩
          · split
            · next hrename => exact ⟨j.drop, hremoved, .dropped hrename⟩
            · exact ⟨j.turn, hturned, .turned (Nat.not_le.mp hlong)⟩

theorem Holds.added (hholds : Holds j files) (v : Value) :
    Holds (j.add v) { files with path := some (files.path.getD [] ++ (entryLine v).bytes) } := by
  refine ⟨?_, hholds.rotatedPath⟩
  rw [Option.getD_some, hholds.path, Journal.add, recordBytes_append]

theorem Holds.opened (hholds : Holds j files) :
    Holds j { files with path := some (files.path.getD []) } :=
  ⟨hholds.path, hholds.rotatedPath⟩

/-- The append is whole, or nothing of it is written. -/
def Moment.Whole (moment : Moment) : Prop := ∀ n ∈ moment.cut, n = 0

/-- No operation on the files fails on the way to the append. -/
structure Moment.Smooth (moment : Moment) : Prop where
  rename : moment.renameFails = false
  opens : moment.openFails = false
  cut : moment.cut = none

/-- A call rotates the files or not, and then adds the record or not. -/
theorem log_cases (hholds : Holds j files) (hwhole : moment.Whole) :
    ∃ j' rotated, Rotated maxBytes (entryLine (record moment call)).bytes.length moment j j'
        rotated ∧
      (((log maxBytes moment call files).2 = true ∧ rotated = true ∧
          Holds (j'.add (record moment call)) (log maxBytes moment call files).1) ∨
        ((log maxBytes moment call files).2 = false ∧ (moment.Smooth → rotated = false) ∧
          Holds j' (log maxBytes moment call files).1)) := by
  obtain ⟨j', hholds', hrotated⟩ :=
    @rotateIfNeeded_cases maxBytes (entryLine (record moment call)).bytes.length moment files j
      hholds
  refine ⟨j', _, hrotated, ?_⟩
  unfold log
  simp only
  split
  · next hstops =>
    refine .inr ⟨rfl, fun hsmooth => ?_, hholds'⟩
    rw [hsmooth.opens] at hstops
    exact hstops.resolve_right Bool.false_ne_true
  · next hgoes =>
    obtain ⟨hgoes, -⟩ := not_or.mp hgoes
    cases hcut : moment.cut with
    | none => exact .inl ⟨rfl, Bool.not_eq_false _ ▸ hgoes, hholds'.added _⟩
    | some n =>
      refine .inr ⟨rfl, fun hsmooth => ?_, ?_⟩
      · rw [hsmooth.cut] at hcut
        cases hcut
      · have hzero : n = 0 := hwhole n hcut
        simp only [hzero, List.take_zero, List.append_nil]
        exact hholds'.opened

theorem Rotated.all {j' : Journal} {rotated : Bool}
    (h : Rotated maxBytes incoming moment j j' rotated) : j'.all = j.all := by
  cases h with
  | fits | failed => rfl
  | dropped => exact j.drop_all
  | turned => exact j.turn_all

theorem sized_nil : Sized maxBytes [] := .inl (Nat.zero_le 1)

theorem Rotated.sized {j' : Journal} {rotated : Bool}
    (h : Rotated maxBytes incoming moment j j' rotated) (hsized : j.Sized maxBytes) :
    j'.Sized maxBytes := by
  cases h with
  | fits | failed => exact hsized
  | dropped => exact ⟨sized_nil, hsized.2⟩
  | turned => exact ⟨hsized.2, sized_nil⟩

/-- A line that is added fits, or has the file to itself. -/
theorem Rotated.added_sized {j' : Journal} {v : Value}
    (h : Rotated maxBytes (entryLine v).bytes.length moment j j' true)
    (hstat : moment.statFails = false) (hsized : j.Sized maxBytes) :
    (j'.add v).Sized maxBytes := by
  refine ⟨(h.sized hsized).1, ?_⟩
  cases h with
  | fits hfits =>
    rw [Journal.add]
    rcases hfits hstat with hnil | hfits
    · rw [hnil]
      exact .inl le_rfl
    · refine .inr ?_
      rwa [recordBytes_append, List.length_append]
  | turned => exact .inl le_rfl

theorem Rotated.added_retained {j' : Journal} {v : Value}
    (h : Rotated maxBytes (entryLine v).bytes.length moment j j' true)
    (hretained : j.Retained maxBytes) : (j'.add v).Retained maxBytes := by
  cases h with
  | fits =>
    refine hretained.imp_right fun hlong => hlong.trans_le ?_
    simp only [Journal.add, recordBytes_append, List.length_append]
    omega
  | turned hlong =>
    refine .inr ?_
    rw [Journal.add, Journal.turn, recordBytes_append, List.length_append]
    exact hlong.trans_le (Nat.add_le_add_left (Nat.le_add_left _ _) _)

/-- A call keeps the files in step with the journal, and the journal's bounds. -/
theorem log_kept (hholds : Holds j files) (hwhole : moment.Whole) :
    ∃ j', Holds j' (log maxBytes moment call files).1 ∧
      j'.all = j.all ++
        (if (log maxBytes moment call files).2 then [record moment call] else []) ∧
      (moment.statFails = false → j.Sized maxBytes → j'.Sized maxBytes) ∧
      (moment.Smooth → j.Retained maxBytes → j'.Retained maxBytes) := by
  obtain ⟨j', rotated, hrotated, ⟨hok, rfl, hadded⟩ | ⟨hok, hsmooth, hheld⟩⟩ :=
    @log_cases maxBytes moment call files j hholds hwhole
  · refine ⟨_, hadded, ?_, hrotated.added_sized, fun _ => hrotated.added_retained⟩
    rw [Journal.add_all, hrotated.all, hok, if_pos rfl]
  · refine ⟨j', hheld, ?_, fun _ => hrotated.sized, fun hquiet hretained => ?_⟩
    · rw [hrotated.all, hok, if_neg Bool.false_ne_true, List.append_nil]
    · obtain rfl := hsmooth hquiet
      cases hrotated with
      | failed => exact hretained
      | dropped hrename =>
        rw [hquiet.rename] at hrename
        cases hrename

end Steps

section Runs

variable {maxBytes : Nat}

theorem logRun_kept (calls : List (Moment × LogCall)) {files : Files} {j : Journal}
    (hholds : Holds j files) (hwhole : ∀ c ∈ calls, c.1.Whole) :
    ∃ j', Holds j' (logRun maxBytes calls files).1 ∧
      j'.all = j.all ++ (logRun maxBytes calls files).2 ∧
      ((∀ c ∈ calls, c.1.statFails = false) → j.Sized maxBytes → j'.Sized maxBytes) ∧
      ((∀ c ∈ calls, c.1.Smooth) → j.Retained maxBytes → j'.Retained maxBytes) := by
  induction calls generalizing files j with
  | nil => exact ⟨j, hholds, (List.append_nil _).symm, fun _ h => h, fun _ h => h⟩
  | cons c calls ih =>
    obtain ⟨moment, call⟩ := c
    obtain ⟨hwhole, hwholes⟩ := List.forall_mem_cons.mp hwhole
    obtain ⟨j', hheld, hall, hsized, hretained⟩ := @log_kept maxBytes moment call files j hholds hwhole
    obtain ⟨j'', hheld', hall', hsized', hretained'⟩ := ih hheld hwholes
    refine ⟨j'', hheld', ?_, fun hstat h => ?_, fun hsmooth h => ?_⟩
    · rw [hall', hall, List.append_assoc]
      rfl
    · obtain ⟨hstat, hstats⟩ := List.forall_mem_cons.mp hstat
      exact hsized' hstats (hsized hstat h)
    · obtain ⟨hsmooth, hsmooths⟩ := List.forall_mem_cons.mp hsmooth
      exact hretained' hsmooths (hretained hsmooth h)

theorem record_printable {moment : Moment} {call : LogCall} (h : Printable 127 call.extra) :
    ∃ fields, record moment call = .obj fields ∧ Printable 127 (.obj fields) := by
  have hbase : ∀ f ∈ [("ts", Value.int moment.ts.toNat), ("level", .str call.level),
      ("event", .str call.event), ("pid", .int moment.pid.toNat)], Printable 126 f.2 := by
    have hts := moment.ts.toNat_lt
    have hpid := moment.pid.toNat_lt
    simp only [List.forall_mem_cons, List.not_mem_nil, false_implies, forall_const, and_true]
    exact ⟨.int (by omega) (by omega), .str _, .str _, .int (by omega) (by omega)⟩
  have hkeyed : Value.Keyed [("ts", Value.int moment.ts.toNat), ("level", .str call.level),
      ("event", .str call.event), ("pid", .int moment.pid.toNat)] := by
    simp [Value.Keyed]
  unfold record
  generalize [("ts", Value.int moment.ts.toNat), ("level", .str call.level),
    ("event", .str call.event), ("pid", .int moment.pid.toNat)] = base at hbase hkeyed
  cases hextra : call.extra with
  | obj extra =>
    rw [hextra] at h
    refine ⟨_, rfl, .obj (Json.foldl_setField_keyed extra hkeyed) fun f hf => ?_⟩
    cases h with
    | obj _ hfields => exact (Json.mem_foldl_setField hf).elim (hfields f) (hbase f)
  | _ => exact ⟨base, rfl, .obj hkeyed hbase⟩

theorem mem_logRun {calls : List (Moment × LogCall)} {files : Files} {v : Value}
    (h : v ∈ (logRun maxBytes calls files).2) : ∃ c ∈ calls, v = record c.1 c.2 := by
  induction calls generalizing files with
  | nil => cases h
  | cons c calls ih =>
    obtain ⟨moment, call⟩ := c
    rcases List.mem_append.mp h with h | h
    · split at h
      · exact ⟨(moment, call), List.mem_cons_self, List.mem_singleton.mp h⟩
      · cases h
    · obtain ⟨c, hc, heq⟩ := ih h
      exact ⟨c, List.mem_cons_of_mem _ hc, heq⟩

/-- What a reader finds in a file: line by line the values. -/
def readLog (bytes : List UInt8) : List (Option Value) :=
  (splitLines bytes).1.map fun line => (text? line).bind Json.parse

theorem readLog_recordBytes {records : List Value} (h : ∀ v ∈ records, Printable 127 v) :
    readLog (recordBytes records) = records.map some := by
  have hsplit : splitLines (recordBytes records) =
      (records.map fun v => bytesOf (Json.print v), []) := by
    induction records with
    | nil => rfl
    | cons v records ih =>
      obtain ⟨hv, hrecords⟩ := List.forall_mem_cons.mp h
      have hbytes : recordBytes (v :: records) =
          bytesOf (Json.print v) ++ lineFeed :: recordBytes records := by
        simp [recordBytes, entryLine, Written.bytes, Written.body]
      rw [hbytes, splitLines_append _ _ (feed_not_mem_printed hv.oneLine), ih hrecords]
      rfl
  rw [readLog, hsplit, List.map_map]
  refine List.map_congr_left fun v hv => ?_
  rw [Function.comp_apply, text?_bytesOf, Option.bind_some, Json.parse, Json.readText_print (h v hv)]

def calmMoment : Moment where
  ts := 1754000000000
  pid := 7
  statFails := false
  removeFails := false
  renameFails := false
  openFails := false
  cut := none

def fullMoment : Moment := { calmMoment with renameFails := true, cut := some 0 }

def daemonCall (event : String) : LogCall where
  level := "info"
  event := event
  extra := .obj [("version", .str "0.1.0")]

def daemonCalls : List (Moment × LogCall) :=
  [(calmMoment, daemonCall "daemon_started"), (fullMoment, daemonCall "residue_cleaned"),
    (calmMoment, daemonCall "jobs_recovered")]

end Runs

end RemyCC.Logging
