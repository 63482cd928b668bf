import RemyCC.Worker.Report
import Mathlib.Data.List.TakeWhile

/-!
# The stages a scan reports

The lock comes first and once, and what an arm reports beside the three stages
of every scan are the files of a full scan, at each 250th of them.
-/

namespace RemyCC.Worker

section Rules

variable {α β : Type} {x : Reports α} {f : α → Reports β} {P : Stage → Prop}

theorem bind_of_ok {a : α} (h : x.result = .ok a) :
    x >>= f = ⟨x.stages ++ (f a).stages, (f a).result⟩ := by
  change Reports.bind x f = _
  rw [Reports.bind, h]

theorem bind_of_error {message : String} (h : x.result = .error message) :
    x >>= f = ⟨x.stages, .error message⟩ := by
  change Reports.bind x f = _
  rw [Reports.bind, h]

theorem attempt_ok_bind (context : String) (a : α) : attempt context (.ok a) >>= f = f a := rfl

theorem attempt_error_bind (context message : String) :
    attempt context (.error message) >>= f = ⟨[], .error (context ++ message)⟩ := rfl

theorem report_bind (name : String) (files : Option UInt64) (f : Unit → Reports β) :
    report name files >>= f = ⟨⟨name, files⟩ :: (f ()).stages, (f ()).result⟩ := rfl

theorem Reports.bind_assoc {γ : Type} (x : Reports α) (f : α → Reports β) (g : β → Reports γ) :
    (x.bind f).bind g = x.bind fun a => (f a).bind g := by
  obtain ⟨stages, result⟩ := x
  cases result with
  | error message => rfl
  | ok a =>
    simp only [Reports.bind]
    cases (f a).result with
    | error message => rfl
    | ok b => simp only [List.append_assoc]

theorem Reports.bind_pure (x : Reports α) : (x.bind fun a => ⟨[], .ok a⟩) = x := by
  obtain ⟨stages, result⟩ := x
  cases result with
  | error message => rfl
  | ok a => simp only [Reports.bind, List.append_nil]

instance : LawfulMonad Reports :=
  .mk' Reports Reports.bind_pure (fun _ _ => rfl) Reports.bind_assoc

/-- Every stage that is reported has the property. -/
def Reports.Only (P : Stage → Prop) (x : Reports α) : Prop := ∀ stage ∈ x.stages, P stage

theorem Reports.Only.bind (hx : x.Only P) (hf : ∀ a, (f a).Only P) : (x >>= f).Only P := by
  cases hresult : x.result with
  | ok a =>
    rw [bind_of_ok hresult]
    exact List.forall_mem_append.mpr ⟨hx, hf a⟩
  | error message =>
    rw [bind_of_error hresult]
    exact hx

theorem Reports.Only.pure (a : α) : (Pure.pure a : Reports α).Only P := by
  intro stage hstage
  cases hstage

theorem Reports.Only.attempt (context : String) (answer : Except String α) :
    (attempt context answer).Only P := by
  intro stage hstage
  cases hstage

theorem Reports.Only.report {name : String} {files : Option UInt64} (h : P ⟨name, files⟩) :
    (report name files).Only P := by
  intro stage hstage
  rw [List.mem_singleton.mp hstage]
  exact h

theorem Reports.Only.ite {c : Prop} [Decidable c] {x y : Reports α} (hx : x.Only P)
    (hy : y.Only P) : (if c then x else y).Only P := by
  split
  · exact hx
  · exact hy

theorem Reports.Only.foldlM {step : β → α → Reports β} (h : ∀ b a, (step b a).Only P)
    (items : List α) (b : β) : (items.foldlM step b).Only P := by
  induction items generalizing b with
  | nil => exact .pure b
  | cons a items ih =>
    rw [List.foldlM_cons]
    exact .bind (h b a) fun b' => ih b'

end Rules

section Arms

variable {P : Stage → Prop}

theorem sweep_only (delete : String → Except String Bool) (stored : List String) :
    (sweep delete stored).Only P := by
  induction stored with
  | nil => exact .pure []
  | cons rel rest ih =>
    exact .bind (.attempt _ _) fun there => .bind ih fun deleted => .pure _

theorem record_only (t : Tally) (outcome : FileOutcome) : (t.record outcome).Only P := by
  cases outcome with
  | facts relPath written => exact .bind (.attempt _ _) fun _ => .pure _
  | failed relPath message => exact .pure _

theorem scanClosing_only {s : FullSteps} {discovered : List String} {t : Tally}
    (hparse : P ⟨"parse_done", some t.written⟩) (hpost : P ⟨"postprocess_done", none⟩) :
    (scanClosing s discovered t).Only P :=
  .bind (.attempt _ _) fun _ => .bind (.report hparse) fun _ => .bind (.attempt _ _) fun _ =>
    .bind (sweep_only _ _) fun _ => .bind (.attempt _ _) fun _ => .bind (.attempt _ _) fun _ =>
    .bind (.report hpost) fun _ => .bind (.attempt _ _) fun _ => .bind (.attempt _ _) fun _ =>
    .bind (.attempt _ _) fun _ => .pure _

/-- The outcomes that are put down before a failed write ends the scan. -/
def FileOutcome.stands : FileOutcome → Bool
  | .facts _ (.error _) => false
  | _ => true

def counted (outcomes : List FileOutcome) : Nat := (outcomes.takeWhile FileOutcome.stands).length

theorem counted_stands {outcome : FileOutcome} (h : outcome.stands = true)
    (outcomes : List FileOutcome) : counted (outcome :: outcomes) = counted outcomes + 1 := by
  rw [counted, List.takeWhile_cons_of_pos h, List.length_cons, counted]

theorem counted_fails {outcome : FileOutcome} (h : outcome.stands = false)
    (outcomes : List FileOutcome) : counted (outcome :: outcomes) = 0 := by
  rw [counted, List.takeWhile_cons_of_neg (by simp [h]), List.length_nil]

theorem record_stands (t : Tally) {outcome : FileOutcome} (h : outcome.stands = true) :
    ∃ t', (t.record outcome).result = .ok t' ∧ t'.written = t.written := by
  cases outcome with
  | facts relPath written =>
    cases written with
    | ok u => exact ⟨_, rfl, rfl⟩
    | error message => cases h
  | failed relPath message => exact ⟨_, rfl, rfl⟩

theorem record_fails (t : Tally) {outcome : FileOutcome} (h : outcome.stands = false) :
    ∃ message, (t.record outcome).result = .error message := by
  cases outcome with
  | facts relPath written =>
    cases written with
    | ok u => cases h
    | error message => exact ⟨_, rfl⟩
  | failed relPath message => cases h

def writeStage (written : UInt64) : List Stage :=
  if written % 250 = 0 then [⟨"write", some written⟩] else []

theorem record_stages (t : Tally) (outcome : FileOutcome) : (t.record outcome).stages = [] :=
  List.eq_nil_iff_forall_not_mem.mpr (record_only (P := fun _ => False) t outcome)

theorem count_stands (t : Tally) {outcome : FileOutcome} (h : outcome.stands = true) :
    ∃ t', (t.count outcome).result = .ok t' ∧ t'.written = t.written + 1 ∧
      (t.count outcome).stages = writeStage (t.written + 1) := by
  obtain ⟨t', hresult, hwritten⟩ := record_stands t h
  have hcount : t.count outcome = ⟨writeStage (t.written + 1),
      .ok { t' with written := t'.written + 1 }⟩ := by
    unfold Tally.count
    rw [bind_of_ok hresult, record_stages, List.nil_append, ← hwritten]
    unfold writeStage
    dsimp only
    split <;> rfl
  rw [hcount]
  exact ⟨_, rfl, congrArg (· + 1) hwritten, rfl⟩

theorem count_fails (t : Tally) {outcome : FileOutcome} (h : outcome.stands = false) :
    ∃ message, (t.count outcome).result = .error message ∧ (t.count outcome).stages = [] := by
  obtain ⟨message, hresult⟩ := record_fails t h
  have hcount : t.count outcome = ⟨[], .error message⟩ := by
    unfold Tally.count
    rw [bind_of_error hresult, record_stages]
  rw [hcount]
  exact ⟨message, rfl, rfl⟩

/-- The loop reports the count behind each outcome it puts down, if it is a 250th. -/
theorem countAll_stages (outcomes : List FileOutcome) (t : Tally) :
    (outcomes.foldlM Tally.count t).stages =
      (List.range (counted outcomes)).flatMap fun i => writeStage (t.written + 1 + .ofNat i) := by
  induction outcomes generalizing t with
  | nil => rfl
  | cons outcome outcomes ih =>
    rw [List.foldlM_cons]
    cases hstands : outcome.stands with
    | false =>
      obtain ⟨message, hresult, hstages⟩ := count_fails t hstands
      rw [bind_of_error hresult, hstages, counted_fails hstands]
      rfl
    | true =>
      obtain ⟨t', hresult, hwritten, hstages⟩ := count_stands t hstands
      rw [bind_of_ok hresult, hstages, ih, hwritten, counted_stands hstands,
        List.range_succ_eq_map, List.flatMap_cons, List.flatMap_map]
      refine congrArg₂ (· ++ ·) ?_ (List.flatMap_congr fun i _ => ?_)
      · exact congrArg writeStage (UInt64.add_zero _).symm
      · rw [UInt64.add_assoc (t.written + 1), UInt64.add_comm 1, Nat.succ_eq_add_one,
          UInt64.ofNat_add]
        rfl

/-- The first report of the loop comes at the 250th outcome. -/
theorem countAll_reports (outcomes : List FileOutcome) :
    (outcomes.foldlM Tally.count ⟨0, [], [], []⟩).stages ≠ [] ↔ 250 ≤ counted outcomes := by
  rw [countAll_stages, Ne, List.flatMap_eq_nil_iff, not_forall]
  constructor
  · rintro ⟨i, hi⟩
    obtain ⟨hmem, hstage⟩ := Classical.not_imp.mp hi
    have hlt : i < counted outcomes := List.mem_range.mp hmem
    by_contra hfew
    refine hstage (if_neg fun hzero => ?_)
    have hnat : ((0 + 1) % 2 ^ 64 + i % 2 ^ 64) % 2 ^ 64 % 250 = 0 := congrArg UInt64.toNat hzero
    rw [Nat.mod_eq_of_lt (show i < 2 ^ 64 by omega),
      Nat.mod_eq_of_lt (show (0 + 1) % 2 ^ 64 + i < 2 ^ 64 by omega),
      Nat.mod_eq_of_lt (show (0 + 1) % 2 ^ 64 + i < 250 by omega)] at hnat
    omega
  · exact fun h => ⟨249, Classical.not_imp.mpr ⟨List.mem_range.mpr h, List.cons_ne_nil _ _⟩⟩

theorem countAll_only (outcomes : List FileOutcome) (t : Tally) :
    (outcomes.foldlM Tally.count t).Only fun stage => stage.name = "write" := by
  intro stage hstage
  rw [countAll_stages] at hstage
  obtain ⟨i, -, hi⟩ := List.mem_flatMap.mp hstage
  unfold writeStage at hi
  split at hi
  · rw [List.mem_singleton.mp hi]
  · cases hi

end Arms

section Scan

variable {α β : Type}

/-- The computation comes to its end. -/
def Reports.Through (x : Reports α) : Prop := ∃ a, x.result = .ok a

def Answered (answer : Except String α) : Prop := ∃ a, answer = .ok a

theorem attempt_through {context : String} {answer : Except String α} {f : α → Reports β} :
    (attempt context answer >>= f).Through ↔ ∃ a, answer = .ok a ∧ (f a).Through := by
  cases answer with
  | ok a =>
    rw [attempt_ok_bind]
    constructor
    · exact fun h => ⟨a, rfl, h⟩
    · rintro ⟨a', h, hf⟩
      cases h
      exact hf
  | error message =>
    rw [attempt_error_bind]
    exact ⟨fun ⟨b, h⟩ => (by cases h), fun ⟨a, h, _⟩ => (by cases h)⟩

/-- What `scan_full` has to get through before it takes the outcomes of the pool. -/
structure FullSteps.Opens (s : FullSteps) : Prop where
  config : Answered s.config
  lock : Answered s.lock
  discovered : Answered s.discovered
  opened : Answered s.opened
  begun : Answered s.begun
  indexesDropped : Answered s.indexesDropped

theorem report_through {name : String} {files : Option UInt64} {f : Unit → Reports β} :
    (report name files >>= f).Through ↔ (f ()).Through := Iff.rfl

theorem pure_through (a : α) : (pure a : Reports α).Through := ⟨a, rfl⟩

theorem scanOpening_through {s : FullSteps} : (scanOpening s).Through ↔ s.Opens := by
  unfold scanOpening
  simp only [attempt_through, report_through]
  constructor
  · rintro ⟨u, hconfig, v, hlock, d, hdiscovered, w, hopened, x, hbegun, y, hdropped, -⟩
    exact ⟨⟨u, hconfig⟩, ⟨v, hlock⟩, ⟨d, hdiscovered⟩, ⟨w, hopened⟩, ⟨x, hbegun⟩, ⟨y, hdropped⟩⟩
  · rintro ⟨⟨u, hconfig⟩, ⟨v, hlock⟩, ⟨d, hdiscovered⟩, ⟨w, hopened⟩, ⟨x, hbegun⟩, ⟨y, hdropped⟩⟩
    exact ⟨u, hconfig, v, hlock, d, hdiscovered, w, hopened, x, hbegun, y, hdropped, pure_through d⟩

theorem scanOpening_only (s : FullSteps) :
    (scanOpening s).Only fun stage => stage.name = "lock_acquired" :=
  .bind (.attempt _ _) fun _ => .bind (.attempt _ _) fun _ => .bind (.report rfl) fun _ =>
    .bind (.attempt _ _) fun _ => .bind (.attempt _ _) fun _ => .bind (.attempt _ _) fun _ =>
    .bind (.attempt _ _) fun _ => .pure _

/-- The stages of `scan_full` behind its opening. -/
def Behind (stage : Stage) : Prop :=
  stage.name = "write" ∨ stage.name = "parse_done" ∨ stage.name = "postprocess_done"

theorem scanRest_only (s : FullSteps) (discovered : List String) :
    (s.outcomes.foldlM Tally.count ⟨0, [], [], []⟩ >>= scanClosing s discovered).Only Behind :=
  .bind (fun stage hstage => .inl (countAll_only _ _ stage hstage))
    fun _ => scanClosing_only (.inr (.inl rfl)) (.inr (.inr rfl))

theorem scanFull_eq_of_opens {s : FullSteps} (h : s.Opens) : ∃ discovered,
    scanFull s = ⟨(scanOpening s).stages ++
      (s.outcomes.foldlM Tally.count ⟨0, [], [], []⟩ >>= scanClosing s discovered).stages,
      (s.outcomes.foldlM Tally.count ⟨0, [], [], []⟩ >>= scanClosing s discovered).result⟩ := by
  obtain ⟨discovered, hresult⟩ := scanOpening_through.mpr h
  exact ⟨discovered, bind_of_ok hresult⟩

theorem scanFull_eq_of_stopped {s : FullSteps} (h : ¬ s.Opens) : ∃ message,
    scanFull s = ⟨(scanOpening s).stages, .error message⟩ := by
  cases hresult : (scanOpening s).result with
  | ok discovered => exact absurd (scanOpening_through.mp ⟨discovered, hresult⟩) h
  | error message => exact ⟨message, bind_of_error hresult⟩

/-- A stage that reports files is there exactly from the 250th outcome on. -/
theorem scanFull_writes (s : FullSteps) :
    (∃ stage ∈ (scanFull s).stages, stage.name = "write") ↔
      s.Opens ∧ 250 ≤ counted s.outcomes := by
  have hopening : ∀ stage ∈ (scanOpening s).stages, stage.name ≠ "write" := by
    intro stage hstage hname
    exact absurd ((scanOpening_only s stage hstage).symm.trans hname) (by decide)
  constructor
  · rintro ⟨stage, hstage, hname⟩
    by_cases h : s.Opens
    · refine ⟨h, (countAll_reports s.outcomes).mp fun hnil => ?_⟩
      obtain ⟨discovered, heq⟩ := scanFull_eq_of_opens h
      rw [heq] at hstage
      rcases List.mem_append.mp hstage with hstage | hstage
      · exact hopening stage hstage hname
      · have hclosing : (s.outcomes.foldlM Tally.count ⟨0, [], [], []⟩ >>=
            scanClosing s discovered).Only fun stage =>
              stage.name = "parse_done" ∨ stage.name = "postprocess_done" :=
          .bind (fun stage hstage => by rw [hnil] at hstage; cases hstage)
            fun _ => scanClosing_only (.inl rfl) (.inr rfl)
        rcases hclosing stage hstage with h | h <;>
          exact absurd (h.symm.trans hname) (by decide)
    · obtain ⟨message, heq⟩ := scanFull_eq_of_stopped h
      rw [heq] at hstage
      exact absurd hname (hopening stage hstage)
  · rintro ⟨h, hmany⟩
    obtain ⟨stage, hstage⟩ := List.exists_mem_of_ne_nil _ ((countAll_reports s.outcomes).mpr hmany)
    obtain ⟨discovered, heq⟩ := scanFull_eq_of_opens h
    refine ⟨stage, ?_, countAll_only _ _ stage hstage⟩
    rw [heq]
    refine List.mem_append_right _ ?_
    cases hresult : (s.outcomes.foldlM Tally.count ⟨0, [], [], []⟩).result with
    | ok t =>
      rw [bind_of_ok hresult]
      exact List.mem_append_left _ hstage
    | error message =>
      rw [bind_of_error hresult]
      exact hstage

def lockStage : Stage := ⟨"lock_acquired", none⟩

/-- Both arms read the configuration and take the lock before they report anything. -/
theorem locked_stages {config lock : Except String Unit} {f : Reports α} {P : Stage → Prop}
    (hf : f.Only P) :
    (Answered config ∧ Answered lock ∧ ∃ rest, (attempt "" config >>= fun _ =>
        attempt "" lock >>= fun _ => report "lock_acquired" none >>= fun _ => f).stages =
          lockStage :: rest ∧ ∀ stage ∈ rest, P stage) ∨
      (¬ (Answered config ∧ Answered lock) ∧ (attempt "" config >>= fun _ =>
        attempt "" lock >>= fun _ => report "lock_acquired" none >>= fun _ => f).stages = []) := by
  cases config with
  | error message => exact .inr ⟨fun ⟨⟨_, h⟩, _⟩ => (by cases h), rfl⟩
  | ok u =>
    cases lock with
    | error message => exact .inr ⟨fun ⟨_, _, h⟩ => (by cases h), rfl⟩
    | ok v => exact .inl ⟨⟨u, rfl⟩, ⟨v, rfl⟩, f.stages, rfl, hf⟩

theorem scanFull_stages (s : FullSteps) :
    (Answered s.config ∧ Answered s.lock ∧ ∃ rest, (scanFull s).stages = lockStage :: rest ∧
      ∀ stage ∈ rest, Behind stage) ∨
    (¬ (Answered s.config ∧ Answered s.lock) ∧ (scanFull s).stages = []) := by
  unfold scanFull scanOpening
  simp only [bind_assoc]
  refine locked_stages ?_
  exact .bind (.attempt _ _) fun _ => .bind (.attempt _ _) fun _ => .bind (.attempt _ _) fun _ =>
    .bind (.attempt _ _) fun _ => by
      rw [pure_bind]
      exact scanRest_only s _

theorem scanFiles_stages (s : FileSteps) :
    (Answered s.config ∧ Answered s.lock ∧ ∃ rest, (scanFiles s).stages = lockStage :: rest ∧
      ∀ stage ∈ rest, stage.name = "parse_done" ∨ stage.name = "postprocess_done") ∨
    (¬ (Answered s.config ∧ Answered s.lock) ∧ (scanFiles s).stages = []) := by
  unfold scanFiles
  refine locked_stages ?_
  exact .bind (.attempt _ _) fun _ => .bind (.ite (.attempt _ _) (.pure _)) fun _ =>
    .bind (.attempt _ _) fun _ => .bind (.attempt _ _) fun _ => .bind (sweep_only _ _) fun _ =>
    .bind (.attempt _ _) fun _ => .bind (sweep_only _ _) fun _ =>
    .bind (.foldlM (fun t outcome => record_only t outcome) _ _) fun _ =>
    .bind (.attempt _ _) fun _ => .bind (.report (.inl rfl)) fun _ => .bind (.attempt _ _) fun _ =>
    .bind (.report (.inr rfl)) fun _ => .bind (.attempt _ _) fun _ => .bind (.attempt _ _) fun _ =>
    .pure _

/-- The arm that is run gets as far as the scan lock. -/
def Locked (args : ScanArgs) (s : Steps) : Prop :=
  Answered s.root ∧ if args.files = [] then Answered s.full.config ∧ Answered s.full.lock
    else Answered s.files.config ∧ Answered s.files.lock

theorem scan_of_root {args : ScanArgs} {s : Steps} (h : Answered s.root) :
    scan args s = if args.files.isEmpty then scanFull s.full else scanFiles s.files := by
  obtain ⟨u, hroot⟩ := h
  unfold scan
  rw [hroot, attempt_ok_bind]

theorem scan_without_root {args : ScanArgs} {s : Steps} (h : ¬ Answered s.root) :
    (scan args s).stages = [] := by
  cases hroot : s.root with
  | ok u => exact absurd ⟨u, hroot⟩ h
  | error message =>
    unfold scan
    rw [hroot, attempt_error_bind]

/-- The lock is reported first and once, and nothing is reported without it. -/
theorem scan_stages (args : ScanArgs) (s : Steps) :
    (Locked args s ∧ ∃ rest, (scan args s).stages = lockStage :: rest ∧
      ∀ stage ∈ rest, Behind stage) ∨ (¬ Locked args s ∧ (scan args s).stages = []) := by
  by_cases hroot : Answered s.root
  · rw [scan_of_root hroot]
    by_cases hfiles : args.files = []
    · rw [if_pos (by rw [hfiles]; rfl)]
      rcases scanFull_stages s.full with ⟨hconfig, hlock, hstages⟩ | ⟨hnot, hstages⟩
      · exact .inl ⟨⟨hroot, by rw [if_pos hfiles]; exact ⟨hconfig, hlock⟩⟩, hstages⟩
      · refine .inr ⟨fun h => hnot ?_, hstages⟩
        have hlocked := h.2
        rwa [if_pos hfiles] at hlocked
    · rw [if_neg (by simpa using hfiles)]
      rcases scanFiles_stages s.files with ⟨hconfig, hlock, rest, hstages, hrest⟩ | ⟨hnot, hstages⟩
      · exact .inl ⟨⟨hroot, by rw [if_neg hfiles]; exact ⟨hconfig, hlock⟩⟩, rest, hstages,
          fun stage hstage => .inr (hrest stage hstage)⟩
      · refine .inr ⟨fun h => hnot ?_, hstages⟩
        have hlocked := h.2
        rwa [if_neg hfiles] at hlocked
  · exact .inr ⟨fun h => hroot h.1, scan_without_root hroot⟩

/-- A full scan that puts down as many files as it reports on its way. -/
def Long (args : ScanArgs) (s : Steps) : Prop :=
  args.files = [] ∧ Answered s.root ∧ s.full.Opens ∧ 250 ≤ counted s.full.outcomes

theorem scan_writes (args : ScanArgs) (s : Steps) :
    (∃ stage ∈ (scan args s).stages, stage.name = "write") ↔ Long args s := by
  by_cases hroot : Answered s.root
  · rw [scan_of_root hroot]
    by_cases hfiles : args.files = []
    · rw [if_pos (by rw [hfiles]; rfl), scanFull_writes]
      exact ⟨fun h => ⟨hfiles, hroot, h⟩, fun h => h.2.2⟩
    · rw [if_neg (by simpa using hfiles)]
      refine iff_of_false ?_ fun h => hfiles h.1
      rintro ⟨stage, hstage, hname⟩
      rcases scanFiles_stages s.files with ⟨-, -, rest, hstages, hrest⟩ | ⟨-, hstages⟩
      · rw [hstages] at hstage
        rcases List.mem_cons.mp hstage with rfl | hstage
        · exact absurd hname (by decide)
        · rcases hrest stage hstage with h | h <;> exact absurd (h.symm.trans hname) (by decide)
      · rw [hstages] at hstage
        cases hstage
  · rw [scan_without_root hroot]
    refine iff_of_false ?_ fun h => hroot h.2.1
    rintro ⟨stage, hstage, -⟩
    cases hstage

end Scan

end RemyCC.Worker
