import RemyCC.Ui.Host

/-!
# One config UI at a time

What the host is for knows nothing of its slot: a child serves from its report
until it ends or the host shuts down, and a request either comes to it or, where
none serves, has one spawned. The host answers every run of requests like this
service, although it learns of an end only by the next request, and what it
answers stays the same for as long as the child lives.
-/

namespace RemyCC.Ui

open Server

section Service

/-- The service: the instance that serves, and how many children there have been. -/
structure Service where
  serving : Option UiInstance
  spawned : Nat

def Service.idle : Service where
  serving := none
  spawned := 0

namespace UiHost

variable (host : UiHost)

def launch (mode : String) (target : Option String) (setting : Setting) (spawned : Nat) :
    Service × OpenOutcome :=
  match host.spawn setting with
  | .unstarted diagnostic => (⟨none, spawned⟩, .spawnFailed diagnostic)
  | .killed diagnostic => (⟨none, spawned + 1⟩, .spawnFailed diagnostic)
  | .reported pid port token =>
    (⟨some ⟨pid, port, token, mode, target, spawned⟩, spawned + 1⟩, .ready (urlOf port) token true)

def react (v : Service) : Event → Service × Answer
  | .exit child => ({ v with serving := v.serving.filter (·.child ≠ child) }, .silent)
  | .status => (v, .status (v.serving.map UiInstance.status))
  | .openUi mode target setting =>
    match v.serving with
    | some i => (v, .outcome (i.answer mode target))
    | none =>
      ((host.launch mode target setting v.spawned).1,
        .outcome (host.launch mode target setting v.spawned).2)
  | .shutdown _ => ({ v with serving := none }, .silent)

end UiHost

def UiHost.serviceRun (host : UiHost) : List Event → Service → Service × List Answer
  | [], v => (v, [])
  | e :: events, v =>
    let r := host.react v e
    ((host.serviceRun events r.1).1, r.2 :: (host.serviceRun events r.1).2)

end Service

section Refinement

/-- What the state stands for. -/
def UiState.service (s : UiState) : Service where
  serving := s.slot.filter (·.child ∈ s.living)
  spawned := s.spawned

/-- A child that runs is the one in the slot, or has been told to end. -/
def UiState.Kept (s : UiState) : Prop :=
  ∀ child ∈ s.living, (∃ i, s.slot = some i ∧ i.child = child) ∨ child ∈ s.signalled

variable {host : UiHost} {s : UiState}

theorem service_of_living {i : UiInstance} (hslot : s.slot = some i) (hliving : i.child ∈ s.living) :
    s.service.serving = some i :=
  Option.filter_eq_some_iff.mpr ⟨hslot, decide_eq_true hliving⟩

theorem slot_of_service {i : UiInstance} (h : s.service.serving = some i) :
    s.slot = some i ∧ i.child ∈ s.living := by
  obtain ⟨hslot, hliving⟩ := Option.filter_eq_some_iff.mp h
  exact ⟨hslot, of_decide_eq_true hliving⟩

theorem reapExited_eq : reapExited s = { s with slot := s.service.serving } := by
  unfold reapExited
  split
  · next hslot =>
    simp only [UiState.service, hslot, Option.filter_none]
    rw [← hslot]
  · next i hslot =>
    by_cases hliving : i.child ∈ s.living
    · rw [if_pos hliving, service_of_living hslot hliving, ← hslot]
    · rw [if_neg hliving]
      simp [UiState.service, hslot, Option.filter, hliving]

theorem reapExited_service : (reapExited s).service = s.service := by
  rw [reapExited_eq]
  simp only [UiState.service, Option.filter_filter, Bool.and_self]

theorem openUi_of_serving {i : UiInstance} (h : s.service.serving = some i) (mode : String)
    (target : Option String) (setting : Setting) :
    host.openUi mode target setting s = (reapExited s, i.answer mode target) := by
  have hslot : (reapExited s).slot = some i := by rw [reapExited_eq, h]
  simp only [UiHost.openUi, hslot]

theorem openUi_of_idle (h : s.service.serving = none) (mode : String) (target : Option String)
    (setting : Setting) :
    (host.openUi mode target setting s).1.service =
        (host.launch mode target setting s.spawned).1 ∧
      (host.openUi mode target setting s).2 = (host.launch mode target setting s.spawned).2 := by
  have hslot : (reapExited s).slot = none := by rw [reapExited_eq, h]
  have hspawned : (reapExited s).spawned = s.spawned := by rw [reapExited_eq]
  unfold UiHost.openUi UiHost.launch
  simp only [hslot]
  cases host.spawn setting <;> simp [UiState.service, hspawned]

theorem shutdown_service (leaves : Bool) :
    (shutdown leaves s).service = { s.service with serving := none } := by
  unfold shutdown
  split
  · next hslot => simp [UiState.service, hslot]
  · simp only
    split <;> simp [UiState.service]

/-- One step of the host is one of the service. -/
theorem step_service (e : Event) :
    (host.step s e).1.service = (host.react s.service e).1 ∧
      (host.step s e).2 = (host.react s.service e).2 := by
  cases e with
  | exit child =>
    refine ⟨?_, rfl⟩
    simp only [UiHost.step, UiHost.react, UiState.service, Option.filter_filter, List.mem_filter]
    congr 2
    funext i
    simp [Bool.and_comm]
  | status =>
    refine ⟨reapExited_service, ?_⟩
    simp only [UiHost.step, UiHost.react, status, reapExited_eq]
  | openUi mode target setting =>
    cases hserving : s.service.serving with
    | none =>
      obtain ⟨hservice, houtcome⟩ := @openUi_of_idle host s hserving mode target setting
      simp only [UiHost.step, UiHost.react, hserving, hservice, houtcome]
      exact ⟨rfl, rfl⟩
    | some i =>
      simp only [UiHost.step, UiHost.react, hserving, openUi_of_serving hserving,
        reapExited_service, and_self]
  | shutdown leaves => exact ⟨shutdown_service leaves, rfl⟩

theorem run_service (events : List Event) (s : UiState) :
    (host.run events s).1.service = (host.serviceRun events s.service).1 ∧
      (host.run events s).2 = (host.serviceRun events s.service).2 := by
  induction events generalizing s with
  | nil => exact ⟨rfl, rfl⟩
  | cons e events ih =>
    obtain ⟨hservice, hanswer⟩ := @step_service host s e
    obtain ⟨hservices, hanswers⟩ := ih (host.step s e).1
    simp only [UiHost.run, UiHost.serviceRun, ← hservice, ← hanswer]
    exact ⟨hservices, congrArg _ hanswers⟩

theorem UiState.Kept.reaped (h : s.Kept) : (reapExited s).Kept := by
  intro child hchild
  rw [reapExited_eq] at hchild ⊢
  rcases h child hchild with ⟨i, hslot, rfl⟩ | hsignalled
  · exact .inl ⟨i, service_of_living hslot hchild, rfl⟩
  · exact .inr hsignalled

theorem openUi_kept (h : s.Kept) (mode : String) (target : Option String) (setting : Setting) :
    (host.openUi mode target setting s).1.Kept := by
  have hreaped := h.reaped
  unfold UiHost.openUi
  simp only
  split
  · exact hreaped
  · next hslot =>
    split
    · exact hreaped
    · exact hreaped
    · intro child hchild
      rcases List.mem_cons.mp hchild with rfl | hchild
      · exact .inl ⟨_, rfl, rfl⟩
      · rcases hreaped child hchild with ⟨i, hslot', -⟩ | hsignalled
        · rw [hslot] at hslot'
          cases hslot'
        · exact .inr hsignalled

theorem shutdown_kept (h : s.Kept) (leaves : Bool) : (shutdown leaves s).Kept := by
  have hsignalled : ∀ i, s.slot = some i → ∀ child ∈ s.living, child ∈ i.child :: s.signalled := by
    intro i hslot child hchild
    rcases h child hchild with ⟨j, hslot', rfl⟩ | hsignalled
    · obtain rfl : i = j := Option.some.inj (hslot.symm.trans hslot')
      exact List.mem_cons_self
    · exact List.mem_cons_of_mem _ hsignalled
  unfold shutdown
  split
  · exact h
  · next i hslot =>
    simp only
    split
    · exact fun child hchild => .inr (hsignalled i hslot child hchild)
    · exact fun child hchild => .inr (hsignalled i hslot child (List.mem_of_mem_filter hchild))

theorem step_kept (h : s.Kept) (e : Event) : (host.step s e).1.Kept := by
  cases e with
  | exit child => exact fun c hc => h c (List.mem_of_mem_filter hc)
  | status => exact h.reaped
  | openUi mode target setting => exact openUi_kept h mode target setting
  | shutdown leaves => exact shutdown_kept h leaves

theorem run_kept (events : List Event) (h : s.Kept) : (host.run events s).1.Kept := by
  induction events generalizing s with
  | nil => exact h
  | cons e events ih => exact ih (step_kept h e)

/-- The host answers like the service, and a child that is neither the one that
serves nor told to end does not run. -/
theorem host_serves (host : UiHost) (events : List Event) :
    (host.run events .start).2 = (host.serviceRun events .idle).2 ∧
      ∀ child ∈ (host.run events .start).1.living,
        (∃ i, (host.serviceRun events .idle).1.serving = some i ∧ i.child = child) ∨
          child ∈ (host.run events .start).1.signalled := by
  obtain ⟨hservice, hanswers⟩ := @run_service host events .start
  have hkept : (host.run events .start).1.Kept := run_kept events fun child hchild => by cases hchild
  refine ⟨hanswers, fun child hchild => ?_⟩
  rcases hkept child hchild with ⟨i, hslot, rfl⟩ | hsignalled
  · have hserving : (host.serviceRun events .idle).1.serving = some i := by
      rw [← service_of_living hslot hchild, hservice]
      rfl
    exact .inl ⟨i, hserving, rfl⟩
  · exact .inr hsignalled

end Refinement

section Sessions

/-- The event neither ends this child nor shuts the host down. -/
def Event.Spares (i : UiInstance) : Event → Prop
  | .exit child => child ≠ i.child
  | .shutdown _ => False
  | _ => True

variable {host : UiHost} {s : UiState} {i : UiInstance}

theorem react_spares {v : Service} {e : Event} (hserving : v.serving = some i) (h : e.Spares i) :
    (host.react v e).1 = v := by
  cases e with
  | exit child =>
    have hfilter : v.serving.filter (·.child ≠ child) = v.serving := by
      rw [hserving]
      exact Option.filter_eq_some_iff.mpr ⟨rfl, decide_eq_true (Ne.symm h)⟩
    simp only [UiHost.react, hfilter]
  | status => rfl
  | openUi mode target setting => simp only [UiHost.react, hserving]
  | shutdown leaves => cases h

theorem serviceRun_spares {v : Service} {events : List Event} (hserving : v.serving = some i)
    (h : ∀ e ∈ events, e.Spares i) : (host.serviceRun events v).1 = v := by
  induction events with
  | nil => rfl
  | cons e events ih =>
    obtain ⟨hhead, htail⟩ := List.forall_mem_cons.mp h
    simp only [UiHost.serviceRun, react_spares hserving hhead]
    exact ih htail

/-- A request that is answered with an address leaves its instance in service. -/
theorem openUi_ready {mode : String} {target : Option String} {setting : Setting}
    {url token : String} {created : Bool}
    (h : (host.openUi mode target setting s).2 = .ready url token created) :
    ∃ i, (host.openUi mode target setting s).1.service.serving = some i ∧ i.mode = mode ∧
      i.target = target ∧ urlOf i.port = url ∧ i.token = token := by
  cases hserving : s.service.serving with
  | some i =>
    rw [openUi_of_serving hserving] at h ⊢
    refine ⟨i, by rw [reapExited_service, hserving], ?_⟩
    simp only [UiInstance.answer] at h
    split at h
    · next hsame =>
      cases h
      exact ⟨hsame.1, hsame.2, rfl, rfl⟩
    · cases h
  | none =>
    obtain ⟨hservice, houtcome⟩ := @openUi_of_idle host s hserving mode target setting
    rw [houtcome] at h
    rw [hservice]
    unfold UiHost.launch at h ⊢
    split at h
    · cases h
    · cases h
    · cases h
      exact ⟨_, rfl, rfl, rfl, rfl, rfl⟩

/-- Once a request has been answered with an address, whatever else happens while the
child lives, every request is told of this instance and no other child is spawned. -/
theorem session_kept {mode : String} {target : Option String} {setting : Setting}
    {url token : String} {created : Bool} {during : List Event}
    (hready : (host.openUi mode target setting s).2 = .ready url token created)
    (hspares : ∀ i, (host.openUi mode target setting s).1.slot = some i →
      ∀ e ∈ during, e.Spares i) :
    ∃ pid port, urlOf port = url ∧
      ∀ last, (host.run during (host.openUi mode target setting s).1).1 = last →
        last.spawned = (host.openUi mode target setting s).1.spawned ∧
        (status last).2 = some { pid := pid, port := port, mode := mode, target := target } ∧
        ∀ mode' target' setting', (host.openUi mode' target' setting' last).2 =
          if mode = mode' ∧ target = target' then .ready url token false
          else .conflict mode target pid port := by
  obtain ⟨i, hserving, rfl, rfl, rfl, rfl⟩ := openUi_ready hready
  have hquiet := hspares i (slot_of_service hserving).1
  generalize (host.openUi i.mode i.target setting s).1 = opened at hserving hquiet
  refine ⟨i.pid, i.port, rfl, ?_⟩
  rintro last rfl
  obtain ⟨hservice, -⟩ := @run_service host during opened
  rw [serviceRun_spares hserving hquiet] at hservice
  have hlast : (host.run during opened).1.service.serving = some i := by rw [hservice, hserving]
  refine ⟨congrArg Service.spawned hservice, ?_, fun mode' target' setting' => ?_⟩
  · simp only [status, reapExited_eq, hlast, Option.map_some, UiInstance.status]
  · rw [openUi_of_serving hlast]
    rfl

def quietHost : UiHost where
  python := some "python3"
  script := "remy-src/config_ui.py"
  reportTimeout := 10
  outside := { home := none, lossy := fun _ => "", jsonError := fun _ => "" }

def reporting : Setting where
  scriptPresent := true
  spawnError := none
  heard := .line "\x7b\"port\": 45678, \"token\": \"fake-ui-token\", \"pid\": 7\x7d\n"
  stderr := []

def quietEvents : List Event :=
  [.status, .openUi "project" (some "/repo") reporting, .exit 3, .openUi "global" none reporting]

theorem quietEvents_kept : ∃ pid port, urlOf port = "http://127.0.0.1:45678" ∧
    ∀ last,
      (quietHost.run quietEvents (quietHost.openUi "global" none reporting .start).1).1 = last →
        last.spawned = (quietHost.openUi "global" none reporting .start).1.spawned ∧
        (status last).2 = some { pid := pid, port := port, mode := "global", target := none } ∧
        ∀ mode' target' setting', (quietHost.openUi mode' target' setting' last).2 =
          if "global" = mode' ∧ none = target' then
            .ready "http://127.0.0.1:45678" "fake-ui-token" false
          else .conflict "global" none pid port := by
  have hready : (quietHost.openUi "global" none reporting .start).2 =
      .ready "http://127.0.0.1:45678" "fake-ui-token" true := by decide +kernel
  refine session_kept hready ?_
  have hslot : (quietHost.openUi "global" none reporting .start).1.slot =
      some ⟨7, 45678, "fake-ui-token", "global", none, 0⟩ := by decide +kernel
  intro i hi
  obtain rfl := Option.some.inj (hslot.symm.trans hi)
  simp [quietEvents, Event.Spares]

end Sessions

end RemyCC.Ui
