import RemyCC.Text.Erasing
import RemyCC.Ui.Host
import RemyCC.Worker.Capture
import Mathlib.Data.List.DropRight

/-!
# The token of the config UI stays out of the log

What the host logs does not depend on the tokens: runs that differ in nothing
else leave the same log. The lines that a child writes to its standard error
are logged up to a limit, and a token that could be its own replacement apart,
none of them holds it.
-/

namespace RemyCC.Ui

open Json (Value)
open Worker Server Text
open Logging (LogCall)

section Blind

def UiInstance.hide (i : UiInstance) : UiInstance := { i with token := "" }

def Launch.hide : Launch → Launch
  | .reported pid port _ => .reported pid port ""
  | other => other

def OpenOutcome.hide : OpenOutcome → OpenOutcome
  | .ready url _ created => .ready url "" created
  | other => other

def Answer.hide : Answer → Answer
  | .outcome told => .outcome told.hide
  | other => other

def UiState.hide (s : UiState) : UiState := { s with slot := s.slot.map UiInstance.hide }

/-- The same event, but for the token that a spawned child reports. -/
inductive Event.Alike (host : UiHost) : Event → Event → Prop
  | exit (child : Nat) : Alike host (.exit child) (.exit child)
  | status : Alike host .status .status
  | openUi (mode : String) (target : Option String) {setting setting' : Setting}
    (h : (host.spawn setting).hide = (host.spawn setting').hide) :
    Alike host (.openUi mode target setting) (.openUi mode target setting')
  | shutdown (leaves : Bool) : Alike host (.shutdown leaves) (.shutdown leaves)

variable {host : UiHost} {s s' : UiState}

theorem Event.Alike.refl (e : Event) : Event.Alike host e e := by
  cases e with
  | exit child => exact .exit child
  | status => exact .status
  | openUi mode target setting => exact .openUi mode target rfl
  | shutdown leaves => exact .shutdown leaves

theorem hide_hide (s : UiState) : s.hide.hide = s.hide := by
  cases hslot : s.slot <;> simp [UiState.hide, UiInstance.hide, hslot]

theorem reapExited_hide : reapExited s.hide = (reapExited s).hide := by
  unfold reapExited UiState.hide
  cases hslot : s.slot with
  | none => simp only [Option.map_none, hslot]
  | some i =>
    have hchild : i.hide.child = i.child := rfl
    simp only [Option.map_some, hchild]
    by_cases hliving : i.child ∈ s.living
    · rw [if_pos hliving, if_pos hliving, hslot, Option.map_some]
    · rw [if_neg hliving, if_neg hliving, Option.map_none]

theorem shutdown_hide (leaves : Bool) : shutdown leaves s.hide = (shutdown leaves s).hide := by
  unfold shutdown UiState.hide
  cases hslot : s.slot with
  | none => simp only [Option.map_none, hslot]
  | some i =>
    have hchild : i.hide.child = i.child := rfl
    simp only [Option.map_some, hchild]
    split <;> rfl

theorem answer_hide (i : UiInstance) (mode : String) (target : Option String) :
    (i.hide.answer mode target).hide = (i.answer mode target).hide := by
  have hmode : i.hide.mode = i.mode := rfl
  have htarget : i.hide.target = i.target := rfl
  unfold UiInstance.answer
  rw [hmode, htarget]
  split <;> rfl

theorem openUi_hide {setting setting' : Setting}
    (h : (host.spawn setting).hide = (host.spawn setting').hide) (mode : String)
    (target : Option String) :
    (host.openUi mode target setting s).1.hide =
        (host.openUi mode target setting' s.hide).1.hide ∧
      (host.openUi mode target setting s).2.hide =
        (host.openUi mode target setting' s.hide).2.hide := by
  unfold UiHost.openUi
  rw [reapExited_hide]
  generalize reapExited s = s
  cases hslot : s.slot with
  | some i =>
    simp only [UiState.hide, hslot, Option.map_some, answer_hide]
    exact ⟨rfl, trivial⟩
  | none =>
    simp only [UiState.hide, hslot, Option.map_none]
    cases hspawn : host.spawn setting <;> cases hspawn' : host.spawn setting' <;>
      rw [hspawn, hspawn'] at h <;> cases h <;> exact ⟨rfl, rfl⟩

/-- What a step makes of the state without its token is what it makes of the state, without. -/
theorem step_hide {e e' : Event} (h : Event.Alike host e e') :
    (host.step s e).1.hide = (host.step s.hide e').1.hide ∧
      (host.step s e).2.hide = (host.step s.hide e').2.hide := by
  cases h with
  | exit child =>
    refine ⟨?_, rfl⟩
    exact (hide_hide { s with living := s.living.filter (· ≠ child) }).symm
  | status =>
    simp only [UiHost.step, status, reapExited_hide, hide_hide, true_and, Answer.hide]
    cases hslot : (reapExited s).slot <;> simp [UiState.hide, hslot]
    rfl
  | openUi mode target h =>
    obtain ⟨hstate, houtcome⟩ := @openUi_hide host s _ _ h mode target
    exact ⟨hstate, congrArg Answer.outcome houtcome⟩
  | shutdown leaves =>
    simp only [UiHost.step, shutdown_hide, hide_hide, and_self]

theorem run_hide {events events' : List Event} (hevents : List.Forall₂ (Event.Alike host) events events')
    (h : s.hide = s'.hide) :
    (host.run events s).1.hide = (host.run events' s').1.hide ∧
      (host.run events s).2.map Answer.hide = (host.run events' s').2.map Answer.hide := by
  induction hevents generalizing s s' with
  | nil => exact ⟨h, rfl⟩
  | @cons e e' events events' he hrest ih =>
    obtain ⟨hstate, hanswer⟩ := @step_hide host s e e' he
    obtain ⟨hstate', hanswer'⟩ := @step_hide host s' e' e' (.refl e')
    rw [h] at hstate hanswer
    obtain ⟨hstates, hanswers⟩ := ih (hstate.trans hstate'.symm)
    refine ⟨hstates, ?_⟩
    simp only [UiHost.run, List.map_cons]
    rw [hanswers, hanswer, ← hanswer']

def blindHost : UiHost where
  python := some "python3"
  script := "remy-src/config_ui.py"
  reportTimeout := 10
  outside := { home := none, lossy := fun _ => "", jsonError := fun _ => "" }

def reportingToken (text : String) : Setting where
  scriptPresent := true
  spawnError := none
  heard := .line text
  stderr := []

def firstReport : Setting :=
  reportingToken "\x7b\"port\": 45678, \"token\": \"fake-ui-token\", \"pid\": 7\x7d\n"

def secondReport : Setting :=
  reportingToken "\x7b\"port\": 45678, \"token\": \"Zx-09_\", \"pid\": 7\x7d\n"

end Blind

section Stderr

def STDERR_LOG_LIMIT : Nat := 64 * 1024

def lineEnd (c : Char) : Bool := c == '\r' || c == '\n'

variable (o : Outside) (token : String)

/-- A line of the child as it is logged. -/
def redacted (line : List UInt8) : String :=
  replaceAll token "[redacted]"
    (sanitize o (String.ofList ((o.lossy line).toList.rdropWhile lineEnd)))

def stderrCall (line : List UInt8) : LogCall where
  level := "info"
  event := "config_ui_stderr"
  extra := .obj [("line", .str (redacted o token line))]

def truncatedCall : LogCall where
  level := "warning"
  event := "config_ui_stderr_truncated"
  extra := .obj [("limit_bytes", .int STDERR_LOG_LIMIT)]

/-- The loop of `pump_stderr` over the lines; `logged` counts the bytes of those that came before. -/
def pumpLines : Nat → List (List UInt8) → List LogCall
  | _, [] => []
  | logged, line :: rest =>
    if STDERR_LOG_LIMIT ≤ logged then pumpLines logged rest
    else
      stderrCall o token line ::
        ((if STDERR_LOG_LIMIT ≤ logged + line.length then [truncatedCall] else []) ++
          pumpLines (logged + line.length) rest)

def pumpStderr (bytes : List UInt8) : List LogCall := pumpLines o token 0 (chunks bytes)

variable {o token}

theorem pumpLines_of_full {logged : Nat} (h : STDERR_LOG_LIMIT ≤ logged) (lines : List (List UInt8)) :
    pumpLines o token logged lines = [] := by
  induction lines with
  | nil => rfl
  | cons line rest ih => rw [pumpLines, if_pos h, ih]

/-- The first lines are logged, as long as those before them are short of the limit; where the
limit is reached one warning follows. -/
theorem pumpLines_eq {logged : Nat} (h : logged < STDERR_LOG_LIMIT) (lines : List (List UInt8)) :
    ∃ first rest, lines = first ++ rest ∧
      logged + first.dropLast.flatten.length < STDERR_LOG_LIMIT ∧
      ((rest = [] ∧ logged + lines.flatten.length < STDERR_LOG_LIMIT ∧
          pumpLines o token logged lines = first.map (stderrCall o token)) ∨
        (STDERR_LOG_LIMIT ≤ logged + first.flatten.length ∧
          pumpLines o token logged lines = first.map (stderrCall o token) ++ [truncatedCall])) := by
  induction lines generalizing logged with
  | nil => exact ⟨[], [], rfl, h, .inl ⟨rfl, h, rfl⟩⟩
  | cons line lines ih =>
    rw [pumpLines, if_neg (Nat.not_le.mpr h)]
    by_cases hfull : STDERR_LOG_LIMIT ≤ logged + line.length
    · refine ⟨[line], lines, rfl, h, .inr ⟨?_, ?_⟩⟩
      · rwa [List.flatten_singleton]
      · rw [if_pos hfull, pumpLines_of_full hfull]
        rfl
    · obtain ⟨first, rest, rfl, hshort, hcases⟩ := ih (Nat.not_le.mp hfull)
      have hlength : ∀ lines : List (List UInt8),
          logged + (line :: lines).flatten.length = logged + line.length + lines.flatten.length := by
        intro lines
        rw [List.flatten_cons, List.length_append, Nat.add_assoc]
      refine ⟨line :: first, rest, rfl, ?_, ?_⟩
      · cases first with
        | nil => exact h
        | cons next first => rwa [List.dropLast_cons_cons, hlength]
      · rw [if_neg hfull, List.nil_append, List.map_cons, hlength, hlength]
        rcases hcases with ⟨rfl, hall, hlogged⟩ | ⟨hreached, hlogged⟩
        · exact .inl ⟨rfl, hall, congrArg _ hlogged⟩
        · exact .inr ⟨hreached, congrArg _ hlogged⟩

/-- What a token has to be so that its replacement does not hold it. -/
structure Redactable (token : String) : Prop where
  nonempty : token ≠ ""
  left : '[' ∉ token.toList
  right : ']' ∉ token.toList
  inner : ¬ token.toList <:+: "redacted".toList

/-- Such are the tokens that `config_ui.py` draws. -/
theorem Redactable.of_urlsafe (hlength : 8 < token.toList.length)
    (hchars : (token.toList.all fun c => c.isAlphanum || c == '-' || c == '_') = true) :
    Redactable token where
  nonempty := by
    rintro rfl
    cases hlength
  left h := by
    have hbracket := List.all_eq_true.mp hchars '[' h
    revert hbracket
    decide
  right h := by
    have hbracket := List.all_eq_true.mp hchars ']' h
    revert hbracket
    decide
  inner h := absurd h.length_le (Nat.not_le.mpr hlength)

theorem not_infix_redacted (h : Redactable token) (line : List UInt8) :
    ¬ token.toList <:+: (redacted o token line).toList := by
  have htoken : token.toList ≠ [] := fun hnil => h.nonempty (String.toList_eq_nil_iff.mp hnil)
  have hnew : "[redacted]".toList = '[' :: ("redacted".toList ++ [']']) := by decide
  rw [redacted, replaceAll, String.toList_ofList, hnew]
  exact not_infix_replaceChars htoken h.left h.right h.inner _

/-- Of all that a child writes to its standard error the first lines are logged, without the
token and only while those before them are short of the limit, and at most one warning. -/
theorem stderr_redacted (o : Outside) (h : Redactable token) (bytes : List UInt8) :
    ∃ lines, lines <+: chunks bytes ∧ lines.dropLast.flatten.length < STDERR_LOG_LIMIT ∧
      (∀ line ∈ lines, ¬ token.toList <:+: (redacted o token line).toList) ∧
      ((lines = chunks bytes ∧ bytes.length < STDERR_LOG_LIMIT ∧
          pumpStderr o token bytes = lines.map (stderrCall o token)) ∨
        (STDERR_LOG_LIMIT ≤ bytes.length ∧
          pumpStderr o token bytes = lines.map (stderrCall o token) ++ [truncatedCall])) := by
  obtain ⟨lines, rest, hlines, hshort, hcases⟩ :=
    @pumpLines_eq o token 0 (by decide) (chunks bytes)
  have hbytes : (chunks bytes).flatten.length = bytes.length := by rw [chunks_flatten]
  rw [Nat.zero_add] at hshort
  rw [Nat.zero_add, Nat.zero_add, hbytes] at hcases
  refine ⟨lines, ⟨rest, hlines.symm⟩, hshort, fun line _ => not_infix_redacted h line, ?_⟩
  rcases hcases with ⟨rfl, hall, hlogged⟩ | ⟨hreached, hlogged⟩
  · exact .inl ⟨by rw [hlines, List.append_nil], hall, hlogged⟩
  · refine .inr ⟨?_, hlogged⟩
    have hlength : lines.flatten.length ≤ bytes.length := by
      rw [← hbytes, hlines, List.flatten_append, List.length_append]
      exact Nat.le_add_right _ _
    exact hreached.trans hlength

def plainOutside : Outside where
  home := some "/home/user"
  lossy := fun bytes => (text? bytes).getD ""
  jsonError := fun _ => ""

theorem fakeToken_redacted : ∃ lines, lines <+: chunks (bytesOf "serving fake-ui-token\n") ∧
    lines.dropLast.flatten.length < STDERR_LOG_LIMIT ∧
    (∀ line ∈ lines, ¬ "fake-ui-token".toList <:+:
      (redacted plainOutside "fake-ui-token" line).toList) ∧
    ((lines = chunks (bytesOf "serving fake-ui-token\n") ∧
        (bytesOf "serving fake-ui-token\n").length < STDERR_LOG_LIMIT ∧
        pumpStderr plainOutside "fake-ui-token" (bytesOf "serving fake-ui-token\n") =
          lines.map (stderrCall plainOutside "fake-ui-token")) ∨
      (STDERR_LOG_LIMIT ≤ (bytesOf "serving fake-ui-token\n").length ∧
        pumpStderr plainOutside "fake-ui-token" (bytesOf "serving fake-ui-token\n") =
          lines.map (stderrCall plainOutside "fake-ui-token") ++ [truncatedCall])) :=
  stderr_redacted plainOutside
    (.of_urlsafe (by decide) (by decide)) (bytesOf "serving fake-ui-token\n")

end Stderr

end RemyCC.Ui
