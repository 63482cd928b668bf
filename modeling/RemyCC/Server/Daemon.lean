import RemyCC.Server.Survival

/-!
# The daemon between its connections

The listener takes one connection after the other and hands each to the handler.
A connection whose first request does not carry the token of the session is a
stranger's. What strangers send leaves no trace: the scheduler, the end of the
daemon and the answers to every other connection are those of the run in which
the strangers never called.
-/

namespace RemyCC.Server

open State Scheduler

/-- What `accept` yields. -/
inductive Arrival where
  | connected (meetings : Nat → Meeting) (stream : Stream)
  | failed

inductive ServeError where
  | accept
  | state (error : StateError)
  | log

/-- What the daemon leaves: the answers to each connection it took, and what
`serve` returns unless it still listens. -/
structure Session where
  system : System
  answers : List (List Response)
  outcome : Option (Except ServeError Unit)

def Session.after (written : List Response) (session : Session) : Session :=
  { session with answers := written :: session.answers }

/-- The loop over the connections; `logged` tells whether the shutdown can be logged. -/
def serve (host : Host) (logged : Bool) : List Arrival → System → Session
  | [], s => { system := s, answers := [], outcome := none }
  | .failed :: _, s => { system := s, answers := [], outcome := some (.error .accept) }
  | .connected meetings stream :: rest, s =>
    let served := handleConnection host meetings stream s
    match served.outcome with
    | .error e =>
      { system := served.system, answers := [served.written], outcome := some (.error (.state e)) }
    | .ok .continue => (serve host logged rest served.system).after served.written
    | .ok .shutdown =>
      { system := served.system, answers := [served.written],
        outcome := some (if logged then .ok () else .error .log) }

namespace Host

variable (host : Host)

/-- The first line that is a request, if the reader gets that far. -/
def firstRequest : List (Option String) → Option Request
  | [] => none
  | none :: _ => none
  | some line :: rest =>
    match host.decode line with
    | some request => some request
    | none => firstRequest rest

def admits (lines : List (Option String)) : Bool :=
  (host.firstRequest lines).any fun request => request.token == host.token

def invalidRequest : Response :=
  .error "invalid_request" "request is not valid protocol JSON"

def badToken : Response := .error "bad_token" "session token does not match"

/-- The answers to lines that do not get past the token. -/
def rebuff : List (Option String) → List Response
  | [] => []
  | none :: _ => []
  | some line :: rest =>
    match host.decode line with
    | some _ => [badToken]
    | none => invalidRequest :: rebuff rest

def knows : Arrival → Bool
  | .connected _ stream => host.admits stream.limited.lines
  | .failed => true

end Host

section Strangers

variable {host : Host}

theorem admits_cons_of_decode {line : String} {request : Request} (rest : List (Option String))
    (h : host.decode line = some request) :
    host.admits (some line :: rest) = (request.token == host.token) := by
  simp only [Host.admits, Host.firstRequest, h, Option.any_some]

theorem admits_cons_of_not {line : String} (rest : List (Option String))
    (h : host.decode line = none) : host.admits (some line :: rest) = host.admits rest := by
  simp only [Host.admits, Host.firstRequest, h]

/-- The handler of a stranger never comes to a command. -/
theorem converse_stranger (meetings : Nat → Meeting) (n : Nat) {lines : List (Option String)}
    (s : System) (h : host.admits lines = false) :
    converse host meetings n lines s =
      { system := s, written := host.rebuff lines, outcome := .ok .continue } := by
  induction lines generalizing n with
  | nil => rfl
  | cons line rest ih =>
    cases line with
    | none => rfl
    | some line =>
      cases hdecode : host.decode line with
      | none =>
        have hjudge : host.judge (meetings n) (some line) = .say Host.invalidRequest := by
          simp only [Host.judge, hdecode, Host.invalidRequest]
        rw [admits_cons_of_not rest hdecode] at h
        rw [converse, hjudge]
        simp only [ih (n + 1) h, Served.after, Host.rebuff, hdecode]
      | some request =>
        rw [admits_cons_of_decode rest hdecode, beq_eq_false_iff_ne] at h
        have hjudge : host.judge (meetings n) (some line) = .close .continue [Host.badToken] := by
          simp only [Host.judge, hdecode, if_pos h, Host.badToken]
        rw [converse, hjudge]
        simp only [Host.rebuff, hdecode]

theorem rebuff_shape (lines : List (Option String)) :
    ∃ n, host.rebuff lines = List.replicate n Host.invalidRequest ∨
      host.rebuff lines = List.replicate n Host.invalidRequest ++ [Host.badToken] := by
  induction lines with
  | nil => exact ⟨0, .inl rfl⟩
  | cons line rest ih =>
    cases line with
    | none => exact ⟨0, .inl rfl⟩
    | some line =>
      cases hdecode : host.decode line with
      | some request => exact ⟨0, .inr (by simp [Host.rebuff, hdecode])⟩
      | none =>
        obtain ⟨n, hn⟩ := ih
        refine ⟨n + 1, ?_⟩
        rcases hn with hn | hn
        · exact .inl (by simp [Host.rebuff, hdecode, hn, List.replicate_succ])
        · exact .inr (by simp [Host.rebuff, hdecode, hn, List.replicate_succ])

theorem serve_stranger {meetings : Nat → Meeting} {stream : Stream} (logged : Bool)
    (rest : List Arrival) (s : System) (h : host.admits stream.limited.lines = false) :
    serve host logged (.connected meetings stream :: rest) s =
      (serve host logged rest s).after (host.rebuff stream.limited.lines) := by
  simp only [serve, handleConnection, converse_stranger meetings 0 s h]

end Strangers

/-- Every path the handler of a connection is asked for resolves. -/
def Arrival.Resolves (host : Host) : Arrival → Prop
  | .connected meetings stream => ∀ asks ∈ asked host meetings 0 stream.limited.lines,
      Resolving (meetings asks.1).wait.own.env.fs asks.2
  | .failed => True

def Arrival.Readable : Arrival → Prop
  | .connected meetings _ => ∀ n, (meetings n).wait.Readable
  | .failed => True

def Arrival.lines : Arrival → List (Option String)
  | .connected _ stream => stream.limited.lines
  | .failed => []

/-- The run of the daemon over some arrivals beside its run over the known ones. -/
structure Apart (host : Host) (logged : Bool) (arrivals : List Arrival) (s : System) :
    Prop where
  system : (serve host logged arrivals s).system =
    (serve host logged (arrivals.filter host.knows) s).system
  outcome : (serve host logged arrivals s).outcome =
    (serve host logged (arrivals.filter host.knows) s).outcome
  answers : ((arrivals.zip (serve host logged arrivals s).answers).filter
      fun answered => host.knows answered.1).map Prod.snd =
    (serve host logged (arrivals.filter host.knows) s).answers
  rebuffed : ∀ answered ∈ arrivals.zip (serve host logged arrivals s).answers,
    host.knows answered.1 = false → answered.2 = host.rebuff answered.1.lines

/-- The daemon goes on as long as the paths that known connections ask for resolve. -/
structure Lasting (host : Host) (logged : Bool) (arrivals : List Arrival) (s : System) :
    Prop where
  serving : Serving (serve host logged arrivals s).system
  asked : ∀ e, (serve host logged arrivals s).outcome ≠ some (.error (.state e))
  ended : (serve host logged arrivals s).outcome = some (.ok ()) →
    ∃ arrival ∈ arrivals, host.knows arrival = true ∧
      ∃ text, some text ∈ arrival.lines ∧ host.decode text = some (.shutdown host.token)

section Run

variable {host : Host} {logged : Bool} {s : System}

theorem apart_stranger {meetings : Nat → Meeting} {stream : Stream} {rest : List Arrival}
    (hstranger : host.admits stream.limited.lines = false)
    (h : Apart host logged rest s) :
    Apart host logged (.connected meetings stream :: rest) s := by
  have hknows : host.knows (.connected meetings stream) = false := hstranger
  have hserve : serve host logged (.connected meetings stream :: rest) s =
      (serve host logged rest s).after (host.rebuff stream.limited.lines) :=
    serve_stranger logged rest s hstranger
  refine ⟨?_, ?_, ?_, ?_⟩
  · rw [hserve, List.filter_cons_of_neg (by simp [hknows])]
    exact h.system
  · rw [hserve, List.filter_cons_of_neg (by simp [hknows])]
    exact h.outcome
  · rw [hserve, List.filter_cons_of_neg (by simp [hknows])]
    simp only [Session.after, List.zip_cons_cons]
    rw [List.filter_cons_of_neg (by simp [hknows])]
    exact h.answers
  · rw [hserve]
    simp only [Session.after, List.zip_cons_cons]
    intro answered hmem hunknown
    rcases List.mem_cons.mp hmem with rfl | hmem
    · rfl
    · exact h.rebuffed answered hmem hunknown

theorem apart_ended {arrival : Arrival} {rest : List Arrival} {session : Session}
    (hknown : host.knows arrival = true)
    (hanswers : session.answers = [] ∨ ∃ written, session.answers = [written])
    (hserve : ∀ others, serve host logged (arrival :: others) s = session) :
    Apart host logged (arrival :: rest) s := by
  have hzip : (arrival :: rest).zip session.answers =
      session.answers.map fun written => (arrival, written) := by
    rcases hanswers with h | ⟨written, h⟩
    · rw [h, List.zip_nil_right, List.map_nil]
    · rw [h, List.zip_cons_cons, List.zip_nil_right, List.map_singleton]
  have hall : ∀ answered ∈ session.answers.map fun written => (arrival, written),
      host.knows answered.1 = true := by
    intro answered hmem
    obtain ⟨written, -, rfl⟩ := List.mem_map.mp hmem
    exact hknown
  refine ⟨?_, ?_, ?_, ?_⟩
  · rw [List.filter_cons_of_pos hknown, hserve, hserve]
  · rw [List.filter_cons_of_pos hknown, hserve, hserve]
  · rw [List.filter_cons_of_pos hknown, hserve, hserve, hzip, List.filter_eq_self.mpr hall,
      List.map_map]
    exact List.map_id _
  · rw [hserve, hzip]
    intro answered hmem hunknown
    rw [hall answered hmem] at hunknown
    cases hunknown

theorem apart_continued {arrival : Arrival} {rest : List Arrival} {t : System}
    {written : List Response} (hknown : host.knows arrival = true)
    (hserve : ∀ others, serve host logged (arrival :: others) s =
      (serve host logged others t).after written)
    (h : Apart host logged rest t) : Apart host logged (arrival :: rest) s := by
  refine ⟨?_, ?_, ?_, ?_⟩
  · rw [List.filter_cons_of_pos hknown, hserve, hserve]
    exact h.system
  · rw [List.filter_cons_of_pos hknown, hserve, hserve]
    exact h.outcome
  · rw [List.filter_cons_of_pos hknown, hserve, hserve]
    simp only [Session.after, List.zip_cons_cons]
    rw [List.filter_cons_of_pos (by exact hknown), List.map_cons, h.answers]
  · rw [hserve]
    simp only [Session.after, List.zip_cons_cons]
    intro answered hmem hunknown
    rcases List.mem_cons.mp hmem with rfl | hmem
    · rw [hknown] at hunknown
      cases hunknown
    · exact h.rebuffed answered hmem hunknown

theorem knows_of_shutdown {meetings : Nat → Meeting} {stream : Stream}
    (h : (handleConnection host meetings stream s).outcome = .ok .shutdown) :
    host.knows (.connected meetings stream) = true := by
  rw [← Bool.not_eq_false]
  intro hstranger
  rw [handleConnection, converse_stranger meetings 0 s hstranger] at h
  cases h

theorem serve_lasting {arrivals : List Arrival} (hserving : Serving s)
    (h : ∀ arrival ∈ arrivals, arrival.Readable ∧ arrival.Resolves host) :
    Lasting host logged arrivals s := by
  induction arrivals generalizing s with
  | nil => exact ⟨hserving, fun e he => (by cases he), fun hend => (by cases hend)⟩
  | cons arrival rest ih =>
    cases arrival with
    | failed => exact ⟨hserving, fun e he => (by cases he), fun hend => (by cases hend)⟩
    | connected meetings stream =>
      obtain ⟨hclock, hresolves⟩ := h _ List.mem_cons_self
      have hsurvives : Survives host stream.limited.lines
          (handleConnection host meetings stream s) :=
        (converse_survives hclock 0 _ hserving).1.mpr hresolves
      obtain ⟨outcome, houtcome⟩ := hsurvives.returned
      cases outcome with
      | «continue» =>
        have hlast := ih hsurvives.serving fun arrival hmem => h _ (List.mem_cons_of_mem _ hmem)
        have hserve : serve host logged (.connected meetings stream :: rest) s =
            (serve host logged rest (handleConnection host meetings stream s).system).after
              (handleConnection host meetings stream s).written := by
          simp only [serve, houtcome]
        refine ⟨?_, ?_, ?_⟩
        · rw [hserve]
          exact hlast.serving
        · rw [hserve]
          exact hlast.asked
        · rw [hserve]
          intro hend
          obtain ⟨arrival, hmem, hshutdown⟩ := hlast.ended hend
          exact ⟨arrival, List.mem_cons_of_mem _ hmem, hshutdown⟩
      | shutdown =>
        have hserve : serve host logged (.connected meetings stream :: rest) s =
            { system := (handleConnection host meetings stream s).system,
              answers := [(handleConnection host meetings stream s).written],
              outcome := some (if logged then .ok () else .error .log) } := by
          simp only [serve, houtcome]
        refine ⟨?_, ?_, fun _ => ?_⟩
        · rw [hserve]
          exact hsurvives.serving
        · rw [hserve]
          intro e he
          cases logged <;> cases he
        · exact ⟨_, List.mem_cons_self, knows_of_shutdown houtcome, hsurvives.shutdown houtcome⟩

end Run

theorem serve_apart (host : Host) (logged : Bool) (arrivals : List Arrival) (s : System) :
    Apart host logged arrivals s := by
  induction arrivals generalizing s with
  | nil => exact ⟨rfl, rfl, rfl, fun _ hmem => absurd hmem List.not_mem_nil⟩
  | cons arrival rest ih =>
    cases arrival with
    | failed => exact apart_ended rfl (.inl rfl) fun _ => rfl
    | connected meetings stream =>
      cases hadmits : host.admits stream.limited.lines with
      | false => exact apart_stranger hadmits (ih s)
      | true =>
        cases houtcome : (handleConnection host meetings stream s).outcome with
        | error e =>
          have hserve : ∀ others, serve host logged (.connected meetings stream :: others) s =
              { system := (handleConnection host meetings stream s).system,
                answers := [(handleConnection host meetings stream s).written],
                outcome := some (.error (.state e)) } := by
            intro others
            simp only [serve, houtcome]
          exact apart_ended hadmits (.inr ⟨_, rfl⟩) hserve
        | ok outcome =>
          cases outcome with
          | «continue» =>
            have hserve : ∀ others, serve host logged (.connected meetings stream :: others) s =
                (serve host logged others (handleConnection host meetings stream s).system).after
                  (handleConnection host meetings stream s).written := by
              intro others
              simp only [serve, houtcome]
            exact apart_continued hadmits hserve (ih _)
          | shutdown =>
            have hserve : ∀ others, serve host logged (.connected meetings stream :: others) s =
                { system := (handleConnection host meetings stream s).system,
                  answers := [(handleConnection host meetings stream s).written],
                  outcome := some (if logged then .ok () else .error .log) } := by
              intro others
              simp only [serve, houtcome]
            exact apart_ended hadmits (.inr ⟨_, rfl⟩) hserve

/-- What strangers cannot do: they change nothing that the daemon does for
others, and the daemon lasts whatever they send. -/
structure Undisturbed (host : Host) (logged : Bool) (arrivals : List Arrival) (s : System) :
    Prop where
  apart : Apart host logged arrivals s
  rebuffs : ∀ answered ∈ arrivals.zip (serve host logged arrivals s).answers,
    host.knows answered.1 = false →
      ∃ n, answered.2 = List.replicate n Host.invalidRequest ∨
        answered.2 = List.replicate n Host.invalidRequest ++ [Host.badToken]
  lasting : Serving s →
    (∀ arrival ∈ arrivals, host.knows arrival = true → arrival.Readable ∧ arrival.Resolves host) →
      Lasting host logged arrivals s

theorem serve_undisturbed (host : Host) (logged : Bool) (arrivals : List Arrival) (s : System) :
    Undisturbed host logged arrivals s := by
  have hapart : Apart host logged arrivals s := serve_apart host logged arrivals s
  refine ⟨hapart, ?_, ?_⟩
  · intro answered hmem hunknown
    rw [hapart.rebuffed answered hmem hunknown]
    exact rebuff_shape _
  · intro hserving h
    have hlast : Lasting host logged (arrivals.filter host.knows) s := by
      refine serve_lasting hserving fun arrival hmem => ?_
      obtain ⟨hmem, hknown⟩ := List.mem_filter.mp hmem
      exact h arrival hmem hknown
    refine ⟨?_, ?_, ?_⟩
    · rw [hapart.system]
      exact hlast.serving
    · rw [hapart.outcome]
      exact hlast.asked
    · rw [hapart.outcome]
      intro hend
      obtain ⟨arrival, hmem, hshutdown⟩ := hlast.ended hend
      exact ⟨arrival, (List.mem_filter.mp hmem).1, hshutdown⟩

end RemyCC.Server
