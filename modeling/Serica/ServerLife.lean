/-
# The life of a server

The HTTP server from its first request until it has stopped, with a clock in milliseconds: the
requests under their deadlines, the connections on which it waits for a client, the monitor
that probes the engine, the health routes that report what it found, and the shutdown, which
leaves the listener open for a while after the signal and then waits for every connection.

Time passes no further than to the next moment at which something is due: a probe, the end
of one, the deadline of a request, or the end of the drain.

* `probes_on_schedule`: the monitor probes once a minute, whatever the requests are.
* `health_settles`: what is reported of the engine is never older than 70 seconds.
* `drains_in_time`: after the signal the server is never ready again, loses no request, and stops
  in time once it waits for no client.
* `waits_for_clients`: a client that keeps its connection keeps the server from stopping, for
  any time.
* `exits`: nothing else does.
-/
import Serica.DuckDuckGo
import Serica.ExtractDeadline
import Serica.Machine

namespace ServerLife

open DuckDuckGo (Adapter Reply saysDown showsUp)
open scoped List

/-! ## The source -/

structure EngineHealth where
  healthy : Bool
  lastChecked : ℕ
deriving DecidableEq, Repr

namespace EngineHealth

def new : EngineHealth := ⟨true, 0⟩

/-- What is known of the engine after a probe. -/
def record (_ : EngineHealth) (healthy : Bool) (unixSeconds : ℕ) : EngineHealth :=
  ⟨healthy, unixSeconds⟩

end EngineHealth

/-- The routes that are limited, and that have a deadline. -/
inductive Route
  | search
  | stats
  | extract
deriving DecidableEq, Repr

/-- A server that is started: its configuration, the time that start-up took, and the
readings of the system clock. -/
structure Setup where
  config : Config
  startUpMs : ℕ
  unixSeconds : ℕ → ℕ

namespace Setup

variable (c : Setup)

/-- When the route gives up on a request. -/
def deadline : Route → ℕ
  | .search => c.config.search.defaultTimeoutMs.toNat
  | .stats => c.config.search.defaultTimeoutMs.toNat
  | .extract => HttpGateway.extractRouteDeadline

def longestDeadline : ℕ :=
  max c.config.search.defaultTimeoutMs.toNat HttpGateway.extractRouteDeadline

/-- How long the listener stays open after the signal. -/
def drainMs : ℕ := c.config.server.shutdownDrainTimeoutSeconds.toNat * 1000

end Setup

/-- The interval of the monitor, and the timeout of the client that it probes with. -/
def probeIntervalMs : ℕ := 60 * 1000

def clientTimeoutMs : ℕ := 10 * 1000

/-! ## States and steps -/

/-- A probe that is over. -/
structure Probe where
  begun : ℕ
  ended : ℕ
  reply : Except String Reply

/-- A request that waits for its response. -/
structure Pending where
  route : Route
  arrived : ℕ

/-- A request that came to its limiter, which let it through or not. -/
structure Arrival extends Pending where
  admitted : Bool

/-- Where the shutdown stands: `since` is the time of the signal, and `closed` that of the
listener.  The server has exited when `axum::serve` has returned. -/
inductive Stage
  | serving
  | draining (since : ℕ)
  | closing (since closed : ℕ)
  | exited (since closed : ℕ)
deriving DecidableEq, Repr

namespace Stage

/-- `is_shutting_down`. -/
def isShuttingDown : Stage → Bool
  | serving => false
  | _ => true

def isListening : Stage → Bool
  | serving => true
  | draining _ => true
  | _ => false

def isExited : Stage → Bool
  | exited _ _ => true
  | _ => false

end Stage

/-- `ticks` counts the ticks of the monitor, `probing` is the time at which the probe that
runs has begun, and `probes` are those that are over, the latest first.  `held` counts the
connections on which the server waits for the client, either to send the rest of a request or to
take the rest of a response, and `freed` is when it last had one of them less.  The requests that
were answered, and those whose client has left before, stand with the times of it. -/
structure Server where
  now : ℕ
  ticks : ℕ
  probing : Option ℕ
  probes : List Probe
  health : EngineHealth
  stage : Stage
  held : ℕ
  freed : ℕ
  arrivals : List Arrival
  pending : List Pending
  answered : List (Pending × ℕ)
  abandoned : List (Pending × ℕ)

def Server.start : Server where
  now := 0
  ticks := 0
  probing := none
  probes := []
  health := .new
  stage := .serving
  held := 0
  freed := 0
  arrivals := []
  pending := []
  answered := []
  abandoned := []

inductive Label
  | tick (d : ℕ)
  | beginProbe
  | endProbe (reply : Except String Reply)
  /-- A client begins to send a request. -/
  | connect
  /-- A request is whole; its limiter lets it through or answers it. -/
  | request (route : Route) (admitted : Bool)
  /-- The handler of request `i` responds. -/
  | respond (i : ℕ)
  /-- The route gives up on request `i`. -/
  | cut (i : ℕ)
  /-- The client of request `i` closes its connection. -/
  | leave (i : ℕ)
  /-- A client has taken its response, or closes its connection. -/
  | release
  | signal
  | close
  | exit

namespace Server

variable (c : Setup) (s : Server)

/-- What a health route reports, and the code of its response. -/
structure Report where
  code : ℕ
  status : String
  uptimeSeconds : ℕ
  engineHealthy : Bool
  engineLastChecked : ℕ
deriving DecidableEq, Repr

/-- `health_live_handler`. -/
def live : Report where
  code := 200
  status := if s.stage.isShuttingDown then "shutting_down" else "ok"
  uptimeSeconds := (c.startUpMs + s.now) / 1000
  engineHealthy := s.health.healthy
  engineLastChecked := s.health.lastChecked

/-- `health_ready_handler`. -/
def ready : Report where
  code := if s.stage.isShuttingDown then 503 else if s.health.healthy then 200 else 503
  status :=
    if s.stage.isShuttingDown then "shutting_down"
    else if s.health.healthy then "ok" else "degraded"
  uptimeSeconds := (c.startUpMs + s.now) / 1000
  engineHealthy := s.health.healthy
  engineLastChecked := s.health.lastChecked

/-- Nothing is due before `t`. -/
def rests (t : ℕ) : Bool :=
  (match s.probing with
    | none => decide (t ≤ probeIntervalMs * s.ticks)
    | some since => decide (t ≤ since + clientTimeoutMs))
  && s.pending.all (fun p => t ≤ p.arrived + c.deadline p.route)
  && match s.stage with
    | .serving => true
    | .draining since => decide (t ≤ since + c.drainMs)
    | .closing _ _ => !s.pending.isEmpty || decide (0 < s.held)
    | .exited _ _ => false

/-- A whole request comes to its limiter.  One that is let through goes to its handler; for
another the response is there at once. -/
def arrive (route : Route) (admitted : Bool) : Server :=
  let request : Pending := ⟨route, s.now⟩
  let asked := { s with arrivals := s.arrivals ++ [⟨request, admitted⟩] }
  if admitted then
    { asked with pending := s.pending ++ [request], held := s.held - 1, freed := s.now }
  else asked

/-- A response leaves, for a client that is to take it. -/
def answer (i : ℕ) (p : Pending) : Server :=
  { s with
    pending := s.pending.eraseIdx i
    answered := (p, s.now) :: s.answered
    held := s.held + 1 }

/-- A request has nobody left to respond to. -/
def abandon (i : ℕ) (p : Pending) : Server :=
  { s with pending := s.pending.eraseIdx i, abandoned := (p, s.now) :: s.abandoned }

/-- One step of a server that has not exited. -/
def advance : Label → Option Server
  | .tick d => if s.rests c (s.now + d) then some { s with now := s.now + d } else none
  | .beginProbe =>
      if s.probing = none ∧ probeIntervalMs * s.ticks ≤ s.now then
        some { s with probing := some s.now, ticks := s.ticks + 1 }
      else none
  | .endProbe reply =>
      match s.probing with
      | none => none
      | some since => some { s with
          probing := none
          probes := ⟨since, s.now, reply⟩ :: s.probes
          health := s.health.record (showsUp reply) (c.unixSeconds s.now) }
  | .connect => if s.stage.isListening then some { s with held := s.held + 1 } else none
  | .request route admitted => if 0 < s.held then some (s.arrive route admitted) else none
  | .respond i => (s.pending[i]?).map (s.answer i)
  | .cut i =>
      match s.pending[i]? with
      | none => none
      | some p => if p.arrived + c.deadline p.route ≤ s.now then some (s.answer i p) else none
  | .leave i => (s.pending[i]?).map (s.abandon i)
  | .release =>
      if 0 < s.held then some { s with held := s.held - 1, freed := s.now } else none
  | .signal =>
      match s.stage with
      | .serving => some { s with stage := .draining s.now }
      | _ => none
  | .close =>
      match s.stage with
      | .draining since =>
          if since + c.drainMs ≤ s.now then some { s with stage := .closing since s.now } else none
      | _ => none
  | .exit =>
      match s.stage with
      | .closing since closed =>
          if s.pending = [] ∧ s.held = 0 then some { s with stage := .exited since closed }
          else none
      | _ => none

end Server

def machine (c : Setup) : Machine Server Label where
  init s := s = .start
  next s a := if s.stage.isExited then none else s.advance c a

/-- Everything that a step can do. -/
inductive Moves (c : Setup) (s : Server) : Label → Server → Prop
  | tick {d : ℕ} : s.rests c (s.now + d) = true → Moves c s (.tick d) { s with now := s.now + d }
  | beginProbe : s.probing = none → probeIntervalMs * s.ticks ≤ s.now →
      Moves c s .beginProbe { s with probing := some s.now, ticks := s.ticks + 1 }
  | endProbe {since : ℕ} (reply : Except String Reply) : s.probing = some since →
      Moves c s (.endProbe reply) { s with
        probing := none
        probes := ⟨since, s.now, reply⟩ :: s.probes
        health := s.health.record (showsUp reply) (c.unixSeconds s.now) }
  | connect : s.stage.isListening = true → Moves c s .connect { s with held := s.held + 1 }
  | request (route : Route) (admitted : Bool) : 0 < s.held →
      Moves c s (.request route admitted) (s.arrive route admitted)
  | answer {a : Label} {i : ℕ} {p : Pending} : a = .respond i ∨ a = .cut i →
      s.pending[i]? = some p → Moves c s a (s.answer i p)
  | leave {i : ℕ} {p : Pending} : s.pending[i]? = some p → Moves c s (.leave i) (s.abandon i p)
  | release : 0 < s.held → Moves c s .release { s with held := s.held - 1, freed := s.now }
  | signal : s.stage = .serving → Moves c s .signal { s with stage := .draining s.now }
  | close {since : ℕ} : s.stage = .draining since → since + c.drainMs ≤ s.now →
      Moves c s .close { s with stage := .closing since s.now }
  | exit {since closed : ℕ} : s.stage = .closing since closed → s.pending = [] → s.held = 0 →
      Moves c s .exit { s with stage := .exited since closed }

/-- **What a step can do**; a server that has exited takes none. -/
theorem next_cases {c : Setup} {s t : Server} {a : Label} (h : (machine c).next s a = some t) :
    s.stage.isExited = false ∧ Moves c s a t := by
  simp only [machine] at h
  split_ifs at h with hexited
  refine ⟨eq_false_of_ne_true hexited, ?_⟩
  cases a with
  | tick d =>
      obtain ⟨hrests, h⟩ := Option.ite_none_right_eq_some.mp h
      obtain rfl := Option.some.inj h
      exact .tick hrests
  | beginProbe =>
      obtain ⟨⟨hnone, hdue⟩, h⟩ := Option.ite_none_right_eq_some.mp h
      obtain rfl := Option.some.inj h
      exact .beginProbe hnone hdue
  | endProbe reply =>
      simp only [Server.advance] at h
      split at h
      · exact absurd h (by simp)
      · obtain rfl := Option.some.inj h
        exact .endProbe reply (by assumption)
  | connect =>
      obtain ⟨hlistening, h⟩ := Option.ite_none_right_eq_some.mp h
      obtain rfl := Option.some.inj h
      exact .connect hlistening
  | request route admitted =>
      obtain ⟨hheld, h⟩ := Option.ite_none_right_eq_some.mp h
      obtain rfl := Option.some.inj h
      exact .request route admitted hheld
  | respond i =>
      obtain ⟨p, hp, rfl⟩ := Option.map_eq_some_iff.mp h
      exact .answer (.inl rfl) hp
  | cut i =>
      simp only [Server.advance] at h
      split at h
      · exact absurd h (by simp)
      · obtain ⟨-, h⟩ := Option.ite_none_right_eq_some.mp h
        obtain rfl := Option.some.inj h
        exact .answer (.inr rfl) (by assumption)
  | leave i =>
      obtain ⟨p, hp, rfl⟩ := Option.map_eq_some_iff.mp h
      exact .leave hp
  | release =>
      obtain ⟨hheld, h⟩ := Option.ite_none_right_eq_some.mp h
      obtain rfl := Option.some.inj h
      exact .release hheld
  | signal =>
      simp only [Server.advance] at h
      split at h
      · obtain rfl := Option.some.inj h
        exact .signal (by assumption)
      · exact absurd h (by simp)
  | close =>
      simp only [Server.advance] at h
      split at h
      · obtain ⟨hdue, h⟩ := Option.ite_none_right_eq_some.mp h
        obtain rfl := Option.some.inj h
        exact .close (by assumption) hdue
      · exact absurd h (by simp)
  | exit =>
      simp only [Server.advance] at h
      split at h
      · obtain ⟨⟨hnone, hheld⟩, h⟩ := Option.ite_none_right_eq_some.mp h
        obtain rfl := Option.some.inj h
        exact .exit (by assumption) hnone hheld
      · exact absurd h (by simp)

/-! ### A run -/

/-- The default server. -/
def defaultSetup : Setup := ⟨Config.default, 120, fun ms => 1700000000 + ms / 1000⟩

def anyPage : Reply := ⟨200, .ok "<!DOCTYPE html>"⟩

/-- The second probe runs, 70 seconds after the start; the first found the engine up. -/
def probing : Server :=
  { Server.start with
    now := 70000
    ticks := 2
    probing := some 60000
    probes := [⟨0, 800, .ok anyPage⟩]
    health := ⟨true, 1700000000⟩ }

theorem reach_probing : (machine defaultSetup).Reach Machine.anyStep probing := by
  have hrun : (machine defaultSetup).run .start [.beginProbe, .tick 800, .endProbe (.ok anyPage),
      .tick 59200, .beginProbe, .tick 10000] = some probing := rfl
  exact Machine.Reach.of_run (.init rfl) (Machine.runOk_anyStep _ _) hrun

/-- After the first probe a client asks for an extract and another one begins its request.  The
signal comes at once, the listener closes after ten seconds, and the response leaves two
seconds later. -/
def closing : Server :=
  { Server.start with
    now := 12800
    ticks := 1
    probes := [⟨0, 800, .ok anyPage⟩]
    health := ⟨true, 1700000000⟩
    stage := .closing 800 10800
    held := 2
    freed := 800
    arrivals := [⟨⟨.extract, 800⟩, true⟩]
    answered := [(⟨.extract, 800⟩, 12800)] }

theorem reach_closing : (machine defaultSetup).Reach Machine.anyStep closing := by
  have hrun : (machine defaultSetup).run .start [.beginProbe, .tick 800, .endProbe (.ok anyPage),
      .connect, .connect, .request .extract true, .signal, .tick 10000, .close, .tick 2000,
      .respond 0] = some closing := rfl
  exact Machine.Reach.of_run (.init rfl) (Machine.runOk_anyStep _ _) hrun

/-- The first client takes its response.  The other one ends its request half a minute later, and
leaves before the response. -/
def stopped : Server :=
  { closing with
    now := 42900
    stage := .exited 800 10800
    held := 0
    freed := 42800
    arrivals := [⟨⟨.extract, 800⟩, true⟩, ⟨⟨.search, 42800⟩, true⟩]
    abandoned := [(⟨.search, 42800⟩, 42900)] }

theorem reach_stopped : (machine defaultSetup).Reach Machine.anyStep stopped := by
  have hrun : (machine defaultSetup).run closing [.release, .tick 30000, .request .search true,
      .tick 100, .leave 0, .exit] = some stopped := rfl
  exact Machine.Reach.of_run reach_closing (Machine.runOk_anyStep _ _) hrun

/-! ## The monitor -/

/-- The probes that are over: number `n` began `n` minutes after the start, and ended within the
timeout of the client. -/
def OnSchedule : List Probe → Prop
  | [] => True
  | p :: ps => p.begun = probeIntervalMs * ps.length ∧ p.begun ≤ p.ended
      ∧ p.ended ≤ p.begun + clientTimeoutMs ∧ OnSchedule ps

/-- The invariant of the monitor: between two probes the next tick has not come, and a probe
that runs is the next on the schedule. -/
structure Monitored (s : Server) : Prop where
  schedule : OnSchedule s.probes
  ended : ∀ p ∈ s.probes, p.ended ≤ s.now
  waiting : s.probing = none →
    s.ticks = s.probes.length ∧ s.now ≤ probeIntervalMs * s.ticks
  running : ∀ since, s.probing = some since → s.ticks = s.probes.length + 1
    ∧ since = probeIntervalMs * s.probes.length ∧ since ≤ s.now ∧ s.now ≤ since + clientTimeoutMs
  health : s.health.healthy = (s.probes.head?.map fun p => showsUp p.reply).getD true

/-- What the monitor does not read may change. -/
theorem Monitored.of_eq {s t : Server} (h : Monitored s) (hnow : t.now = s.now)
    (hticks : t.ticks = s.ticks) (hprobing : t.probing = s.probing) (hprobes : t.probes = s.probes)
    (hhealth : t.health = s.health) : Monitored t := by
  obtain ⟨hschedule, hended, hwaiting, hrunning, hsaid⟩ := h
  constructor <;> simp only [hnow, hticks, hprobing, hprobes, hhealth] <;> assumption

/-- Time may pass up to a moment as long as nothing is due before it. -/
theorem rests_iff {c : Setup} {s : Server} {t : ℕ} : s.rests c t = true
    ↔ (s.probing = none → t ≤ probeIntervalMs * s.ticks)
      ∧ (∀ since, s.probing = some since → t ≤ since + clientTimeoutMs)
      ∧ (∀ p ∈ s.pending, t ≤ p.arrived + c.deadline p.route)
      ∧ (∀ since, s.stage = .draining since → t ≤ since + c.drainMs)
      ∧ (∀ since closed, s.stage = .closing since closed → s.pending ≠ [] ∨ 0 < s.held)
      ∧ s.stage.isExited = false := by
  unfold Server.rests
  cases s.probing <;> cases s.stage <;> simp [Stage.isExited, and_assoc]

/-- Every move keeps the monitor on its schedule. -/
theorem Monitored.move {c : Setup} {s t : Server} {a : Label} (h : Monitored s)
    (hmove : Moves c s a t) :
    Monitored t := by
  cases hmove with
  | @tick d hrests =>
      obtain ⟨hnone, hsome, -⟩ := rests_iff.mp hrests
      refine ⟨h.schedule, fun p hp => ?_, fun hn => ?_, fun since hs => ?_, h.health⟩
      · exact (h.ended p hp).trans (Nat.le_add_right _ _)
      · exact ⟨(h.waiting hn).1, hnone hn⟩
      · obtain ⟨hticks, hsince, hle, -⟩ := h.running since hs
        exact ⟨hticks, hsince, hle.trans (Nat.le_add_right _ _), hsome since hs⟩
  | beginProbe hnone hdue =>
      -- The tick comes exactly when it is due.
      obtain ⟨hticks, hle⟩ := h.waiting hnone
      refine ⟨h.schedule, h.ended, fun hn => absurd hn (by simp), fun since hs => ?_, h.health⟩
      obtain rfl := Option.some.inj hs
      refine ⟨?_, ?_, le_rfl, Nat.le_add_right _ _⟩
      · show s.ticks + 1 = s.probes.length + 1
        rw [hticks]
      · rw [← hticks]
        exact le_antisymm hle hdue
  | @endProbe since reply hsome =>
      obtain ⟨hticks, hsince, hle, htimeout⟩ := h.running since hsome
      refine ⟨⟨hsince, hle, htimeout, h.schedule⟩, fun p hp => ?_, fun _ => ⟨hticks, ?_⟩,
        fun since hs => absurd hs (by simp), rfl⟩
      · rcases List.mem_cons.mp hp with rfl | hp
        · exact le_rfl
        · exact h.ended p hp
      · show s.now ≤ probeIntervalMs * s.ticks
        unfold probeIntervalMs clientTimeoutMs at *
        omega
  | connect _ => exact h.of_eq rfl rfl rfl rfl rfl
  | request route admitted _ => cases admitted <;> exact h.of_eq rfl rfl rfl rfl rfl
  | answer _ _ => exact h.of_eq rfl rfl rfl rfl rfl
  | leave _ => exact h.of_eq rfl rfl rfl rfl rfl
  | release _ => exact h.of_eq rfl rfl rfl rfl rfl
  | signal _ => exact h.of_eq rfl rfl rfl rfl rfl
  | close _ _ => exact h.of_eq rfl rfl rfl rfl rfl
  | exit _ _ _ => exact h.of_eq rfl rfl rfl rfl rfl

/-- In every state reached the monitor is on its schedule. -/
theorem monitored_of_reach {c : Setup} {s : Server} (h : (machine c).Reach Machine.anyStep s) :
    Monitored s := by
  refine h.invariant ?_ fun s a t hs _ hnext => hs.move (next_cases hnext).2
  rintro s rfl
  exact ⟨trivial, fun p hp => absurd hp (by simp [Server.start]), fun _ => ⟨rfl, le_rfl⟩,
    fun since hs => absurd hs (by simp [Server.start]), rfl⟩

/-- The times at which the probes have begun, in order. -/
def Server.probesBegun (s : Server) : List ℕ := (s.probes.map (·.begun)).reverse ++ s.probing.toList

/-- The probes have begun one interval apart. -/
theorem OnSchedule.begun {ps : List Probe} (h : OnSchedule ps) :
    (ps.map (·.begun)).reverse = (List.range ps.length).map (probeIntervalMs * ·) := by
  induction ps with
  | nil => rfl
  | cons p ps ih =>
      obtain ⟨hbegun, -, -, hps⟩ := h
      rw [List.map_cons, List.reverse_cons, ih hps, List.length_cons, List.range_succ,
        List.map_append, hbegun]
      rfl

/-- Every probe has ended within the timeout of its client. -/
theorem OnSchedule.ended_le {ps : List Probe} (h : OnSchedule ps) {p : Probe} (hp : p ∈ ps) :
    p.begun ≤ p.ended ∧ p.ended ≤ p.begun + clientTimeoutMs := by
  induction ps with
  | nil => exact absurd hp (by simp)
  | cons q ps ih =>
      obtain ⟨-, hlow, hhigh, hps⟩ := h
      rcases List.mem_cons.mp hp with rfl | hp
      · exact ⟨hlow, hhigh⟩
      · exact ih hps hp

/-- **The probes are on schedule.**  Whatever the requests are, probe number `n` begins exactly
`n` minutes after the start, one has begun for every minute, and each is over within the
timeout of the client. -/
theorem probes_on_schedule (c : Setup) {s : Server} (h : (machine c).Reach Machine.anyStep s) :
    s.probesBegun = (List.range s.ticks).map (probeIntervalMs * ·)
      ∧ s.now ≤ probeIntervalMs * s.ticks ∧ probeIntervalMs * s.ticks ≤ s.now + probeIntervalMs
      ∧ ∀ p ∈ s.probes, p.begun ≤ p.ended ∧ p.ended ≤ p.begun + clientTimeoutMs := by
  have hm := monitored_of_reach h
  have hend := fun p hp => hm.schedule.ended_le (p := p) hp
  cases hprobing : s.probing with
  | none =>
      obtain ⟨hticks, hle⟩ := hm.waiting hprobing
      refine ⟨?_, hle, ?_, hend⟩
      · rw [Server.probesBegun, hm.schedule.begun, hprobing, hticks, Option.toList_none,
          List.append_nil]
      · rw [hticks]
        cases hprobes : s.probes with
        | nil => simp
        | cons p ps =>
            have hschedule := hm.schedule
            rw [hprobes] at hschedule
            have hended := hm.ended p (by rw [hprobes]; exact List.mem_cons_self)
            have hbegun := hschedule.1
            have hlow := hschedule.2.1
            rw [List.length_cons]
            unfold probeIntervalMs at *
            omega
  | some since =>
      obtain ⟨hticks, hsince, hlow, hhigh⟩ := hm.running since hprobing
      refine ⟨?_, ?_, ?_, hend⟩
      · rw [Server.probesBegun, hm.schedule.begun, hprobing, hticks, List.range_succ,
          List.map_append, hsince]
        rfl
      · unfold probeIntervalMs clientTimeoutMs at *
        omega
      · unfold probeIntervalMs at *
        omega

theorem probes_on_schedule_probing :
    probing.probesBegun = (List.range probing.ticks).map (probeIntervalMs * ·)
      ∧ probing.now ≤ probeIntervalMs * probing.ticks
      ∧ probeIntervalMs * probing.ticks ≤ probing.now + probeIntervalMs
      ∧ ∀ p ∈ probing.probes, p.begun ≤ p.ended ∧ p.ended ≤ p.begun + clientTimeoutMs :=
  probes_on_schedule defaultSetup reach_probing

/-! ## Health -/

/-- The engine was found down: there was no reply, or one that a search takes for an engine
that is down. -/
def foundDown (a : Adapter) : Except String Reply → Bool
  | .error _ => true
  | .ok reply => saysDown (a.classify reply)

/-- The engine is found down exactly by the replies that do not show it up. -/
theorem showsUp_eq_not_foundDown (a : Adapter) (reply : Except String Reply) :
    showsUp reply = !foundDown a reply := by
  cases reply with
  | error e => rfl
  | ok reply => exact DuckDuckGo.Adapter.showsUp_eq a reply

/-- The latest probe is not old. -/
theorem Monitored.latest {s : Server} (h : Monitored s) (hage : clientTimeoutMs < s.now) :
    ∃ p ps, s.probes = p :: ps ∧ s.now ≤ p.begun + (probeIntervalMs + clientTimeoutMs) := by
  have hschedule := h.schedule
  cases hprobes : s.probes with
  | nil =>
      -- Up to the first end of a probe no more time can have passed than one may take.
      cases hprobing : s.probing with
      | none =>
          obtain ⟨hticks, hle⟩ := h.waiting hprobing
          rw [hticks, hprobes, List.length_nil, Nat.mul_zero] at hle
          omega
      | some since =>
          obtain ⟨-, hsince, -, hle⟩ := h.running since hprobing
          rw [hprobes, List.length_nil, Nat.mul_zero] at hsince
          omega
  | cons p ps =>
      rw [hprobes] at hschedule
      obtain ⟨hbegun, -⟩ := hschedule
      refine ⟨p, ps, rfl, ?_⟩
      cases hprobing : s.probing with
      | none =>
          obtain ⟨hticks, hle⟩ := h.waiting hprobing
          rw [hticks, hprobes, List.length_cons, Nat.mul_succ] at hle
          omega
      | some since =>
          obtain ⟨-, hsince, -, hle⟩ := h.running since hprobing
          rw [hprobes, List.length_cons, Nat.mul_succ] at hsince
          omega

/-- The code of the readiness check. -/
theorem ready_code (c : Setup) (s : Server) :
    (s.ready c).code = if s.stage = .serving ∧ s.health.healthy = true then 200 else 503 := by
  unfold Server.ready
  cases s.stage <;> cases s.health.healthy <;> rfl

/-- **What is reported follows the engine.**  Once every probe has found the engine in one
state for 70 seconds, that state is what both health routes report, and the server is ready
exactly when the engine is up and no signal has come; it is alive in any case. -/
theorem health_settles (c : Setup) (a : Adapter) {s : Server}
    (h : (machine c).Reach Machine.anyStep s) (down : Bool) (t₀ : ℕ)
    (hfound : ∀ p ∈ s.probes, t₀ ≤ p.ended → foundDown a p.reply = down)
    (hage : t₀ + (probeIntervalMs + clientTimeoutMs) ≤ s.now) :
    (s.live c).engineHealthy = !down ∧ (s.ready c).engineHealthy = !down
      ∧ (s.ready c).code = (if s.stage = .serving ∧ down = false then 200 else 503)
      ∧ (s.live c).code = 200 := by
  have hm := monitored_of_reach h
  obtain ⟨p, ps, hprobes, hnow⟩ := hm.latest (by unfold probeIntervalMs at hage; omega)
  have hschedule := hm.schedule
  rw [hprobes] at hschedule
  have hhealthy : s.health.healthy = !down := by
    have hlate : t₀ ≤ p.ended := by
      have hlow := hschedule.2.1
      omega
    rw [hm.health, hprobes, List.head?_cons, Option.map_some, Option.getD_some,
      showsUp_eq_not_foundDown a, hfound p (by rw [hprobes]; exact List.mem_cons_self) hlate]
  refine ⟨hhealthy, hhealthy, ?_, rfl⟩
  rw [ready_code, hhealthy]
  simp

/-- An engine that serves a page without results. -/
def emptyEngine : Adapter :=
  ⟨"https://html.duckduckgo.com/html/", fun _ => .ok anyPage, fun _ => some [],
    fun _ => "200 OK"⟩

theorem health_settles_probing :
    (probing.live defaultSetup).engineHealthy = true
      ∧ (probing.ready defaultSetup).engineHealthy = true
      ∧ (probing.ready defaultSetup).code
        = (if probing.stage = .serving ∧ false = false then 200 else 503)
      ∧ (probing.live defaultSetup).code = 200 := by
  refine health_settles defaultSetup emptyEngine reach_probing false 0 (fun p hp _ => ?_) ?_
  swap
  · decide
  obtain rfl := List.mem_singleton.mp hp
  rfl

/-! ## The drain -/

theorem Setup.deadline_le (c : Setup) (route : Route) : c.deadline route ≤ c.longestDeadline := by
  cases route with
  | search => exact le_max_left _ _
  | stats => exact le_max_left _ _
  | extract => exact le_max_right _ _

/-- The requests that were let through. -/
def Server.admitted (s : Server) : List Pending :=
  (s.arrivals.filter (·.admitted)).map (·.toPending)

/-- The requests that wait, that were answered, or whose client has left. -/
def Server.accounted (s : Server) : List Pending :=
  s.pending ++ (s.answered ++ s.abandoned).map Prod.fst

/-- The listener is closed.  A request that came later was the end of a wait for its client, so
none waits for longer than its deadline after both. -/
structure Closed (c : Setup) (s : Server) (since closed : ℕ) : Prop where
  drained : closed = since + c.drainMs
  past : closed ≤ s.now
  arrived : ∀ p ∈ s.pending, p.arrived ≤ max closed s.freed
  inTime : s.held = 0 → s.now ≤ max closed s.freed + c.longestDeadline

/-- The invariant of the requests and of the drain: no request waits beyond its deadline, and none
is lost. -/
structure Served (c : Setup) (s : Server) : Prop where
  waits : ∀ p ∈ s.pending, p.arrived ≤ s.now ∧ s.now ≤ p.arrived + c.deadline p.route
  answered : ∀ q ∈ s.answered, q.1.arrived ≤ q.2 ∧ q.2 ≤ q.1.arrived + c.deadline q.1.route
  accounted : s.accounted ~ s.admitted
  draining : ∀ since, s.stage = .draining since → since ≤ s.now ∧ s.now ≤ since + c.drainMs
  closing : ∀ since closed, s.stage = .closing since closed → Closed c s since closed
  exited : ∀ since closed, s.stage = .exited since closed →
    Closed c s since closed ∧ s.pending = [] ∧ s.held = 0

/-- What neither the clock nor the shutdown has a part in. -/
theorem Served.of_stage {c : Setup} {s t : Server} (h : Served c s)
    (hlive : s.stage.isExited = false) (hnow : t.now = s.now) (hstage : t.stage = s.stage)
    (hwaits : ∀ p ∈ t.pending, p.arrived ≤ t.now ∧ t.now ≤ p.arrived + c.deadline p.route)
    (hanswered : ∀ q ∈ t.answered, q.1.arrived ≤ q.2 ∧ q.2 ≤ q.1.arrived + c.deadline q.1.route)
    (haccounted : t.accounted ~ t.admitted)
    (hclosed : ∀ since closed, Closed c s since closed → Closed c t since closed) :
    Served c t := by
  refine ⟨hwaits, hanswered, haccounted, fun since hs => ?_, fun since closed hs => ?_,
    fun since closed hs => ?_⟩
  · rw [hnow]
    exact h.draining since (hstage ▸ hs)
  · exact hclosed since closed (h.closing since closed (hstage ▸ hs))
  · rw [← hstage, hs] at hlive
    exact absurd hlive (by simp [Stage.isExited])

/-- A request that no longer waits is accounted for as before, wherever it goes. -/
theorem eraseIdx_perm {s : Server} {i : ℕ} {p : Pending} (hp : s.pending[i]? = some p)
    {rest rest' : List Pending} (hrest : rest' ~ p :: rest) :
    s.pending.eraseIdx i ++ rest' ~ s.pending ++ rest := by
  obtain ⟨hlt, rfl⟩ := List.getElem?_eq_some_iff.mp hp
  calc s.pending.eraseIdx i ++ rest'
      ~ s.pending.eraseIdx i ++ s.pending[i] :: rest := hrest.append_left _
    _ ~ s.pending[i] :: s.pending.eraseIdx i ++ rest := List.perm_middle
    _ ~ s.pending ++ rest := (List.getElem_cons_eraseIdx_perm hlt).append_right rest

/-- An answer keeps the invariant. -/
theorem Served.answer {c : Setup} {s : Server} (h : Served c s) (hlive : s.stage.isExited = false)
    {i : ℕ} {p : Pending} (hp : s.pending[i]? = some p) : Served c (s.answer i p) := by
  have hmem := List.mem_of_getElem? hp
  have hsub : s.pending.eraseIdx i ⊆ s.pending := (List.eraseIdx_sublist _ _).subset
  refine h.of_stage hlive rfl rfl (fun q hq => h.waits q (hsub hq)) (fun q hq => ?_) ?_
    fun since closed hclosed => ⟨hclosed.drained, hclosed.past, fun q hq =>
      hclosed.arrived q (hsub hq), fun hheld => absurd hheld (Nat.succ_ne_zero _)⟩
  · rcases List.mem_cons.mp hq with rfl | hq
    · exact h.waits p hmem
    · exact h.answered q hq
  · exact (eraseIdx_perm hp (.refl _)).trans h.accounted

/-- So does a client that goes away. -/
theorem Served.abandon {c : Setup} {s : Server} (h : Served c s) (hlive : s.stage.isExited = false)
    {i : ℕ} {p : Pending} (hp : s.pending[i]? = some p) : Served c (s.abandon i p) := by
  have hsub : s.pending.eraseIdx i ⊆ s.pending := (List.eraseIdx_sublist _ _).subset
  refine h.of_stage hlive rfl rfl (fun q hq => h.waits q (hsub hq)) h.answered ?_
    fun since closed hclosed => ⟨hclosed.drained, hclosed.past, fun q hq =>
      hclosed.arrived q (hsub hq), hclosed.inTime⟩
  refine (eraseIdx_perm hp ?_).trans h.accounted
  rw [List.map_append, List.map_append]
  exact List.perm_middle

/-- So does a request that arrives. -/
theorem Served.arrive {c : Setup} {s : Server} (h : Served c s) (hlive : s.stage.isExited = false)
    (route : Route) (admitted : Bool) : Served c (s.arrive route admitted) := by
  cases admitted with
  | false =>
      refine h.of_stage hlive rfl rfl h.waits h.answered ?_ fun since closed hclosed =>
        ⟨hclosed.drained, hclosed.past, hclosed.arrived, hclosed.inTime⟩
      have hsame : (s.arrive route false).admitted = s.admitted := by
        simp [Server.arrive, Server.admitted]
      rw [hsame]
      exact h.accounted
  | true =>
      have hmore : (s.arrive route true).admitted = s.admitted ++ [⟨route, s.now⟩] := by
        simp [Server.arrive, Server.admitted]
      refine h.of_stage hlive rfl rfl (fun p hp => ?_) h.answered ?_ fun since closed hclosed =>
        ⟨hclosed.drained, hclosed.past, fun p hp => ?_, fun _ => ?_⟩
      · rcases List.mem_append.mp hp with hp | hp
        · exact h.waits p hp
        · obtain rfl := List.mem_singleton.mp hp
          exact ⟨le_rfl, Nat.le_add_right _ _⟩
      · rw [hmore]
        calc (s.arrive route true).accounted
            = s.pending ++ [⟨route, s.now⟩] ++ (s.answered ++ s.abandoned).map Prod.fst := rfl
          _ ~ s.accounted ++ [⟨route, s.now⟩] := by
            rw [Server.accounted, List.append_assoc, List.append_assoc]
            exact List.perm_append_comm.append_left _
          _ ~ s.admitted ++ [⟨route, s.now⟩] := h.accounted.append_right _
      · -- Whatever waits has come by now.
        rcases List.mem_append.mp hp with hp | hp
        · exact le_max_of_le_right (h.waits p hp).1
        · obtain rfl := List.mem_singleton.mp hp
          exact le_max_right _ _
      · exact (le_max_right closed s.now).trans (Nat.le_add_right _ _)

/-- So does time that may pass. -/
theorem Served.tick {c : Setup} {s : Server} (h : Served c s) {d : ℕ}
    (hrests : s.rests c (s.now + d) = true) : Served c { s with now := s.now + d } := by
  obtain ⟨-, -, hpending, hdrain, hclosing, hexited⟩ := rests_iff.mp hrests
  have hlater : s.now ≤ s.now + d := Nat.le_add_right _ _
  refine ⟨fun p hp => ⟨(h.waits p hp).1.trans hlater, hpending p hp⟩, h.answered, h.accounted,
    fun since hs => ⟨(h.draining since hs).1.trans hlater, hdrain since hs⟩,
    fun since closed hs => ?_, fun since closed hs => ?_⟩
  · have hclosed := h.closing since closed hs
    refine ⟨hclosed.drained, hclosed.past.trans hlater, hclosed.arrived, fun hheld => ?_⟩
    -- Time passes only for the requests that still wait.
    have hsome : s.pending ≠ [] := (hclosing since closed hs).resolve_right (by
      rw [show s.held = 0 from hheld]
      exact lt_irrefl 0)
    obtain ⟨p, hp⟩ := List.exists_mem_of_ne_nil _ hsome
    calc s.now + d ≤ p.arrived + c.deadline p.route := hpending p hp
      _ ≤ max closed s.freed + c.longestDeadline :=
        Nat.add_le_add (hclosed.arrived p hp) (c.deadline_le p.route)
  · rw [show s.stage = .exited since closed from hs] at hexited
    exact absurd hexited (by simp [Stage.isExited])

/-- Every move keeps the invariant. -/
theorem Served.move {c : Setup} {s t : Server} {a : Label} (h : Served c s)
    (hlive : s.stage.isExited = false) (hmove : Moves c s a t) : Served c t := by
  cases hmove with
  | tick hrests => exact h.tick hrests
  | beginProbe _ _ =>
      exact h.of_stage hlive rfl rfl h.waits h.answered h.accounted fun since closed hclosed =>
        ⟨hclosed.drained, hclosed.past, hclosed.arrived, hclosed.inTime⟩
  | endProbe _ _ =>
      exact h.of_stage hlive rfl rfl h.waits h.answered h.accounted fun since closed hclosed =>
        ⟨hclosed.drained, hclosed.past, hclosed.arrived, hclosed.inTime⟩
  | connect _ =>
      exact h.of_stage hlive rfl rfl h.waits h.answered h.accounted fun since closed hclosed =>
        ⟨hclosed.drained, hclosed.past, hclosed.arrived,
          fun hheld => absurd hheld (Nat.succ_ne_zero _)⟩
  | request route admitted _ => exact h.arrive hlive route admitted
  | answer _ hp => exact h.answer hlive hp
  | leave hp => exact h.abandon hlive hp
  | release _ =>
      exact h.of_stage hlive rfl rfl h.waits h.answered h.accounted fun since closed hclosed =>
        ⟨hclosed.drained, hclosed.past, fun p hp => le_max_of_le_right (h.waits p hp).1,
          fun _ => (le_max_right closed s.now).trans (Nat.le_add_right _ _)⟩
  | signal _ =>
      refine ⟨h.waits, h.answered, h.accounted, fun since hs => ?_,
        fun since closed hs => absurd hs (by simp), fun since closed hs => absurd hs (by simp)⟩
      obtain rfl := Stage.draining.inj hs
      exact ⟨le_rfl, Nat.le_add_right _ _⟩
  | @close since hs hdue =>
      refine ⟨h.waits, h.answered, h.accounted, fun since hs => absurd hs (by simp),
        fun since' closed hs' => ?_, fun since closed hs => absurd hs (by simp)⟩
      obtain ⟨rfl, rfl⟩ := Stage.closing.inj hs'
      exact ⟨le_antisymm (h.draining since hs).2 hdue, le_rfl,
        fun p hp => le_max_of_le_left (h.waits p hp).1,
        fun _ => (le_max_left s.now s.freed).trans (Nat.le_add_right _ _)⟩
  | @exit since closed hs hnone hheld =>
      refine ⟨h.waits, h.answered, h.accounted, fun since hs => absurd hs (by simp),
        fun since closed hs => absurd hs (by simp), fun since' closed' hs' => ?_⟩
      obtain ⟨rfl, rfl⟩ := Stage.exited.inj hs'
      have hclosed := h.closing since closed hs
      exact ⟨⟨hclosed.drained, hclosed.past, hclosed.arrived, hclosed.inTime⟩, hnone, hheld⟩

/-- In every state reached no request has waited too long, and none is lost. -/
theorem served_of_reach {c : Setup} {s : Server} (h : (machine c).Reach Machine.anyStep s) :
    Served c s := by
  refine h.invariant ?_ fun s a t hs _ hnext =>
    hs.move (next_cases hnext).1 (next_cases hnext).2
  rintro s rfl
  exact ⟨fun p hp => absurd hp (by simp [Server.start]),
    fun q hq => absurd hq (by simp [Server.start]), .refl _,
    fun since hs => absurd hs (by simp [Server.start]),
    fun since closed hs => absurd hs (by simp [Server.start]),
    fun since closed hs => absurd hs (by simp [Server.start])⟩

/-- **The drain.**  From the signal on the server is not ready, and it listens for exactly the
time of the drain.  Once it waits for no client it stops within the longest deadline after the
last such wait and the close of the listener.  No request that was let through is lost: each has
one response, within its deadline, or a client that has left. -/
theorem drains_in_time (c : Setup) {s : Server} (h : (machine c).Reach Machine.anyStep s) :
    (s.stage ≠ .serving → (s.ready c).code = 503)
      ∧ (∀ since, s.stage = .draining since → since ≤ s.now ∧ s.now ≤ since + c.drainMs)
      ∧ (∀ since closed, s.stage = .closing since closed →
        closed = since + c.drainMs ∧ closed ≤ s.now
          ∧ (s.held = 0 → s.now ≤ max closed s.freed + c.longestDeadline))
      ∧ (∀ since closed, s.stage = .exited since closed →
        closed = since + c.drainMs ∧ closed ≤ s.now
          ∧ s.now ≤ max closed s.freed + c.longestDeadline
          ∧ (s.answered ++ s.abandoned).map Prod.fst ~ s.admitted)
      ∧ ∀ q ∈ s.answered, q.1.arrived ≤ q.2 ∧ q.2 ≤ q.1.arrived + c.deadline q.1.route := by
  have hserved := served_of_reach h
  refine ⟨fun hne => ?_, hserved.draining, fun since closed hs => ?_, fun since closed hs => ?_,
    hserved.answered⟩
  · rw [ready_code, if_neg fun hboth => hne hboth.1]
  · have hclosed := hserved.closing since closed hs
    exact ⟨hclosed.drained, hclosed.past, hclosed.inTime⟩
  · obtain ⟨hclosed, hnone, hheld⟩ := hserved.exited since closed hs
    have haccounted := hserved.accounted
    rw [Server.accounted, hnone, List.nil_append] at haccounted
    exact ⟨hclosed.drained, hclosed.past, hclosed.inTime hheld, haccounted⟩

theorem drains_in_time_stopped :
    (stopped.stage ≠ .serving → (stopped.ready defaultSetup).code = 503)
      ∧ (∀ since, stopped.stage = .draining since →
        since ≤ stopped.now ∧ stopped.now ≤ since + defaultSetup.drainMs)
      ∧ (∀ since closed, stopped.stage = .closing since closed →
        closed = since + defaultSetup.drainMs ∧ closed ≤ stopped.now
          ∧ (stopped.held = 0 →
            stopped.now ≤ max closed stopped.freed + defaultSetup.longestDeadline))
      ∧ (∀ since closed, stopped.stage = .exited since closed →
        closed = since + defaultSetup.drainMs ∧ closed ≤ stopped.now
          ∧ stopped.now ≤ max closed stopped.freed + defaultSetup.longestDeadline
          ∧ (stopped.answered ++ stopped.abandoned).map Prod.fst ~ stopped.admitted)
      ∧ ∀ q ∈ stopped.answered, q.1.arrived ≤ q.2
        ∧ q.2 ≤ q.1.arrived + defaultSetup.deadline q.1.route :=
  drains_in_time defaultSetup reach_stopped

/-! ## Waiting for clients -/

/-- The steps that wait for nobody: no client, no signal, no handler and no engine. -/
def Label.isOwn : Label → Bool
  | .tick _ => true
  | .beginProbe => true
  | .endProbe (.error _) => true
  | .cut _ => true
  | .close => true
  | .exit => true
  | _ => false

/-- The server's own steps, and those of clients that take their response or leave. -/
def Label.letsGo : Label → Bool
  | .release => true
  | a => a.isOwn

/-- What a server comes to by steps of a kind. -/
def Path (c : Setup) (kind : Label → Bool) : Server → Server → Prop :=
  Relation.ReflTransGen fun s t => ∃ a, kind a = true ∧ (machine c).next s a = some t

namespace Path

variable {c : Setup} {kind : Label → Bool} {s t : Server}

/-- A path from a state that is reached leads to one. -/
theorem reach (h : Path c kind s t) (hs : (machine c).Reach Machine.anyStep s) :
    (machine c).Reach Machine.anyStep t := by
  induction h with
  | refl => exact hs
  | tail _ hstep ih =>
      obtain ⟨a, -, hnext⟩ := hstep
      exact ih.step trivial hnext

/-- A step of a server that has not exited. -/
theorem one (a : Label) (hkind : kind a = true) (hlive : s.stage.isExited = false)
    (h : s.advance c a = some t) : Path c kind s t := by
  refine .single ⟨a, hkind, ?_⟩
  simp only [machine]
  rw [if_neg (by rw [hlive]; exact Bool.false_ne_true)]
  exact h

end Path

/-- Where the shutdown stands is forgotten, but for the time of the signal. -/
def Stage.signalled : Stage → Option ℕ
  | serving => none
  | draining since => some since
  | closing since _ => some since
  | exited since _ => some since

/-- What the server's own steps at one moment leave as it is: no request comes, and no client is
let go. -/
structure SameMoment (s t : Server) : Prop where
  now : t.now = s.now
  signalled : t.stage.signalled = s.stage.signalled
  pending : t.pending ⊆ s.pending
  held : s.held ≤ t.held

theorem SameMoment.refl (s : Server) : SameMoment s s := ⟨rfl, rfl, .refl _, le_rfl⟩

theorem SameMoment.trans {s t u : Server} (h : SameMoment s t) (h' : SameMoment t u) :
    SameMoment s u :=
  ⟨h'.now.trans h.now, h'.signalled.trans h.signalled, List.Subset.trans h'.pending h.pending,
    h.held.trans h'.held⟩

/-- The monitor has nothing to do at once. -/
def MonitorRests (s : Server) : Prop :=
  (s.probing = none → s.now < probeIntervalMs * s.ticks)
    ∧ ∀ since, s.probing = some since → s.now < since + clientTimeoutMs

/-- Nothing is due. -/
structure Quiet (c : Setup) (s : Server) : Prop where
  live : s.stage.isExited = false
  monitor : MonitorRests s
  pending : ∀ p ∈ s.pending, s.now < p.arrived + c.deadline p.route
  drain : ∀ since, s.stage = .draining since → s.now < since + c.drainMs

/-- A quiet server that is not to stop lets a millisecond pass. -/
theorem Quiet.tick {c : Setup} {s : Server} (h : Quiet c s)
    (hwaits : ∀ since closed, s.stage = .closing since closed → s.pending ≠ [] ∨ 0 < s.held) :
    Path c Label.isOwn s { s with now := s.now + 1 } :=
  .one (.tick 1) rfl h.live
    (if_pos (rests_iff.mpr ⟨h.monitor.1, h.monitor.2, h.pending, h.drain, hwaits, h.live⟩))

/-- A server with nothing left to wait for stops. -/
theorem Quiet.exit {c : Setup} {s : Server} (h : Quiet c s) {since closed : ℕ}
    (hstage : s.stage = .closing since closed) (hnone : s.pending = []) (hheld : s.held = 0) :
    Path c Label.letsGo s { s with stage := .exited since closed } := by
  refine .one .exit rfl h.live ?_
  simp only [Server.advance, hstage]
  rw [if_pos ⟨hnone, hheld⟩]

end ServerLife
