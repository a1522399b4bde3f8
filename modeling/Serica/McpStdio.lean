/-
# The MCP server on stdin and stdout

`run_stdio` reads lines and spawns a task for each line that is not blank.  A task
waits for one of 32 permits, handles its message, waits for the lock of stdout,
writes its response and a line break, flushes, and gives lock and permit back.  The
reader ends the function at the end of input, without waiting for the tasks.

The machine has one label for the reader and one for each task; which task moves is
the scheduler's choice, and a task that waits for a permit or the lock has no move.
The responses are fixed beforehand: `handle i msg` is what the `i`-th task's call of
`handle_message` will yield, as JSON on one line, and a statement for every `handle`
covers every outcome.  Writes do not fail, and go out one byte at a time.  A task is
detached, so nothing aborts it; a run may stop anywhere.

* `runStdio_answers`: when the end of input is read only after all tasks have
  finished, every response is written, exactly once.
* `runStdio_loses_response`: a response is lost when it is read earlier.
* `inFlight_le_iff`: the permits do not bound the tasks, as each takes its own.
* `stdout_framed`: no two responses are mixed, in any state of any run.
-/
import Serica.Machine
import Serica.McpGateway

namespace McpStdio

/-! ## States and steps -/

/-- What `read_line` yields before the end of input. -/
inductive ReadResult
  | line (s : String)
  | failed (e : String)
deriving DecidableEq, Repr

inductive Reader
  | running
  | returnedOk
  | returnedErr (e : String)
deriving DecidableEq, Repr

/-- Where a task stands.  While it writes, what it has written is kept next to what is
left of its response. -/
inductive Stage
  | waitingPermit
  | handling
  | waitingLock (response : String)
  | writing (written rest : List UInt8)
  | flushing
  | finished
deriving DecidableEq, Repr

structure Task where
  msg : String
  stage : Stage
deriving DecidableEq, Repr

/-- What the tasks share: the permits, the owner of the lock of stdout, and stdout. -/
structure Shared where
  permits : ℕ
  lock : Option ℕ
  stdout : List UInt8
deriving DecidableEq, Repr

structure State where
  reader : Reader
  input : List ReadResult
  shared : Shared
  tasks : List Task
deriving DecidableEq, Repr

inductive Label
  | read
  | task (i : ℕ)
deriving DecidableEq, Repr

/-- The byte that ends a line. -/
def lineBreak : UInt8 := 10

/-- `Semaphore::new(32)`. -/
def maxInFlight : ℕ := 32

/-- One pass through the loop of the reader.  A failed read ends the function. -/
def readStep (s : State) : Option State :=
  match s.reader, s.input with
  | .running, [] => some { s with reader := .returnedOk }
  | .running, .failed e :: input => some { s with reader := .returnedErr e, input := input }
  | .running, .line l :: input =>
      let msg := RustStr.trim l
      if msg = "" then some { s with input := input }
      else some { s with input := input, tasks := s.tasks ++ [⟨msg, .waitingPermit⟩] }
  | _, _ => none

/-- The next move of task `i`, whose message yields `response`. -/
def advance (i : ℕ) (response : Option String) (sh : Shared) : Stage → Option (Shared × Stage)
  | .waitingPermit =>
      if 0 < sh.permits then some ({ sh with permits := sh.permits - 1 }, .handling) else none
  | .handling =>
      match response with
      | some r => some (sh, .waitingLock r)
      | none => some ({ sh with permits := sh.permits + 1 }, .finished)
  | .waitingLock r =>
      if sh.lock = none then
        some ({ sh with lock := some i }, .writing [] (RustStr.asBytes r))
      else none
  | .writing written (b :: rest) =>
      some ({ sh with stdout := sh.stdout ++ [b] }, .writing (written ++ [b]) rest)
  | .writing _ [] => some ({ sh with stdout := sh.stdout ++ [lineBreak] }, .flushing)
  | .flushing => some ({ sh with lock := none, permits := sh.permits + 1 }, .finished)
  | .finished => none

def taskStep (handle : ℕ → String → Option String) (s : State) (i : ℕ) : Option State :=
  match s.tasks[i]? with
  | none => none
  | some t =>
      (advance i (handle i t.msg) s.shared t.stage).map fun p =>
        { s with shared := p.1, tasks := s.tasks.set i { t with stage := p.2 } }

/-- `run_stdio` on an input. -/
def machine (handle : ℕ → String → Option String) (input : List ReadResult) :
    Machine State Label where
  init s := s = ⟨.running, input, ⟨maxInFlight, none, []⟩, []⟩
  next s
    | .read => readStep s
    | .task i => taskStep handle s i

/-- Everything that the reader can do. -/
theorem readStep_cases {s s' : State} (h : readStep s = some s') :
    s.reader = .running ∧
      ((s.input = [] ∧ s' = { s with reader := .returnedOk })
      ∨ (∃ e rest, s.input = .failed e :: rest
        ∧ s' = { s with reader := .returnedErr e, input := rest })
      ∨ (∃ l rest, s.input = .line l :: rest ∧ RustStr.trim l = ""
        ∧ s' = { s with input := rest })
      ∨ ∃ l rest, s.input = .line l :: rest ∧ RustStr.trim l ≠ ""
        ∧ s' = { s with
            input := rest
            tasks := s.tasks ++ [⟨RustStr.trim l, .waitingPermit⟩] }) := by
  obtain ⟨reader, remaining, shared, tasks⟩ := s
  cases reader with
  | returnedOk => exact absurd h (by simp [readStep])
  | returnedErr e => exact absurd h (by simp [readStep])
  | running =>
      refine ⟨rfl, ?_⟩
      rcases remaining with _ | ⟨l | e, rest⟩
      · exact Or.inl ⟨rfl, (Option.some.inj h).symm⟩
      · simp only [readStep] at h
        by_cases hblank : RustStr.trim l = ""
        · rw [if_pos hblank] at h
          exact Or.inr (Or.inr (Or.inl ⟨l, rest, rfl, hblank, (Option.some.inj h).symm⟩))
        · rw [if_neg hblank] at h
          exact Or.inr (Or.inr (Or.inr ⟨l, rest, rfl, hblank, (Option.some.inj h).symm⟩))
      · exact Or.inr (Or.inl ⟨e, rest, rfl, (Option.some.inj h).symm⟩)

/-- A step of a task is a move of its stage. -/
theorem taskStep_cases {handle : ℕ → String → Option String} {s s' : State} {i : ℕ}
    (h : taskStep handle s i = some s') :
    ∃ t sh stage, s.tasks[i]? = some t
      ∧ advance i (handle i t.msg) s.shared t.stage = some (sh, stage)
      ∧ s' = { s with shared := sh, tasks := s.tasks.set i { t with stage := stage } } := by
  unfold taskStep at h
  split at h
  · exact absurd h (by simp)
  · rename_i t ht
    obtain ⟨⟨sh, stage⟩, hadvance, rfl⟩ := Option.map_eq_some_iff.mp h
    exact ⟨t, sh, stage, ht, hadvance, rfl⟩

/-! ## What is to be written -/

/-- The messages of an input: its lines, trimmed, without the blank ones. -/
def messagesOf (input : List ReadResult) : List String :=
  input.filterMap fun
    | .line l => if RustStr.trim l = "" then none else some (RustStr.trim l)
    | .failed _ => none

/-- What `handle_message` yields for the `i`-th message of an input. -/
def responseOf (handle : ℕ → String → Option String) (input : List ReadResult) (i : ℕ) :
    Option String :=
  (messagesOf input)[i]?.bind (handle i)

/-- The line that answers the `i`-th message; nothing when it has no response. -/
def lineOf (handle : ℕ → String → Option String) (input : List ReadResult) (i : ℕ) : List UInt8 :=
  match responseOf handle input i with
  | some r => RustStr.asBytes r ++ [lineBreak]
  | none => []

/-- Stdout holds the lines of exactly the messages that have a response, each once, in
some order. -/
def Answered (handle : ℕ → String → Option String) (input : List ReadResult)
    (stdout : List UInt8) : Prop :=
  ∃ order : List ℕ, order.Nodup
    ∧ (∀ i, i ∈ order ↔ (responseOf handle input i).isSome = true)
    ∧ stdout = order.flatMap (lineOf handle input)

/-! ## The invariant -/

/-- The stages in which a task owns the lock of stdout. -/
def Stage.holdsLock : Stage → Bool
  | .writing _ _ => true
  | .flushing => true
  | _ => false

/-- The stages of a task whose line is complete, given whether it has a response. -/
def Stage.lineWritten (response : Option String) : Stage → Bool
  | .flushing => true
  | .finished => response.isSome
  | _ => false

/-- What a task has written of a line that is not complete. -/
def Stage.partialLine : Stage → List UInt8
  | .writing written _ => written
  | _ => []

/-- The stage of a task agrees with its response. -/
def Stage.Agrees (response : Option String) : Stage → Prop
  | .waitingLock r => response = some r
  | .writing written rest => ∃ r, response = some r
      ∧ written ++ rest = RustStr.asBytes r
  | .flushing => response.isSome = true
  | _ => True

/-- The incomplete line on stdout: that of the owner of the lock. -/
def partialOf (lock : Option ℕ) (tasks : List Task) : List UInt8 :=
  match lock with
  | none => []
  | some i => (tasks[i]?.map fun t => t.stage.partialLine).getD []

/-- Stdout is a sequence of complete lines, one for each task that has written its own,
followed by what the owner of the lock has written. -/
def Framed (handle : ℕ → String → Option String) (input : List ReadResult) (s : State) : Prop :=
  ∃ order : List ℕ, order.Nodup
    ∧ (∀ i, i ∈ order ↔ ∃ t : Task, s.tasks[i]? = some t
        ∧ t.stage.lineWritten (responseOf handle input i) = true)
    ∧ s.shared.stdout = order.flatMap (lineOf handle input)
        ++ partialOf s.shared.lock s.tasks

structure Inv (handle : ℕ → String → Option String) (input : List ReadResult) (s : State) :
    Prop where
  messages : s.tasks.map (·.msg) ++ messagesOf s.input = messagesOf input
  agrees : ∀ (i : ℕ) (t : Task), s.tasks[i]? = some t → t.stage.Agrees (responseOf handle input i)
  lock : ∀ i, s.shared.lock = some i ↔ ∃ t : Task, s.tasks[i]? = some t ∧ t.stage.holdsLock = true
  framed : Framed handle input s
  drained : s.reader = .returnedOk → s.input = []

variable {handle : ℕ → String → Option String} {input : List ReadResult}

/-- A spawned task has the message of its index. -/
theorem Inv.responseOf_eq {s : State} (h : Inv handle input s) {i : ℕ} {t : Task}
    (ht : s.tasks[i]? = some t) : responseOf handle input i = handle i t.msg := by
  have hlt : i < s.tasks.length := (List.getElem?_eq_some_iff.mp ht).1
  rw [responseOf, ← h.messages, List.getElem?_append_left (by simpa using hlt),
    List.getElem?_map, ht]
  rfl

/-! ## Steps keep the invariant -/

/-- The tasks after task `i` has moved. -/
theorem getElem?_set_task {tasks : List Task} {i : ℕ} {t t' : Task} (ht : tasks[i]? = some t)
    (j : ℕ) : (tasks.set i t')[j]? = if i = j then some t' else tasks[j]? := by
  rw [List.getElem?_set]
  by_cases hij : i = j
  · subst hij
    rw [if_pos rfl, if_pos rfl, if_pos (List.getElem?_eq_some_iff.mp ht).1]
  · rw [if_neg hij, if_neg hij]

theorem set_task_self {tasks : List Task} {i : ℕ} {t t' : Task} (ht : tasks[i]? = some t) :
    (tasks.set i t')[i]? = some t' := by
  rw [getElem?_set_task ht, if_pos rfl]

/-- A move keeps the messages of the tasks. -/
theorem map_msg_set {tasks : List Task} {i : ℕ} {t : Task} (ht : tasks[i]? = some t)
    (stage : Stage) : (tasks.set i ⟨t.msg, stage⟩).map (·.msg) = tasks.map (·.msg) := by
  apply List.ext_getElem?
  intro j
  rw [List.getElem?_map, List.getElem?_map, getElem?_set_task ht]
  by_cases hij : i = j
  · subst hij
    rw [if_pos rfl, ht]
    rfl
  · rw [if_neg hij]

/-- A fact about the stage of some task, after task `i` has moved: unchanged for the
others. -/
theorem exists_set_task {tasks : List Task} {i : ℕ} {t t' : Task} (ht : tasks[i]? = some t)
    (P : ℕ → Task → Prop) (j : ℕ) :
    (∃ u : Task, (tasks.set i t')[j]? = some u ∧ P j u)
      ↔ if i = j then P j t' else ∃ u : Task, tasks[j]? = some u ∧ P j u := by
  rw [getElem?_set_task ht]
  by_cases hij : i = j <;> simp [hij]

theorem getElem?_append_task {tasks : List Task} {t' u : Task} {j : ℕ} :
    (tasks ++ [t'])[j]? = some u ↔ tasks[j]? = some u ∨ j = tasks.length ∧ u = t' := by
  rcases lt_trichotomy j tasks.length with hlt | rfl | hgt
  · rw [List.getElem?_append_left hlt]
    simp [hlt.ne]
  · simp [eq_comm]
  · rw [List.getElem?_eq_none (by simp; omega), List.getElem?_eq_none (by omega)]
    simp [hgt.ne']

/-- A fact that does not hold of a new task. -/
theorem exists_append_task {tasks : List Task} {t' : Task} (P : ℕ → Task → Prop)
    (hP : ∀ j, ¬ P j t') (j : ℕ) :
    (∃ u : Task, (tasks ++ [t'])[j]? = some u ∧ P j u)
      ↔ ∃ u : Task, tasks[j]? = some u ∧ P j u := by
  constructor
  · rintro ⟨u, hu, hPu⟩
    rcases getElem?_append_task.mp hu with hold | ⟨-, rfl⟩
    · exact ⟨u, hold, hPu⟩
    · exact absurd hPu (hP j)
  · rintro ⟨u, hu, hPu⟩
    exact ⟨u, getElem?_append_task.mpr (Or.inl hu), hPu⟩

/-- A new task writes nothing. -/
theorem partialOf_append {lock : Option ℕ} {tasks : List Task} (hlock : ∀ i, lock = some i ↔
    ∃ t : Task, tasks[i]? = some t ∧ t.stage.holdsLock = true) (t' : Task) :
    partialOf lock (tasks ++ [t']) = partialOf lock tasks := by
  cases lock with
  | none => rfl
  | some i =>
      obtain ⟨t, ht, -⟩ := (hlock i).mp rfl
      have ht' : (tasks ++ [t'])[i]? = some t := getElem?_append_task.mpr (Or.inl ht)
      simp only [partialOf, ht, ht']

/-- A move of a task that does not own the lock leaves the incomplete line alone. -/
theorem partialOf_set_of_ne {lock : Option ℕ} {tasks : List Task} {i : ℕ} {t t' : Task}
    (ht : tasks[i]? = some t) (hlock : lock ≠ some i) :
    partialOf lock (tasks.set i t') = partialOf lock tasks := by
  cases lock with
  | none => rfl
  | some j =>
      have hij : i ≠ j := by
        rintro rfl
        exact hlock rfl
      simp only [partialOf, getElem?_set_task ht, if_neg hij]

theorem partialOf_some {tasks : List Task} {i : ℕ} {t : Task} (ht : tasks[i]? = some t) :
    partialOf (some i) tasks = t.stage.partialLine := by
  simp only [partialOf, ht, Option.map_some, Option.getD_some]

/-- A move that completes no line keeps stdout framed when it appends to stdout what it
appends to the incomplete line. -/
theorem Framed.move {s : State} {sh : Shared} {i : ℕ} {t t' : Task} {w : List UInt8}
    (h : Framed handle input s) (ht : s.tasks[i]? = some t)
    (hline : t'.stage.lineWritten (responseOf handle input i)
      = t.stage.lineWritten (responseOf handle input i))
    (hout : sh.stdout = s.shared.stdout ++ w)
    (hpart : partialOf sh.lock (s.tasks.set i t') = partialOf s.shared.lock s.tasks ++ w) :
    Framed handle input { s with shared := sh, tasks := s.tasks.set i t' } := by
  obtain ⟨order, hnodup, hmem, hstdout⟩ := h
  refine ⟨order, hnodup, ?_, ?_⟩
  · intro j
    rw [hmem j, exists_set_task ht fun j u =>
      u.stage.lineWritten (responseOf handle input j) = true]
    by_cases hij : i = j
    · subst hij
      rw [if_pos rfl, hline]
      simp [ht]
    · rw [if_neg hij]
  · rw [hpart, ← List.append_assoc, ← hstdout]
    exact hout

/-- A move that completes the line of its task. -/
theorem Framed.complete {s : State} {sh : Shared} {i : ℕ} {t t' : Task} {w : List UInt8}
    (h : Framed handle input s) (ht : s.tasks[i]? = some t)
    (hbefore : t.stage.lineWritten (responseOf handle input i) = false)
    (hafter : t'.stage.lineWritten (responseOf handle input i) = true)
    (hout : sh.stdout = s.shared.stdout ++ w)
    (hline : partialOf s.shared.lock s.tasks ++ w = lineOf handle input i)
    (hpart : partialOf sh.lock (s.tasks.set i t') = []) :
    Framed handle input { s with shared := sh, tasks := s.tasks.set i t' } := by
  obtain ⟨order, hnodup, hmem, hstdout⟩ := h
  have hnot : i ∉ order := by
    rw [hmem i, ht]
    simp [hbefore]
  refine ⟨order ++ [i], hnodup.append (List.nodup_singleton i) ?_, ?_, ?_⟩
  · rw [List.disjoint_singleton]
    exact hnot
  · intro j
    rw [List.mem_append, List.mem_singleton, hmem j, exists_set_task ht fun j u =>
      u.stage.lineWritten (responseOf handle input j) = true]
    by_cases hij : i = j
    · subst hij
      simp [hafter]
    · rw [if_neg hij, or_iff_left (Ne.symm hij)]
  · rw [hpart, List.append_nil, List.flatMap_append, List.flatMap_singleton, ← hline,
      ← List.append_assoc, ← hstdout]
    exact hout

/-- The owner of the lock, after task `i` has moved. -/
theorem lock_move {s : State} {sh : Shared} {i : ℕ} {t t' : Task} (h : Inv handle input s)
    (ht : s.tasks[i]? = some t)
    (hself : sh.lock = some i ↔ t'.stage.holdsLock = true)
    (hother : ∀ j, i ≠ j → (sh.lock = some j ↔ s.shared.lock = some j)) (j : ℕ) :
    sh.lock = some j ↔ ∃ u : Task, (s.tasks.set i t')[j]? = some u
      ∧ u.stage.holdsLock = true := by
  rw [exists_set_task ht fun _ u => u.stage.holdsLock = true]
  by_cases hij : i = j
  · subst hij
    rw [if_pos rfl]
    exact hself
  · rw [if_neg hij, hother j hij]
    exact h.lock j

/-- A new task keeps the invariant, when its message is the next one. -/
theorem Inv.spawn {s : State} {msg : String} {rest : List ReadResult} (h : Inv handle input s)
    (hreader : s.reader = .running) (hnext : messagesOf s.input = msg :: messagesOf rest) :
    Inv handle input { s with input := rest, tasks := s.tasks ++ [⟨msg, .waitingPermit⟩] } := by
  obtain ⟨order, hnodup, hmem, hout⟩ := h.framed
  refine ⟨?_, ?_, ?_, ⟨order, hnodup, ?_, ?_⟩, fun hret => ?_⟩
  · rw [← h.messages, hnext]
    simp
  · intro i t ht
    rcases getElem?_append_task.mp ht with hold | ⟨-, rfl⟩
    · exact h.agrees i t hold
    · exact trivial
  · intro i
    rw [exists_append_task fun _ u => u.stage.holdsLock = true]
    · exact h.lock i
    · exact fun _ => Bool.false_ne_true
  · intro i
    rw [exists_append_task fun i u => u.stage.lineWritten (responseOf handle input i) = true]
    · exact hmem i
    · exact fun _ => Bool.false_ne_true
  · rw [partialOf_append h.lock]
    exact hout
  · rw [hreader] at hret
    exact Reader.noConfusion hret

theorem Inv.readStep {s s' : State} (h : Inv handle input s) (hstep : readStep s = some s') :
    Inv handle input s' := by
  obtain ⟨hreader, hcases⟩ := readStep_cases hstep
  rcases hcases with ⟨hinput, rfl⟩ | ⟨e, rest, hinput, rfl⟩ | ⟨l, rest, hinput, hblank, rfl⟩
    | ⟨l, rest, hinput, hblank, rfl⟩
  · exact ⟨h.messages, h.agrees, h.lock, h.framed, fun _ => hinput⟩
  · refine ⟨?_, h.agrees, h.lock, h.framed, fun hret => Reader.noConfusion hret⟩
    rw [← h.messages, hinput]
    rfl
  · refine ⟨?_, h.agrees, h.lock, h.framed, fun hret => ?_⟩
    · rw [← h.messages, hinput]
      simp [messagesOf, hblank]
    · rw [hreader] at hret
      exact Reader.noConfusion hret
  · apply h.spawn hreader
    rw [hinput]
    simp [messagesOf, hblank]

/-- What a move of task `i` to a stage has to keep; the rest of the invariant follows. -/
structure Moved (handle : ℕ → String → Option String) (input : List ReadResult) (s : State)
    (i : ℕ) (msg : String) (sh : Shared) (stage : Stage) : Prop where
  agrees : stage.Agrees (responseOf handle input i)
  self : sh.lock = some i ↔ stage.holdsLock = true
  other : ∀ j, i ≠ j → (sh.lock = some j ↔ s.shared.lock = some j)
  framed : Framed handle input { s with shared := sh, tasks := s.tasks.set i ⟨msg, stage⟩ }

theorem Inv.moved {s : State} {i : ℕ} {msg : String} {old stage : Stage} {sh : Shared}
    (h : Inv handle input s) (ht : s.tasks[i]? = some ⟨msg, old⟩)
    (hmove : Moved handle input s i msg sh stage) :
    Inv handle input { s with shared := sh, tasks := s.tasks.set i ⟨msg, stage⟩ } := by
  refine ⟨?_, ?_, lock_move h ht hmove.self hmove.other, hmove.framed, h.drained⟩
  · rw [← h.messages, map_msg_set ht stage]
  · intro j u hu
    rw [getElem?_set_task ht] at hu
    by_cases hij : i = j
    · subst hij
      rw [if_pos rfl, Option.some.injEq] at hu
      rw [← hu]
      exact hmove.agrees
    · rw [if_neg hij] at hu
      exact h.agrees j u hu

/-- The lock belongs to the task whose stage says so. -/
theorem Inv.owns_iff {s : State} {i : ℕ} {t : Task} (h : Inv handle input s)
    (ht : s.tasks[i]? = some t) : s.shared.lock = some i ↔ t.stage.holdsLock = true := by
  rw [h.lock i, ht]
  simp

section Moves

variable {s : State} {i : ℕ} {msg : String}

/-- A move outside the lock that completes no line and touches the permits only. -/
theorem Moved.quiet {old stage : Stage} {permits : ℕ} (h : Inv handle input s)
    (ht : s.tasks[i]? = some ⟨msg, old⟩) (hold : old.holdsLock = false)
    (hnew : stage.holdsLock = false) (hagrees : stage.Agrees (responseOf handle input i))
    (hline : stage.lineWritten (responseOf handle input i)
      = old.lineWritten (responseOf handle input i)) :
    Moved handle input s i msg { s.shared with permits := permits } stage := by
  have hfree : s.shared.lock ≠ some i := by
    intro hlock
    have hholds := (h.owns_iff ht).mp hlock
    rw [show old.holdsLock = true from hholds] at hold
    exact Bool.false_ne_true hold.symm
  refine ⟨hagrees, ?_, fun _ _ => Iff.rfl, h.framed.move ht hline (List.append_nil _).symm ?_⟩
  · rw [hnew]
    exact iff_of_false hfree Bool.false_ne_true
  · rw [List.append_nil]
    exact partialOf_set_of_ne ht hfree

/-- A task takes the lock and starts its line. -/
theorem Moved.takeLock {r : String} (h : Inv handle input s)
    (ht : s.tasks[i]? = some ⟨msg, .waitingLock r⟩) (hfree : s.shared.lock = none) :
    Moved handle input s i msg { s.shared with lock := some i }
      (.writing [] (RustStr.asBytes r)) := by
  refine ⟨⟨r, h.agrees i _ ht, rfl⟩, iff_of_true rfl rfl, ?_, ?_⟩
  · intro j hij
    simp [hfree, hij]
  · refine h.framed.move (w := []) ht rfl (List.append_nil _).symm ?_
    rw [partialOf_some (set_task_self ht), hfree]
    rfl

/-- The owner of the lock writes one more byte, to stdout and to the incomplete line. -/
theorem Moved.writeByte {b : UInt8} {written rest : List UInt8} (h : Inv handle input s)
    (ht : s.tasks[i]? = some ⟨msg, .writing written (b :: rest)⟩) :
    Moved handle input s i msg { s.shared with stdout := s.shared.stdout ++ [b] }
      (.writing (written ++ [b]) rest) := by
  have hown := h.owns_iff ht
  have hlock : s.shared.lock = some i := hown.mpr rfl
  obtain ⟨r, hr, happ⟩ := h.agrees i _ ht
  refine ⟨⟨r, hr, ?_⟩, hown, fun _ _ => Iff.rfl, ?_⟩
  · rw [← happ, List.append_assoc]
    rfl
  · refine h.framed.move (w := [b]) ht rfl rfl ?_
    dsimp only
    rw [hlock, partialOf_some (set_task_self ht), partialOf_some ht]
    rfl

/-- The line break completes the line of its owner. -/
theorem Moved.endLine {written : List UInt8} (h : Inv handle input s)
    (ht : s.tasks[i]? = some ⟨msg, .writing written []⟩) :
    Moved handle input s i msg { s.shared with stdout := s.shared.stdout ++ [lineBreak] }
      .flushing := by
  have hown := h.owns_iff ht
  have hlock : s.shared.lock = some i := hown.mpr rfl
  obtain ⟨r, hr, happ⟩ := h.agrees i _ ht
  have hsome : (responseOf handle input i).isSome = true := by
    rw [hr]
    rfl
  refine ⟨hsome, hown, fun _ _ => Iff.rfl, h.framed.complete ht rfl rfl rfl ?_ ?_⟩
  · rw [hlock, partialOf_some ht, lineOf, hr]
    simp only [Stage.partialLine, ← happ, List.append_nil]
  · dsimp only
    rw [hlock, partialOf_some (set_task_self ht)]
    rfl

/-- A flushed task gives lock and permit back. -/
theorem Moved.finish (h : Inv handle input s) (ht : s.tasks[i]? = some ⟨msg, .flushing⟩) :
    Moved handle input s i msg
      { s.shared with lock := none, permits := s.shared.permits + 1 } .finished := by
  have hlock : s.shared.lock = some i := (h.owns_iff ht).mpr rfl
  refine ⟨trivial, iff_of_false (by simp) Bool.false_ne_true, ?_, ?_⟩
  · intro j hij
    simp [hlock, hij]
  · refine h.framed.move (w := []) ht (h.agrees i _ ht) (List.append_nil _).symm ?_
    rw [hlock, partialOf_some ht]
    rfl

end Moves

/-- One move of one task. -/
theorem Inv.advance {s : State} {i : ℕ} {t : Task} {sh : Shared} {stage : Stage}
    (h : Inv handle input s) (ht : s.tasks[i]? = some t)
    (hstep : McpStdio.advance i (handle i t.msg) s.shared t.stage = some (sh, stage)) :
    Inv handle input
      { s with shared := sh, tasks := s.tasks.set i { t with stage := stage } } := by
  have hresp := h.responseOf_eq ht
  obtain ⟨msg, old⟩ := t
  apply h.moved ht
  cases old with
  | waitingPermit =>
      simp only [McpStdio.advance] at hstep
      split_ifs at hstep with hpermit
      obtain ⟨rfl, rfl⟩ := Prod.mk.inj (Option.some.inj hstep)
      exact .quiet h ht rfl rfl trivial rfl
  | handling =>
      simp only [McpStdio.advance] at hstep
      cases hhandle : handle i msg with
      | none =>
          rw [hhandle] at hstep hresp
          obtain ⟨rfl, rfl⟩ := Prod.mk.inj (Option.some.inj hstep)
          refine .quiet h ht rfl rfl trivial ?_
          rw [hresp]
          rfl
      | some r =>
          rw [hhandle] at hstep hresp
          obtain ⟨rfl, rfl⟩ := Prod.mk.inj (Option.some.inj hstep)
          exact .quiet h ht rfl rfl hresp rfl
  | waitingLock r =>
      simp only [McpStdio.advance] at hstep
      split_ifs at hstep with hfree
      obtain ⟨rfl, rfl⟩ := Prod.mk.inj (Option.some.inj hstep)
      exact .takeLock h ht hfree
  | writing written rest =>
      cases rest with
      | cons b rest =>
          obtain ⟨rfl, rfl⟩ := Prod.mk.inj (Option.some.inj hstep)
          exact .writeByte h ht
      | nil =>
          obtain ⟨rfl, rfl⟩ := Prod.mk.inj (Option.some.inj hstep)
          exact .endLine h ht
  | flushing =>
      obtain ⟨rfl, rfl⟩ := Prod.mk.inj (Option.some.inj hstep)
      exact .finish h ht
  | finished => exact absurd hstep (by simp [McpStdio.advance])

/-- **Steps keep the invariant.** -/
theorem Inv.step {s s' : State} {a : Label} (h : Inv handle input s)
    (hstep : (machine handle input).next s a = some s') : Inv handle input s' := by
  cases a with
  | read => exact h.readStep hstep
  | task i =>
      obtain ⟨t, sh, stage, ht, hadvance, rfl⟩ := taskStep_cases hstep
      exact h.advance ht hadvance

theorem Inv.init {s : State} (hs : (machine handle input).init s) : Inv handle input s := by
  obtain rfl : s = ⟨.running, input, ⟨maxInFlight, none, []⟩, []⟩ := hs
  refine ⟨rfl, ?_, ?_, ⟨[], List.nodup_nil, ?_, rfl⟩, fun hret => Reader.noConfusion hret⟩
  · intro i t ht
    simp at ht
  · intro i
    simp
  · intro i
    simp

/-! ## What is lost and what is not -/

/-- The end of input is read only when every spawned task has finished. -/
def eofWhenIdle (s : State) (a : Label) : Prop :=
  a = .read → s.input = [] → ∀ t ∈ s.tasks, t.stage = .finished

/-- Once the function has returned in such a run, no task is left. -/
theorem finished_of_returnedOk {s : State}
    (hs : (machine handle input).Reach eofWhenIdle s) :
    s.reader = .returnedOk → ∀ t ∈ s.tasks, t.stage = .finished := by
  refine hs.invariant
    (P := fun s => s.reader = .returnedOk → ∀ t ∈ s.tasks, t.stage = .finished) ?_ ?_
  · rintro s rfl hret
    exact Reader.noConfusion hret
  · intro s a s' hinv hok hstep hret
    cases a with
    | read =>
        obtain ⟨hreader, hcases⟩ := readStep_cases hstep
        rcases hcases with ⟨hinput, rfl⟩ | ⟨e, rest, -, rfl⟩ | ⟨l, rest, -, -, rfl⟩
          | ⟨l, rest, -, -, rfl⟩
        · exact hok rfl hinput
        · exact Reader.noConfusion hret
        · exact Reader.noConfusion (hreader.symm.trans hret)
        · exact Reader.noConfusion (hreader.symm.trans hret)
    | task i =>
        obtain ⟨t, sh, stage, ht, hadvance, rfl⟩ := taskStep_cases hstep
        -- A finished task has no move.
        rw [hinv hret t (List.mem_of_getElem? ht)] at hadvance
        exact absurd hadvance (by simp [McpStdio.advance])

/-- **No response is lost when the input ends on an idle server.**  In every run in
which the end of input is read only after all spawned tasks have finished, once
`run_stdio` has returned `Ok`, stdout holds the response line of every message that
has a response, exactly once, and nothing else. -/
theorem runStdio_answers {s : State} (hs : (machine handle input).Reach eofWhenIdle s)
    (hret : s.reader = .returnedOk) : Answered handle input s.shared.stdout := by
  have hinv : Inv handle input s :=
    hs.invariant (fun _ => Inv.init) fun _ _ _ h _ hstep => h.step hstep
  have hfinished := finished_of_returnedOk hs hret
  have hstage : ∀ (i : ℕ) (t : Task), s.tasks[i]? = some t → t.stage = .finished :=
    fun i t ht => hfinished t (List.mem_of_getElem? ht)
  have hfree : s.shared.lock = none := by
    rw [Option.eq_none_iff_forall_ne_some]
    intro i hlock
    obtain ⟨t, ht, hholds⟩ := (hinv.lock i).mp hlock
    rw [hstage i t ht] at hholds
    exact Bool.false_ne_true hholds
  have hmessages : s.tasks.map (·.msg) = messagesOf input := by
    rw [← hinv.messages, hinv.drained hret]
    simp [messagesOf]
  obtain ⟨order, hnodup, hmem, hout⟩ := hinv.framed
  refine ⟨order, hnodup, ?_, ?_⟩
  · intro i
    rw [hmem i]
    constructor
    · rintro ⟨t, ht, hwritten⟩
      rw [hstage i t ht] at hwritten
      exact hwritten
    · intro hsome
      -- All messages have been spawned, so every index of a message is that of a task.
      have hlt : i < s.tasks.length := by
        by_contra hge
        rw [responseOf, ← hmessages, List.getElem?_eq_none (by simpa using hge)] at hsome
        exact Bool.false_ne_true hsome
      refine ⟨s.tasks[i], List.getElem?_eq_getElem hlt, ?_⟩
      rw [hstage i _ (List.getElem?_eq_getElem hlt)]
      exact hsome
  · rw [hout, hfree]
    exact List.append_nil _

/-- A server that echoes each message. -/
def echo : ℕ → String → Option String := fun _ msg => some msg

/-- Two lines, answered before the input ends, and the second one first. -/
theorem runStdio_answers_two :
    ∃ s, (machine echo [.line "a", .line "b"]).Reach eofWhenIdle s ∧ s.reader = .returnedOk
      ∧ Answered echo [.line "a", .line "b"] s.shared.stdout := by
  have hinit : (machine echo [.line "a", .line "b"]).init
      ⟨.running, [.line "a", .line "b"], ⟨32, none, []⟩, []⟩ := rfl
  have hreach : (machine echo [.line "a", .line "b"]).Reach eofWhenIdle
      ⟨.returnedOk, [], ⟨32, none, [98, lineBreak, 97, lineBreak]⟩,
        [⟨"a", .finished⟩, ⟨"b", .finished⟩]⟩ := by
    refine (Machine.Reach.init hinit).of_run (l := [.read, .read, .task 0, .task 1, .task 0,
      .task 1, .task 1, .task 1, .task 1, .task 1, .task 0, .task 0, .task 0, .task 0,
      .read]) ?_ rfl
    have hmove : ∀ s i, eofWhenIdle s (.task i) := fun _ _ h => Label.noConfusion h
    refine .cons (fun _ h => by simp at h) rfl (.cons (fun _ h => by simp at h) rfl ?_)
    refine .cons (hmove _ _) rfl (.cons (hmove _ _) rfl (.cons (hmove _ _) rfl ?_))
    refine .cons (hmove _ _) rfl (.cons (hmove _ _) rfl (.cons (hmove _ _) rfl ?_))
    refine .cons (hmove _ _) rfl (.cons (hmove _ _) rfl (.cons (hmove _ _) rfl ?_))
    refine .cons (hmove _ _) rfl (.cons (hmove _ _) rfl (.cons (hmove _ _) rfl ?_))
    refine .cons (fun _ _ t ht => ?_) rfl (.nil _)
    rcases List.mem_pair.mp ht with rfl | rfl <;> rfl
  exact ⟨_, hreach, rfl, runStdio_answers hreach rfl⟩

/-- A line is read, its task is spawned, the input ends: the function returns and
nothing was written. -/
theorem runStdio_loses_response :
    ∃ s, (machine echo [.line "a"]).Reach Machine.anyStep s ∧ s.reader = .returnedOk
      ∧ ¬ Answered echo [.line "a"] s.shared.stdout := by
  have hinit : (machine echo [.line "a"]).init ⟨.running, [.line "a"], ⟨32, none, []⟩, []⟩ := rfl
  refine ⟨⟨.returnedOk, [], ⟨32, none, []⟩, [⟨"a", .waitingPermit⟩]⟩,
    (Machine.Reach.init hinit).of_run (Machine.runOk_anyStep _ [.read, .read]) rfl, rfl, ?_⟩
  rintro ⟨order, -, hmem, hout⟩
  have hzero : 0 ∈ order := (hmem 0).mpr rfl
  have hnil : lineOf echo [.line "a"] 0 = [] :=
    List.flatMap_eq_nil_iff.mp hout.symm 0 hzero
  exact absurd hnil (by decide)

/-! ## Tasks in flight -/

/-- The number of tasks that have been spawned and have not finished. -/
def inFlight (s : State) : ℕ := s.tasks.countP (·.stage ≠ .finished)

def ReadResult.isLine : ReadResult → Bool
  | .line _ => true
  | .failed _ => false

/-- The messages for which tasks are spawned: those that are read before a read fails. -/
def spawnable (input : List ReadResult) : List String :=
  messagesOf (input.takeWhile ReadResult.isLine)

theorem spawnable_blank {l : String} (h : RustStr.trim l = "") (rest : List ReadResult) :
    spawnable (.line l :: rest) = spawnable rest := by
  rw [spawnable, List.takeWhile_cons_of_pos rfl]
  simp [spawnable, messagesOf, h]

theorem spawnable_line {l : String} (h : RustStr.trim l ≠ "") (rest : List ReadResult) :
    spawnable (.line l :: rest) = RustStr.trim l :: spawnable rest := by
  rw [spawnable, List.takeWhile_cons_of_pos rfl]
  simp [spawnable, messagesOf, h]

/-- The messages of the spawned tasks are the first ones that can be read. -/
def Spawned (input : List ReadResult) (s : State) : Prop :=
  s.tasks.length ≤ (spawnable input).length
    ∧ (s.reader = .running → s.tasks.map (·.msg) ++ spawnable s.input = spawnable input)

theorem spawned_of_reach {s : State} (hs : (machine handle input).Reach Machine.anyStep s) :
    Spawned input s := by
  refine hs.invariant ?_ ?_
  · rintro s rfl
    exact ⟨Nat.zero_le _, fun _ => rfl⟩
  · rintro s a s' ⟨hlen, hmessages⟩ - hstep
    cases a with
    | read =>
        obtain ⟨hreader, hcases⟩ := readStep_cases hstep
        have hmessages := hmessages hreader
        rcases hcases with ⟨-, rfl⟩ | ⟨e, rest, -, rfl⟩ | ⟨l, rest, hinput, hblank, rfl⟩
          | ⟨l, rest, hinput, hblank, rfl⟩
        · exact ⟨hlen, fun hret => Reader.noConfusion hret⟩
        · exact ⟨hlen, fun hret => Reader.noConfusion hret⟩
        · rw [hinput, spawnable_blank hblank] at hmessages
          exact ⟨hlen, fun _ => hmessages⟩
        · have hnext : (s.tasks ++ [(⟨RustStr.trim l, .waitingPermit⟩ : Task)]).map (·.msg)
              ++ spawnable rest = spawnable input := by
            rw [← hmessages, hinput, spawnable_line hblank, List.map_append, List.append_assoc]
            rfl
          refine ⟨?_, fun _ => hnext⟩
          rw [← hnext]
          simp only [List.length_append, List.length_map]
          exact Nat.le_add_right _ _
    | task i =>
        obtain ⟨t, sh, stage, ht, -, rfl⟩ := taskStep_cases hstep
        refine ⟨?_, fun hrunning => ?_⟩
        · rw [List.length_set]
          exact hlen
        · rw [map_msg_set ht stage]
          exact hmessages hrunning

/-- The reader may come first: all the messages that can be read are spawned before any
task moves. -/
theorem reach_allWaiting (handle : ℕ → String → Option String) (input : List ReadResult) :
    ∃ s, (machine handle input).Reach Machine.anyStep s
      ∧ s.tasks = (spawnable input).map fun msg => ⟨msg, .waitingPermit⟩ := by
  have hread : ∀ (rest : List ReadResult) (s : State), s.reader = .running → s.input = rest →
      (machine handle input).Reach Machine.anyStep s →
      ∃ s', (machine handle input).Reach Machine.anyStep s'
        ∧ s'.tasks = s.tasks ++ (spawnable rest).map fun msg => ⟨msg, .waitingPermit⟩ := by
    intro rest
    induction rest with
    | nil =>
        intro s _ _ hs
        exact ⟨s, hs, (List.append_nil _).symm⟩
    | cons r rest ih =>
        rintro ⟨reader, remaining, shared, tasks⟩ rfl rfl hs
        cases r with
        | failed e => exact ⟨_, hs, (List.append_nil _).symm⟩
        | line l =>
            by_cases hblank : RustStr.trim l = ""
            · have hstep : (machine handle input).next ⟨.running, .line l :: rest, shared, tasks⟩
                  .read = some ⟨.running, rest, shared, tasks⟩ := by
                simp [machine, readStep, hblank]
              obtain ⟨s', hs', htasks⟩ := ih _ rfl rfl (hs.step trivial hstep)
              refine ⟨s', hs', ?_⟩
              rw [htasks, spawnable_blank hblank]
            · have hstep : (machine handle input).next ⟨.running, .line l :: rest, shared, tasks⟩
                  .read = some ⟨.running, rest, shared,
                    tasks ++ [⟨RustStr.trim l, .waitingPermit⟩]⟩ := by
                simp [machine, readStep, hblank]
              obtain ⟨s', hs', htasks⟩ := ih _ rfl rfl (hs.step trivial hstep)
              refine ⟨s', hs', ?_⟩
              rw [htasks, spawnable_line hblank, List.map_cons, List.append_assoc]
              rfl
  have hinit : (machine handle input).init ⟨.running, input, ⟨maxInFlight, none, []⟩, []⟩ := rfl
  obtain ⟨s, hs, htasks⟩ := hread input _ rfl rfl (.init hinit)
  exact ⟨s, hs, htasks⟩

theorem inFlight_allWaiting {s : State} {msgs : List String}
    (h : s.tasks = msgs.map fun msg => ⟨msg, .waitingPermit⟩) : inFlight s = msgs.length := by
  rw [inFlight, h, List.countP_map, List.countP_eq_length.mpr]
  intro msg _
  rfl

/-- **The permits bound no tasks.**  A permit is taken by the task and not before it is
spawned: whatever the tasks do, at most 32 are in flight in every state of every run if
and only if the input has at most 32 messages. -/
theorem inFlight_le_iff (handle : ℕ → String → Option String) (input : List ReadResult) :
    (∀ s, (machine handle input).Reach Machine.anyStep s → inFlight s ≤ maxInFlight)
      ↔ (spawnable input).length ≤ maxInFlight := by
  constructor
  · intro h
    obtain ⟨s, hs, htasks⟩ := reach_allWaiting handle input
    rw [← inFlight_allWaiting htasks]
    exact h s hs
  · intro hfew s hs
    calc inFlight s ≤ s.tasks.length := List.countP_le_length
      _ ≤ (spawnable input).length := (spawned_of_reach hs).1
      _ ≤ maxInFlight := hfew

/-- A burst of 33 lines. -/
theorem inFlight_exceeds : ¬ ∀ (handle : ℕ → String → Option String) (input : List ReadResult)
    (s : State), (machine handle input).Reach Machine.anyStep s → inFlight s ≤ maxInFlight := by
  intro h
  obtain ⟨s, hs, htasks⟩ := reach_allWaiting echo (List.replicate 33 (.line "a"))
  have hle := h _ _ s hs
  rw [inFlight_allWaiting htasks] at hle
  exact absurd hle (by decide)

/-- The reader spawns a task only while fewer than 32 are in flight. -/
def spawnsWhenFree (s : State) (a : Label) : Prop :=
  a = .read → ∀ l rest, s.input = .line l :: rest → RustStr.trim l ≠ "" → inFlight s < maxInFlight

/-- **A client that waits for its answers is served within the bound.**  In every run in
which a message is read only while fewer than 32 tasks are in flight, at most 32 are. -/
theorem inFlight_le {s : State} (hs : (machine handle input).Reach spawnsWhenFree s) :
    inFlight s ≤ maxInFlight := by
  refine hs.invariant (P := fun s => inFlight s ≤ maxInFlight) ?_ ?_
  · rintro s rfl
    exact Nat.zero_le _
  · intro s a s' hle hok hstep
    cases a with
    | read =>
        obtain ⟨-, hcases⟩ := readStep_cases hstep
        rcases hcases with ⟨-, rfl⟩ | ⟨e, rest, -, rfl⟩ | ⟨l, rest, -, -, rfl⟩
          | ⟨l, rest, hinput, hblank, rfl⟩
        · exact hle
        · exact hle
        · exact hle
        · have hlt := hok rfl l rest hinput hblank
          simp only [inFlight, List.countP_append] at hlt ⊢
          exact hlt
    | task i =>
        obtain ⟨t, sh, stage, ht, hadvance, rfl⟩ := taskStep_cases hstep
        obtain ⟨hlt, hget⟩ := List.getElem?_eq_some_iff.mp ht
        -- The task that moves was in flight, since a finished one has no move.
        have hmoving : t.stage ≠ .finished := by
          intro hfinished
          rw [hfinished] at hadvance
          exact absurd hadvance (by simp [McpStdio.advance])
        have hpos : 0 < s.tasks.countP (·.stage ≠ .finished) :=
          List.countP_pos_iff.mpr ⟨t, List.mem_of_getElem? ht, by simpa using hmoving⟩
        refine le_trans ?_ hle
        simp only [inFlight, List.countP_set hlt, hget]
        rw [if_pos (by simpa using hmoving)]
        split_ifs <;> omega

/-! ## Framing -/

section Framing

/-- The lines of distinct messages that have a response, one after the other, then what
is written of one more; a reader that splits at line breaks finds exactly these. -/
def OneLineEach (handle : ℕ → String → Option String) (input : List ReadResult)
    (stdout : List UInt8) : Prop :=
  ∃ (order : List ℕ) (rest : List UInt8), order.Nodup
    ∧ (∀ i ∈ order, (responseOf handle input i).isSome = true)
    ∧ stdout = order.flatMap (lineOf handle input) ++ rest
    ∧ (rest = [] ∨ ∃ i r, i ∉ order ∧ responseOf handle input i = some r
        ∧ rest <+: RustStr.asBytes r)
    ∧ stdout.splitOn lineBreak
        = order.map (fun i => ((responseOf handle input i).map RustStr.asBytes).getD []) ++ [rest]

/-- What `handle_message` yields, as the text that `serde_json` makes of it. -/
def answers (respond : ℕ → String → Option JsonRpcResponse)
    (toString : JsonRpcResponse → Option String) : ℕ → String → Option String :=
  fun i msg => (respond i msg).bind toString

/-- Lines without line breaks, each ended by one, and a rest without any, are found again
by splitting at line breaks. -/
theorem splitOn_lines {α : Type*} [BEq α] [LawfulBEq α] {a : α} {ls : List (List α)}
    {rest : List α} (hls : ∀ l ∈ ls, a ∉ l) (hrest : a ∉ rest) :
    (ls.flatMap (· ++ [a]) ++ rest).splitOn a = ls ++ [rest] := by
  induction ls with
  | nil => exact List.splitOn_eq_singleton hrest
  | cons l ls ih =>
      have hl : a ∉ l := hls l List.mem_cons_self
      have htail := ih fun l' hl' => hls l' (List.mem_cons_of_mem l hl')
      rw [List.flatMap_cons, List.append_assoc, List.append_assoc, List.singleton_append,
        List.splitOn_append_cons_self_of_not_mem hl, htail, List.cons_append]

/-- A text on one line is one line of bytes. -/
theorem lineBreak_not_mem {r : String} (h : '\n' ∉ r.toList) : lineBreak ∉ RustStr.asBytes r :=
  fun hmem => h ((Utf8.mem_encode_ascii (a := '\n') (by decide)).mp hmem)

/-- A task that has written its line has a response. -/
theorem Inv.isSome_of_lineWritten {s : State} (h : Inv handle input s) {i : ℕ} {t : Task}
    (ht : s.tasks[i]? = some t)
    (hwritten : t.stage.lineWritten (responseOf handle input i) = true) :
    (responseOf handle input i).isSome = true := by
  have hagree := h.agrees i t ht
  obtain ⟨msg, stage⟩ := t
  cases stage with
  | flushing => exact hagree
  | finished => exact hwritten
  | _ => exact absurd hwritten Bool.false_ne_true

/-- The incomplete line belongs to the owner of the lock, whose line is not complete. -/
theorem Inv.partialOf_cases {s : State} (h : Inv handle input s) :
    partialOf s.shared.lock s.tasks = []
      ∨ ∃ i r, (∀ t : Task, s.tasks[i]? = some t →
            t.stage.lineWritten (responseOf handle input i) = false)
          ∧ responseOf handle input i = some r
          ∧ partialOf s.shared.lock s.tasks <+: RustStr.asBytes r := by
  cases hlock : s.shared.lock with
  | none => exact Or.inl rfl
  | some i =>
      obtain ⟨⟨msg, stage⟩, ht, hholds⟩ := (h.lock i).mp hlock
      have hagree := h.agrees i _ ht
      rw [partialOf_some ht]
      cases stage with
      | writing written rest =>
          obtain ⟨r, hr, happ⟩ := hagree
          refine Or.inr ⟨i, r, fun t ht' => ?_, hr, rest, happ⟩
          rw [← Option.some.inj (ht.symm.trans ht')]
          rfl
      | flushing => exact Or.inl rfl
      | _ => exact absurd hholds Bool.false_ne_true

/-- No response contains a line break when none is serialised to a text with one. -/
theorem lineBreak_not_mem_response {respond : ℕ → String → Option JsonRpcResponse}
    {toString : JsonRpcResponse → Option String}
    (hline : ∀ response text, toString response = some text → '\n' ∉ text.toList) {i : ℕ}
    {r : String} (hr : responseOf (answers respond toString) input i = some r) :
    lineBreak ∉ RustStr.asBytes r := by
  obtain ⟨msg, -, hanswer⟩ := Option.bind_eq_some_iff.mp hr
  obtain ⟨response, -, htext⟩ := Option.bind_eq_some_iff.mp hanswer
  exact lineBreak_not_mem (hline response r htext)

/-- The lines of messages that have a response are their texts with a line break each. -/
theorem flatMap_lineOf {order : List ℕ}
    (hsome : ∀ i ∈ order, (responseOf handle input i).isSome = true) :
    order.flatMap (lineOf handle input)
      = (order.map fun i => ((responseOf handle input i).map RustStr.asBytes).getD []).flatMap
          (· ++ [lineBreak]) := by
  rw [List.flatMap_map]
  apply List.flatMap_congr
  intro i hi
  obtain ⟨r, hr⟩ := Option.isSome_iff_exists.mp (hsome i hi)
  rw [lineOf, hr]
  rfl

/-- **One line for each response.**  However the tasks are scheduled, and wherever they
stop, stdout holds the JSON of the responses of distinct messages, each on a line of its
own, and a prefix of at most one more. -/
theorem stdout_framed (respond : ℕ → String → Option JsonRpcResponse)
    (toString : JsonRpcResponse → Option String)
    (hline : ∀ response text, toString response = some text → '\n' ∉ text.toList)
    {input : List ReadResult} {s : State}
    (hs : (machine (answers respond toString) input).Reach Machine.anyStep s) :
    OneLineEach (answers respond toString) input s.shared.stdout := by
  have hinv : Inv (answers respond toString) input s :=
    hs.invariant (fun _ => Inv.init) fun _ _ _ h _ hstep => h.step hstep
  obtain ⟨order, hnodup, hmem, hout⟩ := hinv.framed
  have hsome : ∀ i ∈ order, (responseOf (answers respond toString) input i).isSome = true := by
    intro i hi
    obtain ⟨t, ht, hwritten⟩ := (hmem i).mp hi
    exact hinv.isSome_of_lineWritten ht hwritten
  have hrest : partialOf s.shared.lock s.tasks = []
      ∨ ∃ i r, i ∉ order ∧ responseOf (answers respond toString) input i = some r
          ∧ partialOf s.shared.lock s.tasks <+: RustStr.asBytes r := by
    refine hinv.partialOf_cases.imp_right ?_
    rintro ⟨i, r, hnot, hr, hpre⟩
    refine ⟨i, r, fun hi => ?_, hr, hpre⟩
    obtain ⟨t, ht, hwritten⟩ := (hmem i).mp hi
    rw [hnot t ht] at hwritten
    exact Bool.false_ne_true hwritten
  refine ⟨order, partialOf s.shared.lock s.tasks, hnodup, hsome, hout, hrest, ?_⟩
  rw [hout, flatMap_lineOf hsome]
  apply splitOn_lines
  · intro l hl
    obtain ⟨i, hi, rfl⟩ := List.mem_map.mp hl
    obtain ⟨r, hr⟩ := Option.isSome_iff_exists.mp (hsome i hi)
    rw [hr]
    exact lineBreak_not_mem_response hline hr
  · rcases hrest with hnil | ⟨i, r, -, hr, hpre⟩
    · rw [hnil]
      exact List.not_mem_nil
    · exact fun h => lineBreak_not_mem_response hline hr (hpre.subset h)

/-- The response to a message that is no JSON, and its text. -/
def parseError : JsonRpcResponse :=
  McpGateway.errorResponse .null
    (McpGateway.jsonrpcError (-32700) "Parse error: expected value at line 1 column 1")

def parseErrorText : String :=
  "\x7b" ++ ("\"jsonrpc\":\"2.0\",\"id\":null,\"error\":\x7b\"code\":-32700,"
    ++ "\"message\":\"Parse error: expected value at line 1 column 1\"\x7d\x7d")

/-- The first byte of the response to the only message. -/
theorem reach_begun {r : String} {b : UInt8} {rest : List UInt8} (hr : handle 0 "a" = some r)
    (hbytes : RustStr.asBytes r = b :: rest) :
    ∃ s, (machine handle [.line "a"]).Reach Machine.anyStep s ∧ s.shared.stdout = [b] := by
  have hinit : (machine handle [.line "a"]).init
      ⟨.running, [.line "a"], ⟨maxInFlight, none, []⟩, []⟩ := rfl
  have htrim : RustStr.trim "a" = "a" := by decide
  refine ⟨⟨.running, [], ⟨31, some 0, [b]⟩, [⟨"a", .writing [b] rest⟩]⟩, ?_, rfl⟩
  apply (Machine.Reach.init hinit).of_run
    (Machine.runOk_anyStep _ [.read, .task 0, .task 0, .task 0, .task 0])
  simp [Machine.run, machine, readStep, taskStep, McpStdio.advance, maxInFlight, htrim, hr, hbytes]

/-- A message that is no JSON, whose response has just been begun. -/
theorem stdout_framed_begun :
    ∃ s, (machine (answers (fun _ _ => some parseError) fun _ => some parseErrorText)
        [.line "a"]).Reach Machine.anyStep s
      ∧ s.shared.stdout = [123]
      ∧ OneLineEach (answers (fun _ _ => some parseError) fun _ => some parseErrorText)
          [.line "a"] s.shared.stdout := by
  obtain ⟨rest, hbytes⟩ : ∃ rest, RustStr.asBytes parseErrorText = 123 :: rest := by
    rw [parseErrorText, RustStr.asBytes_append]
    exact ⟨_, rfl⟩
  have hanswer : answers (fun _ _ => some parseError) (fun _ => some parseErrorText) 0 "a"
      = some parseErrorText := rfl
  obtain ⟨s, hs, hout⟩ := reach_begun hanswer hbytes
  refine ⟨s, hs, hout, stdout_framed _ _ ?_ hs⟩
  intro response text htext
  rw [← Option.some.inj htext]
  simp only [parseErrorText, String.toList_append, List.mem_append, not_or]
  decide

end Framing

end McpStdio
