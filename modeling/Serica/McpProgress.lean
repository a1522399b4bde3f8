/-
# Slow calls of the MCP server

Some calls of `handle_message` never return, and the client keeps its end of stdin open.
The rest of the server goes on without them, as long as they do not hold all permits.

* `next_work`: every step takes one unit of the work that is left.
* `stalls_no_other`: every run comes to rest.  There all other messages have been
  answered when fewer than 32 calls hang, and 32 of them hold all permits otherwise.
-/
import Serica.McpStdio
import Serica.Progress

namespace McpStdio

variable {handle : ℕ → String → Option String} {input : List ReadResult}

/-! ## The work that is left -/

/-- The moves from `handling` to `finished`, given what the call yields. -/
def handlingWork : Option String → ℕ
  | none => 1
  | some r => (RustStr.asBytes r).length + 4

/-- The moves that a task has before it. -/
def Stage.work (response : Option String) : Stage → ℕ
  | .waitingPermit => handlingWork response + 1
  | .handling => handlingWork response
  | .waitingLock r => (RustStr.asBytes r).length + 3
  | .writing _ rest => rest.length + 2
  | .flushing => 1
  | .finished => 0

/-- The moves of the tasks from the `k`-th on. -/
def tasksWork (handle : ℕ → String → Option String) : ℕ → List Task → ℕ
  | _, [] => 0
  | k, t :: ts => t.stage.work (handle k t.msg) + tasksWork handle (k + 1) ts

/-- What is still to be read, with the moves of the tasks that it makes, the next of which
is the `k`-th. -/
def readWork (handle : ℕ → String → Option String) : ℕ → List ReadResult → ℕ
  | _, [] => 1
  | _, .failed _ :: _ => 1
  | k, .line l :: input =>
      if RustStr.trim l = "" then readWork handle k input + 1
      else readWork handle (k + 1) input
        + Stage.work (handle k (RustStr.trim l)) .waitingPermit + 1

/-- All the steps that are left. -/
def State.work (handle : ℕ → String → Option String) (s : State) : ℕ :=
  tasksWork handle 0 s.tasks
    + if s.reader = .running then readWork handle s.tasks.length s.input else 0

/-- Everything that a task can do. -/
inductive TaskMoves (i : ℕ) (response : Option String) : Shared → Stage → Shared → Stage → Prop
  | acquire {sh : Shared} :
      0 < sh.permits →
      TaskMoves i response sh .waitingPermit { sh with permits := sh.permits - 1 } .handling
  | respond {sh : Shared} {r : String} :
      response = some r → TaskMoves i response sh .handling sh (.waitingLock r)
  | silent {sh : Shared} :
      response = none →
      TaskMoves i response sh .handling { sh with permits := sh.permits + 1 } .finished
  | lock {sh : Shared} {r : String} :
      sh.lock = none →
      TaskMoves i response sh (.waitingLock r) { sh with lock := some i }
        (.writing [] (RustStr.asBytes r))
  | write {sh : Shared} {written rest : List UInt8} {b : UInt8} :
      TaskMoves i response sh (.writing written (b :: rest))
        { sh with stdout := sh.stdout ++ [b] } (.writing (written ++ [b]) rest)
  | endLine {sh : Shared} {written : List UInt8} :
      TaskMoves i response sh (.writing written [])
        { sh with stdout := sh.stdout ++ [lineBreak] } .flushing
  | flush {sh : Shared} :
      TaskMoves i response sh .flushing
        { sh with lock := none, permits := sh.permits + 1 } .finished

theorem taskMoves_of_advance {i : ℕ} {response : Option String} {sh sh' : Shared}
    {stage stage' : Stage} (h : advance i response sh stage = some (sh', stage')) :
    TaskMoves i response sh stage sh' stage' := by
  cases stage with
  | waitingPermit =>
      simp only [advance] at h
      split_ifs at h with hpos
      obtain ⟨rfl, rfl⟩ := Prod.mk.inj (Option.some.inj h)
      exact .acquire hpos
  | handling =>
      simp only [advance] at h
      cases response with
      | none =>
          obtain ⟨rfl, rfl⟩ := Prod.mk.inj (Option.some.inj h)
          exact .silent rfl
      | some r =>
          obtain ⟨rfl, rfl⟩ := Prod.mk.inj (Option.some.inj h)
          exact .respond rfl
  | waitingLock r =>
      simp only [advance] at h
      split_ifs at h with hfree
      obtain ⟨rfl, rfl⟩ := Prod.mk.inj (Option.some.inj h)
      exact .lock hfree
  | writing written rest =>
      cases rest with
      | cons b rest =>
          obtain ⟨rfl, rfl⟩ := Prod.mk.inj (Option.some.inj h)
          exact .write
      | nil =>
          obtain ⟨rfl, rfl⟩ := Prod.mk.inj (Option.some.inj h)
          exact .endLine
  | flushing =>
      obtain ⟨rfl, rfl⟩ := Prod.mk.inj (Option.some.inj h)
      exact .flush
  | finished => exact absurd h (by simp [advance])

/-- A move takes one unit of the work of its task. -/
theorem TaskMoves.work {i : ℕ} {response : Option String} {sh sh' : Shared}
    {stage stage' : Stage} (h : TaskMoves i response sh stage sh' stage') :
    stage'.work response + 1 = stage.work response := by
  cases h with
  | respond hr =>
      rw [hr]
      rfl
  | silent hr =>
      rw [hr]
      rfl
  | _ => rfl

theorem tasksWork_append (ts : List Task) (t : Task) (k : ℕ) :
    tasksWork handle k (ts ++ [t])
      = tasksWork handle k ts + t.stage.work (handle (k + ts.length) t.msg) := by
  induction ts generalizing k with
  | nil => simp [tasksWork]
  | cons u ts ih =>
      rw [List.cons_append, tasksWork, tasksWork, ih (k + 1), List.length_cons,
        show k + 1 + ts.length = k + (ts.length + 1) by omega]
      omega

theorem tasksWork_set (handle : ℕ → String → Option String) {ts : List Task} {i : ℕ} {t : Task}
    (k : ℕ) (ht : ts[i]? = some t) (stage : Stage) :
    tasksWork handle k (ts.set i { t with stage := stage }) + t.stage.work (handle (k + i) t.msg)
      = tasksWork handle k ts + stage.work (handle (k + i) t.msg) := by
  induction ts generalizing i k with
  | nil => exact absurd ht (by simp)
  | cons u ts ih =>
      cases i with
      | zero =>
          obtain rfl := Option.some.inj ht
          simp only [List.set_cons_zero, tasksWork, Nat.add_zero]
          omega
      | succ i =>
          have hrest := ih (k + 1) ht
          rw [show k + 1 + i = k + (i + 1) by omega] at hrest
          simp only [List.set_cons_succ, tasksWork]
          omega

/-- **Every step takes one unit of the work that is left.** -/
theorem next_work {s t : State} {a : Label} (h : (machine handle input).next s a = some t) :
    t.work handle + 1 = s.work handle := by
  cases a with
  | read =>
      obtain ⟨hreader, hcases⟩ := readStep_cases h
      rcases hcases with ⟨hinput, rfl⟩ | ⟨e, rest, hinput, rfl⟩ | ⟨l, rest, hinput, hblank, rfl⟩
        | ⟨l, rest, hinput, hblank, rfl⟩
      · simp [State.work, hreader, hinput, readWork]
      · simp [State.work, hreader, hinput, readWork]
      · simp only [State.work, hreader, hinput, readWork, hblank, if_true]
        omega
      · simp only [State.work, hreader, hinput, readWork, hblank, if_true, if_false,
          tasksWork_append, List.length_append, List.length_singleton, Nat.zero_add]
        omega
  | task i =>
      obtain ⟨u, sh, stage, hu, hadvance, rfl⟩ := taskStep_cases h
      have hunit := (taskMoves_of_advance hadvance).work
      have hset := tasksWork_set handle 0 hu stage
      rw [Nat.zero_add] at hset
      simp only [State.work, List.length_set]
      omega

/-! ## Permits -/

/-- The stages in which a task holds a permit. -/
def Stage.holdsPermit : Stage → Bool
  | .waitingPermit => false
  | .finished => false
  | _ => true

/-- A move takes what it gives to a task from the free permits. -/
theorem TaskMoves.permits {i : ℕ} {response : Option String} {sh sh' : Shared}
    {stage stage' : Stage} (h : TaskMoves i response sh stage sh' stage') :
    sh'.permits + (if stage'.holdsPermit then 1 else 0)
      = sh.permits + (if stage.holdsPermit then 1 else 0) := by
  cases h with
  | acquire hpos => exact Nat.sub_add_cancel hpos
  | _ => rfl

/-- **Permits are conserved**: the free ones and those held are 32, in every run. -/
theorem permits_of_reach {s : State} (hs : (machine handle input).Reach Machine.anyStep s) :
    s.shared.permits + s.tasks.countP (·.stage.holdsPermit) = maxInFlight := by
  refine hs.invariant
    (P := fun s => s.shared.permits + s.tasks.countP (·.stage.holdsPermit) = maxInFlight) ?_ ?_
  · rintro s rfl
    rfl
  · intro s a t hinv _ hstep
    cases a with
    | read =>
        obtain ⟨-, hcases⟩ := readStep_cases hstep
        rcases hcases with ⟨-, rfl⟩ | ⟨e, rest, -, rfl⟩ | ⟨l, rest, -, -, rfl⟩
          | ⟨l, rest, -, -, rfl⟩
        · exact hinv
        · exact hinv
        · exact hinv
        · rw [List.countP_append]
          exact hinv
    | task i =>
        obtain ⟨u, sh, stage, hu, hadvance, rfl⟩ := taskStep_cases hstep
        obtain ⟨hlt, hget⟩ := List.getElem?_eq_some_iff.mp hu
        have hmove := (taskMoves_of_advance hadvance).permits
        -- The task that moves is counted among the holders, so the difference is exact.
        have hle : (if u.stage.holdsPermit then 1 else 0)
            ≤ s.tasks.countP (·.stage.holdsPermit) := by
          split_ifs with hp
          · exact List.countP_pos_iff.mpr ⟨u, List.mem_of_getElem? hu, hp⟩
          · exact Nat.zero_le _
        simp only [List.countP_set hlt, hget]
        omega

/-! ## Slow calls -/

/-- The client keeps its end of stdin open, and the calls of some tasks do not return. -/
def whileStalled (slow : Finset ℕ) (s : State) : Label → Prop
  | .read => s.input ≠ []
  | .task i => i ∈ slow → ∀ t : Task, s.tasks[i]? = some t → t.stage ≠ .handling

/-- The number of messages whose calls do not return. -/
def stalled (slow : Finset ℕ) (input : List ReadResult) : ℕ :=
  ((Finset.range (messagesOf input).length).filter (· ∈ slow)).card

/-- Stdout holds the lines of the messages that have a response and a call that returns,
each once, in some order. -/
def AnsweredBut (slow : Finset ℕ) (handle : ℕ → String → Option String)
    (input : List ReadResult) (stdout : List UInt8) : Prop :=
  ∃ order : List ℕ, order.Nodup
    ∧ (∀ i, i ∈ order ↔ i ∉ slow ∧ (responseOf handle input i).isSome = true)
    ∧ stdout = order.flatMap (lineOf handle input)

variable {slow : Finset ℕ} {s : State}

/-- A task whose call does not return gets no further than its call. -/
theorem heldUp_of_reach (hs : (machine handle input).Reach (whileStalled slow) s) :
    ∀ i ∈ slow, ∀ t : Task, s.tasks[i]? = some t →
      t.stage = .waitingPermit ∨ t.stage = .handling := by
  refine hs.invariant (P := fun s => ∀ i ∈ slow, ∀ t : Task, s.tasks[i]? = some t →
    t.stage = .waitingPermit ∨ t.stage = .handling) ?_ ?_
  · rintro s rfl i _ t ht
    simp at ht
  · intro s a s' hinv hok hstep i hi t ht
    cases a with
    | read =>
        obtain ⟨-, hcases⟩ := readStep_cases hstep
        rcases hcases with ⟨-, rfl⟩ | ⟨e, rest, -, rfl⟩ | ⟨l, rest, -, -, rfl⟩
          | ⟨l, rest, -, -, rfl⟩
        · exact hinv i hi t ht
        · exact hinv i hi t ht
        · exact hinv i hi t ht
        · rcases getElem?_append_task.mp ht with hold | ⟨-, rfl⟩
          · exact hinv i hi t hold
          · exact Or.inl rfl
    | task j =>
        obtain ⟨u, sh, stage, hu, hadvance, rfl⟩ := taskStep_cases hstep
        rw [getElem?_set_task hu] at ht
        by_cases hji : j = i
        · subst hji
          rw [if_pos rfl] at ht
          obtain rfl := Option.some.inj ht
          -- The call does not return, so the move is the one before it.
          have hwaiting : u.stage = .waitingPermit :=
            (hinv j hi u hu).resolve_right (hok hi u hu)
          rw [hwaiting] at hadvance
          cases taskMoves_of_advance hadvance with
          | acquire => exact Or.inr rfl
        · rw [if_neg hji] at ht
          exact hinv i hi t ht

/-- The owner of the lock can always move. -/
theorem advance_ne_none {i : ℕ} {response : Option String} {sh : Shared} {stage : Stage}
    (h : stage.holdsLock = true) : advance i response sh stage ≠ none := by
  cases stage with
  | writing written rest =>
      cases rest with
      | cons b rest => exact Option.some_ne_none _
      | nil => exact Option.some_ne_none _
  | flushing => exact Option.some_ne_none _
  | _ => exact absurd h Bool.false_ne_true

theorem advance_of_stuck (hstuck : (machine handle input).Stuck (whileStalled slow) s) {i : ℕ}
    {t : Task} (ht : s.tasks[i]? = some t) (hok : i ∈ slow → t.stage ≠ .handling) :
    advance i (handle i t.msg) s.shared t.stage = none := by
  have hnone : taskStep handle s i = none := by
    refine hstuck (.task i) fun hi u hu => ?_
    obtain rfl := Option.some.inj (ht.symm.trans hu)
    exact hok hi
  unfold taskStep at hnone
  rw [ht] at hnone
  exact Option.map_eq_none_iff.mp hnone

/-- **What holds up a task at rest**: its own call, or that there is no permit. -/
theorem stage_of_stuck (hinv : Inv handle input s)
    (hstuck : (machine handle input).Stuck (whileStalled slow) s) {i : ℕ} {t : Task}
    (ht : s.tasks[i]? = some t) :
    (t.stage = .waitingPermit ∧ s.shared.permits = 0) ∨ (t.stage = .handling ∧ i ∈ slow)
      ∨ t.stage = .finished := by
  have hadvance : (i ∈ slow → t.stage ≠ .handling) →
      advance i (handle i t.msg) s.shared t.stage = none := advance_of_stuck hstuck ht
  obtain ⟨msg, stage⟩ := t
  cases stage with
  | waitingPermit =>
      refine Or.inl ⟨rfl, ?_⟩
      have hnone := hadvance fun _ => by simp
      simp only [advance] at hnone
      split_ifs at hnone with hpos
      exact Nat.eq_zero_of_not_pos hpos
  | handling =>
      refine Or.inr (Or.inl ⟨rfl, ?_⟩)
      by_contra hi
      have hnone := hadvance fun h => absurd h hi
      simp only [advance] at hnone
      split at hnone
      · exact absurd hnone (Option.some_ne_none _)
      · exact absurd hnone (Option.some_ne_none _)
  | waitingLock r =>
      have hnone := hadvance fun _ => by simp
      simp only [advance] at hnone
      split_ifs at hnone with hfree
      -- The owner of the lock could move.
      obtain ⟨j, hj⟩ := Option.ne_none_iff_exists'.mp hfree
      obtain ⟨u, hu, hholds⟩ := (hinv.lock j).mp hj
      refine absurd (advance_of_stuck hstuck hu fun _ hu' => ?_) (advance_ne_none hholds)
      rw [hu'] at hholds
      exact Bool.false_ne_true hholds
  | writing written rest =>
      exact absurd (hadvance fun _ => by simp) (advance_ne_none rfl)
  | flushing => exact absurd (hadvance fun _ => by simp) (advance_ne_none rfl)
  | finished => exact Or.inr (Or.inr rfl)

/-- The entries of a list that meet a predicate, by their places. -/
theorem countP_eq_card {α : Type*} (p : α → Bool) (l : List α) :
    l.countP p = ((Finset.range l.length).filter fun i => (l[i]?).any p = true).card := by
  rw [Finset.card_filter]
  induction l using List.reverseRecOn with
  | nil => rfl
  | append_singleton l a ih =>
      rw [List.countP_append, List.length_append, List.length_singleton, Finset.sum_range_succ,
        ih]
      congr 1
      · refine Finset.sum_congr rfl fun i hi => ?_
        rw [List.getElem?_append_left (Finset.mem_range.mp hi)]
      · simp [List.countP_cons]

/-- The calls in flight at rest are calls that do not return: all of them, while there is a
permit left, and as many as there are permits otherwise. -/
theorem permits_of_stuck (hs : (machine handle input).Reach (whileStalled slow) s)
    (hstuck : (machine handle input).Stuck (whileStalled slow) s) (hinput : s.input = []) :
    s.shared.permits + s.tasks.countP (·.stage = .handling) = maxInFlight
      ∧ s.tasks.countP (·.stage = .handling) ≤ stalled slow input
      ∧ (s.shared.permits ≠ 0 → s.tasks.countP (·.stage = .handling) = stalled slow input) := by
  have hinv : Inv handle input s :=
    hs.invariant (fun _ => Inv.init) fun _ _ _ h _ hstep => h.step hstep
  have hheld := heldUp_of_reach hs
  have hlength : s.tasks.length = (messagesOf input).length := by
    rw [← hinv.messages, hinput]
    simp [messagesOf]
  have hholders : s.tasks.countP (·.stage.holdsPermit) = s.tasks.countP (·.stage = .handling) := by
    refine List.countP_congr fun t ht => ?_
    obtain ⟨i, hi⟩ := List.mem_iff_getElem?.mp ht
    rcases stage_of_stuck hinv hstuck hi with ⟨hstage, -⟩ | ⟨hstage, -⟩ | hstage <;>
      simp [hstage, Stage.holdsPermit]
  have hcard := countP_eq_card (fun t : Task => decide (t.stage = .handling)) s.tasks
  rw [hlength] at hcard
  have hslow : ∀ i, (s.tasks[i]?).any (fun t : Task => decide (t.stage = .handling)) = true →
      i ∈ slow := by
    intro i hany
    obtain ⟨t, ht, hhandling⟩ := (Option.any_eq_true _ _).mp hany
    rcases stage_of_stuck hinv hstuck ht with ⟨hstage, -⟩ | ⟨-, hi⟩ | hstage
    · simp [hstage] at hhandling
    · exact hi
    · simp [hstage] at hhandling
  refine ⟨?_, ?_, fun hpermits => ?_⟩
  · rw [← hholders]
    exact permits_of_reach hs.anyStep
  · rw [hcard]
    exact Finset.card_le_card (Finset.monotone_filter_right _ fun i _ hany => hslow i hany)
  · rw [hcard]
    refine congrArg Finset.card (Finset.filter_congr fun i hi => ⟨hslow i, fun hslowi => ?_⟩)
    -- A slow task that is not in its call would be able to get a permit.
    have hlt : i < s.tasks.length := hlength ▸ Finset.mem_range.mp hi
    have ht := List.getElem?_eq_getElem hlt
    rw [ht, Option.any_some, decide_eq_true_eq]
    refine (hheld i hslowi _ ht).resolve_left fun hwaiting => ?_
    rcases stage_of_stuck hinv hstuck ht with ⟨-, hnone⟩ | ⟨hstage, -⟩ | hstage
    · exact hpermits hnone
    · exact absurd (hwaiting.symm.trans hstage) (by simp)
    · exact absurd (hwaiting.symm.trans hstage) (by simp)

/-- While there is a permit left at rest, all messages but those of slow calls are answered. -/
theorem answeredBut_of_stuck (hs : (machine handle input).Reach (whileStalled slow) s)
    (hstuck : (machine handle input).Stuck (whileStalled slow) s) (hinput : s.input = [])
    (hpermits : s.shared.permits ≠ 0) : AnsweredBut slow handle input s.shared.stdout := by
  have hinv : Inv handle input s :=
    hs.invariant (fun _ => Inv.init) fun _ _ _ h _ hstep => h.step hstep
  have hstage : ∀ (i : ℕ) (t : Task), s.tasks[i]? = some t →
      (t.stage = .handling ∧ i ∈ slow) ∨ t.stage = .finished := fun i t ht =>
    (stage_of_stuck hinv hstuck ht).resolve_left fun h => hpermits h.2
  have hmessages : s.tasks.map (·.msg) = messagesOf input := by
    rw [← hinv.messages, hinput]
    simp [messagesOf]
  have hfree : s.shared.lock = none := by
    rw [Option.eq_none_iff_forall_ne_some]
    intro i hlock
    obtain ⟨t, ht, hholds⟩ := (hinv.lock i).mp hlock
    rcases hstage i t ht with ⟨h, -⟩ | h <;> simp [h, Stage.holdsLock] at hholds
  obtain ⟨order, hnodup, hmem, hout⟩ := hinv.framed
  refine ⟨order, hnodup, fun i => ?_, ?_⟩
  · rw [hmem i]
    constructor
    · rintro ⟨t, ht, hwritten⟩
      rcases hstage i t ht with ⟨h, -⟩ | h
      · simp [h, Stage.lineWritten] at hwritten
      · rw [h] at hwritten
        refine ⟨fun hi => ?_, hwritten⟩
        rcases heldUp_of_reach hs i hi t ht with hheld | hheld
        · exact absurd (h.symm.trans hheld) (by simp)
        · exact absurd (h.symm.trans hheld) (by simp)
    · rintro ⟨hi, hsome⟩
      have hlt : i < s.tasks.length := by
        by_contra hge
        rw [responseOf, ← hmessages, List.getElem?_eq_none (by simpa using hge)] at hsome
        exact Bool.false_ne_true hsome
      have ht := List.getElem?_eq_getElem hlt
      refine ⟨_, ht, ?_⟩
      rw [(hstage i _ ht).resolve_left fun h => hi h.2]
      exact hsome
  · rw [hout, hfree]
    exact List.append_nil _

/-- **Slow calls do not hold up the others.**  With any calls that never return, every run
comes to rest, after a number of steps that is known beforehand.  When fewer than 32 calls
hang, all other messages have been answered then; otherwise 32 of those that hang hold all
the permits. -/
theorem stalls_no_other (handle : ℕ → String → Option String) (input : List ReadResult)
    (slow : Finset ℕ) {s : State} (hs : (machine handle input).Reach (whileStalled slow) s) :
    (∀ n t, (machine handle input).Leads (whileStalled slow) s n t →
        n + t.work handle = s.work handle)
      ∧ (∃ n t, (machine handle input).Leads (whileStalled slow) s n t
        ∧ (machine handle input).Stuck (whileStalled slow) t)
      ∧ ((machine handle input).Stuck (whileStalled slow) s → s.reader = .running →
        s.input = []
          ∧ (stalled slow input < maxInFlight → AnsweredBut slow handle input s.shared.stdout)
          ∧ (maxInFlight ≤ stalled slow input → s.shared.permits = 0
            ∧ s.tasks.countP (·.stage = .handling) = maxInFlight
            ∧ ∀ (i : ℕ) (t : Task), s.tasks[i]? = some t → i ∉ slow →
              t.stage = .waitingPermit ∨ t.stage = .finished)) := by
  have hranked : (machine handle input).Ranked (whileStalled slow) (fun _ => True)
      (State.work handle) :=
    ⟨fun _ _ _ _ _ _ => trivial, fun s a t _ _ hnext => by
      have hwork := next_work hnext
      omega⟩
  refine ⟨fun n t hrun => ?_, hranked.comes_to_rest trivial, fun hstuck hreader => ?_⟩
  · induction hrun with
    | refl => exact Nat.zero_add _
    | tail _ _ hnext ih =>
        have hwork := next_work hnext
        omega
  · have hinput : s.input = [] := by
      by_contra hinput
      have hnone : readStep s = none := hstuck .read hinput
      obtain ⟨reader, remaining, shared, tasks⟩ := s
      obtain rfl : reader = .running := hreader
      rcases remaining with _ | ⟨l | e, rest⟩
      · exact hinput rfl
      · simp only [readStep] at hnone
        split_ifs at hnone
      · exact absurd hnone (Option.some_ne_none _)
    obtain ⟨hsum, hle, hall⟩ := permits_of_stuck hs hstuck hinput
    have hinv : Inv handle input s :=
      hs.invariant (fun _ => Inv.init) fun _ _ _ h _ hstep => h.step hstep
    refine ⟨hinput, fun hfew => ?_, fun hmany => ?_⟩
    · exact answeredBut_of_stuck hs hstuck hinput fun hnone => by omega
    · have hnone : s.shared.permits = 0 := by
        by_contra hpermits
        have hcount := hall hpermits
        omega
      refine ⟨hnone, by omega, fun i t ht hi => ?_⟩
      rcases stage_of_stuck hinv hstuck ht with ⟨hstage, -⟩ | ⟨-, hslow⟩ | hstage
      · exact Or.inl hstage
      · exact absurd hslow hi
      · exact Or.inr hstage

/-- Two lines, the first of which is never answered. -/
theorem stalls_no_other_second :
    ∃ s, (machine echo [.line "a", .line "b"]).Reach (whileStalled {0}) s
      ∧ AnsweredBut {0} echo [.line "a", .line "b"] s.shared.stdout := by
  have hinit : (machine echo [.line "a", .line "b"]).init
      ⟨.running, [.line "a", .line "b"], ⟨32, none, []⟩, []⟩ := rfl
  have hmove : ∀ s, whileStalled {0} s (.task 1) := fun _ hi => absurd hi (by decide)
  have hreach : (machine echo [.line "a", .line "b"]).Reach (whileStalled {0})
      ⟨.running, [], ⟨31, none, [98, lineBreak]⟩, [⟨"a", .handling⟩, ⟨"b", .finished⟩]⟩ := by
    refine (Machine.Reach.init hinit).of_run (l := [.read, .read, .task 0, .task 1, .task 1,
      .task 1, .task 1, .task 1, .task 1]) ?_ rfl
    refine .cons (List.cons_ne_nil _ _) rfl (.cons (List.cons_ne_nil _ _) rfl ?_)
    refine .cons (fun _ t ht => ?_) rfl ?_
    · obtain rfl := Option.some.inj ht
      simp
    refine .cons (hmove _) rfl (.cons (hmove _) rfl (.cons (hmove _) rfl ?_))
    exact .cons (hmove _) rfl (.cons (hmove _) rfl (.cons (hmove _) rfl (.nil _)))
  have hstuck : (machine echo [.line "a", .line "b"]).Stuck (whileStalled {0})
      ⟨.running, [], ⟨31, none, [98, lineBreak]⟩, [⟨"a", .handling⟩, ⟨"b", .finished⟩]⟩ := by
    intro a hok
    match a with
    | .read => exact absurd rfl hok
    | .task 0 => exact absurd rfl (hok (by decide) _ rfl)
    | .task 1 => rfl
    | .task (i + 2) => rfl
  exact ⟨_, hreach, ((stalls_no_other _ _ _ hreach).2.2 hstuck rfl).2.1 (by decide)⟩

end McpStdio
