import LastPicked.SchedulerExclusion
import LastPicked.SchedulerCursor

/-! The system is never stuck before the scheduler has left its loop. -/

namespace LastPicked.Scheduler
open LabelledRuns Tallies WorkerPc

variable {cfg : Config} {s s' : State cfg} {events : List (Event cfg)}

def Enabled (s : State cfg) (t : Thread cfg) : Prop := (step s t).isSome = true

theorem enabled_running {w : Worker cfg} (running : (s.worker w).running = true) :
    Enabled s (.worker w) := by
  cases pc : s.worker w <;> simp_all [Enabled, Scheduler.step, workerStep, WorkerPc.running]

theorem enabled_woken (h : Invariant s) {w : Worker cfg} (woken : 0 < s.exec w) :
    Enabled s (.worker w) := by
  have waits := h.woken w woken
  cases pc : s.worker w <;> simp_all [Enabled, Scheduler.step, workerStep, WorkerPc.waiting]

/-- While the token is out, its holder can move, or the scheduler can take it back. -/
theorem Invariant.enabled_waitForWorker (h : Invariant s) {info : Worker cfg}
    (pc : s.sched = .waitForWorker info) : ∃ t, Enabled s t := by
  have token := h.token
  rw [pc] at token
  simp only [SchedPc.token] at token
  by_cases posted : 0 < s.cpuSem
  · exact ⟨.sched, by simp [Enabled, Scheduler.step, schedStep, pc, posted]⟩
  by_cases woken : ∑ w, s.exec w = 0
  · have busy : tally running s.worker ≠ 0 := by omega
    rw [Ne, tally_eq_zero, not_forall] at busy
    obtain ⟨w, busy⟩ := busy
    exact ⟨.worker w, enabled_running (by simpa using busy)⟩
  · obtain ⟨w, -, woken⟩ := Finset.exists_ne_zero_of_sum_ne_zero woken
    exact ⟨.worker w, enabled_woken h (Nat.pos_of_ne_zero woken)⟩

theorem Invariant.enabled_main (h : Invariant s) {w : Worker cfg} (pc : s.worker w = .unborn) :
    Enabled s .main := by
  have later := (h.born w).mp pc
  have bound := w.isLt
  cases main : s.main with
  | setRemaining | createWorker => simp [Enabled, Scheduler.step, mainStep, main]
  | join | cleanedUp =>
    simp only [main, MainPc.created] at later
    omega

theorem Invariant.enabled_waitQueueSem (h : Invariant s) (places : 1 ≤ cfg.queueSize)
    (outside : ∀ v, s.worker v = .insertTail ∨ (s.worker v).admitted = false) {w : Worker cfg}
    (pc : s.worker w = .waitQueueSem) : ∃ t, Enabled s t := by
  by_cases entering : ∃ v, s.worker v = .insertTail
  · obtain ⟨v, entering⟩ := entering
    exact ⟨.worker v, by simp [Enabled, Scheduler.step, workerStep, entering]⟩
  · have none : tally admitted s.worker = 0 := (tally_eq_zero _ _).mpr fun v =>
      (outside v).resolve_left fun enters => entering ⟨v, enters⟩
    have slots := h.slots
    have room : 0 < s.queueSem := by omega
    exact ⟨.worker w, by simp [Enabled, Scheduler.step, workerStep, pc, room]⟩

theorem Invariant.enabled_waitForQueue (h : Invariant s) (places : 1 ≤ cfg.queueSize)
    (pc : s.sched = .waitForQueue) (empty : s.queue = []) : ∃ t, Enabled s t := by
  obtain ⟨w, inside⟩ := h.pending (.inl pc)
  have idle : ∀ v, (s.worker v).running = false := fun v => (h.idle (by rw [pc]; rfl) v).2.1
  have outside : ∀ v, (s.worker v).queued = false := fun v => by
    have queued := h.queued v
    rw [empty] at queued
    simpa using queued
  have left : ∀ v, s.worker v = .insertTail ∨ (s.worker v).admitted = false := fun v => by
    have idle := idle v
    have outside := outside v
    cases at' : s.worker v <;> simp_all [running, WorkerPc.queued, admitted]
  cases at' : s.worker w with
  | unborn => exact ⟨.main, h.enabled_main at'⟩
  | waitQueueSem => exact h.enabled_waitQueueSem places left at'
  | insertTail => exact ⟨.worker w, by simp [Enabled, Scheduler.step, workerStep, at']⟩
  | exited => exact absurd at' inside
  | _ =>
    have idle := idle w
    have outside := outside w
    simp_all [running, WorkerPc.queued]

theorem enabled_nextWorker (pc : s.sched = .nextWorker) {found : Option (Worker cfg) × Int}
    (picked : nextWorker cfg.policy s.queue s.currentPosition = some found) : Enabled s .sched := by
  obtain ⟨info, position⟩ := found
  cases info <;> simp [Enabled, Scheduler.step, schedStep, pc, picked]

theorem run_nextWorker (pos : 1 ≤ cfg.threadCount) (run : Run Step (init cfg) events s)
    (pc : s.sched = .nextWorker) :
    ∃ found, nextWorker cfg.policy s.queue s.currentPosition = some found := by
  cases policy : cfg.policy with
  | fifo => exact ⟨_, rfl⟩
  | rr =>
    obtain ⟨h, c⟩ := Cursor.run pos policy run
    obtain ⟨low, high⟩ := c.bounds h (by rw [pc]; rfl)
    by_cases empty : s.queue = []
    · exact ⟨(none, s.currentPosition), by rw [empty]; rfl⟩
    · obtain ⟨_, x, _, _, picked, _⟩ := rrNextWorker_within empty low high
      exact ⟨_, picked⟩

/-- In every reachable state in which the scheduler has not left its loop,
some thread can take a step. -/
theorem run_progress (pos : 1 ≤ cfg.threadCount) (places : 1 ≤ cfg.queueSize)
    (run : Run Step (init cfg) events s) (on : s.sched ≠ .done) : ∃ t, Enabled s t := by
  have h := Invariant.run pos run
  cases pc : s.sched with
  | waitForQueue =>
    by_cases empty : s.queue = []
    · exact h.enabled_waitForQueue places pc empty
    · exact ⟨.sched, by simp [Enabled, Scheduler.step, schedStep, pc, empty]⟩
  | test =>
    refine ⟨.sched, ?_⟩
    simp only [Enabled, Scheduler.step, schedStep, pc]
    split <;> rfl
  | nextWorker =>
    obtain ⟨found, picked⟩ := run_nextWorker pos run pc
    exact ⟨.sched, enabled_nextWorker pc picked⟩
  | wakeUpWorker info => exact ⟨.sched, by simp [Enabled, Scheduler.step, schedStep, pc]⟩
  | waitForWorker info => exact h.enabled_waitForWorker pc
  | done => exact absurd pc on

theorem run_progress_pair : ∃ events s, Run Step (init (pair .fifo)) events s ∧
    s.sched = .waitForWorker 0 ∧ s.queue = [0, 1] ∧ ∃ t, Enabled s t := by
  obtain ⟨events, s, run, waits, -, queue⟩ := execute_pairStart .fifo
  have on : s.sched ≠ .done := by rw [waits]; exact nofun
  exact ⟨events, s, execute_run run, waits, queue,
    run_progress (by decide) (by decide) (execute_run run) on⟩

end LastPicked.Scheduler
