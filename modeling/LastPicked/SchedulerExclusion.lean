import LastPicked.SchedulerHistory

/-! One worker at a time holds the CPU, no more workers are queued than there
are places, and the scheduler stops when all the work is done. -/

namespace LastPicked.Scheduler
open LabelledRuns Tallies WorkerPc

variable {cfg : Config} {s s' : State cfg} {events : List (Event cfg)}

theorem Invariant.exclusive (h : Invariant s) {v w : Worker cfg}
    (first : (s.worker v).running = true) (second : (s.worker w).running = true) : v = w := by
  have sched := h.sched_of_running first
  rw [h.sched_of_running second] at sched
  exact (SchedPc.waitForWorker.inj sched).symm

/-- The workers that hold the CPU, the posted `exec` semaphores and `cpu_sem`
make one token while the scheduler waits for a worker, and none otherwise. -/
theorem run_exclusive (pos : 1 ≤ cfg.threadCount) (run : Run Step (init cfg) events s) :
    tally running s.worker + ∑ w, s.exec w + s.cpuSem =
        (if ∃ info, s.sched = .waitForWorker info then 1 else 0) ∧
      (∀ v w, (s.worker v).running = true → (s.worker w).running = true → v = w) ∧
      s.queue.Nodup ∧ s.queue.length ≤ cfg.queueSize := by
  have h := Invariant.run pos run
  refine ⟨?_, fun v w => h.exclusive, h.distinct, h.queue_length⟩
  rw [h.token]
  cases pc : s.sched <;> simp [SchedPc.token]

theorem run_exclusive_pair : ∃ events s, Run Step (init (pair .rr)) events s ∧ s.queue = [0, 1] ∧
    tally running s.worker + ∑ w, s.exec w + s.cpuSem = 1 ∧
    (∀ v w, (s.worker v).running = true → (s.worker w).running = true → v = w) ∧
    s.queue.Nodup ∧ s.queue.length ≤ 2 := by
  obtain ⟨events, s, run, waits, -, queue⟩ := execute_pairStart .rr
  obtain ⟨token, rest⟩ := run_exclusive (by decide) (execute_run run)
  rw [if_pos ⟨0, waits⟩] at token
  exact ⟨events, s, execute_run run, queue, token, rest⟩

/-- When the scheduler has left its loop, every worker has run all its loop
bodies and left the queue, nobody is left in it or waits to enter it, and
`clean_up` frees each element once. -/
theorem run_done (pos : 1 ≤ cfg.threadCount) (run : Run Step (init cfg) events s)
    (ended : s.sched = .done) :
    (∀ w, s.worker w = .exited ∧ events.count (.body w) = cfg.iterations ∧
      events.count (.enter w) = 1 ∧ events.count (.leave w) = 1) ∧
    s.queue = [] ∧ (cleanUpFrees s).Nodup := by
  have h := Invariant.run pos run
  have out := h.finished ended
  have empty : s.queue = [] := List.eq_nil_iff_forall_not_mem.mpr fun w there => by
    have inside := (h.queued w).mp there
    rw [out w] at inside
    contradiction
  refine ⟨fun w => ⟨out w, ?_, ?_, ?_⟩, empty, ?_⟩
  · rw [bodies_run pos run, out w]
    rfl
  · rw [admits_run pos run, out w]
    rfl
  · rw [leaves_run pos run, out w]
    rfl
  · rw [cleanUpFrees, empty, List.append_nil]
    exact List.nodup_finRange _

theorem run_done_pair : ∃ events s, Run Step (init (pair .fifo)) events s ∧
    (∀ w, s.worker w = .exited ∧ events.count (.body w) = 1 ∧ events.count (.enter w) = 1 ∧
      events.count (.leave w) = 1) ∧ s.queue = [] ∧ (cleanUpFrees s).Nodup := by
  obtain ⟨events, s, run, ended⟩ := execute_pair .fifo
  exact ⟨events, s, execute_run run, run_done (by decide) (execute_run run) ended⟩

end LastPicked.Scheduler
