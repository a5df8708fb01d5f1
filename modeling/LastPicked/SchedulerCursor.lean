import LastPicked.SchedulerInvariant
import LastPicked.RotatingCursor

/-! The cursor of round robin. It counts the places up to the worker chosen
last, also while that worker has left the list and not yet moved the cursor
back, so the queue with its cursor is a list served in rotation. -/

namespace LastPicked.Scheduler
open LabelledRuns Tallies RotatingCursor WorkerPc

variable {cfg : Config} {s s' : State cfg} {e : Event cfg}

namespace WorkerPc

/-- Removed from the list, with `currentPosition--` still to come. -/
def lagging : WorkerPc → Bool
  | postQueueSem | decrementPosition => true
  | _ => false

@[simp, grind =] theorem lagging_loopOrExit (i : Nat) : (loopOrExit cfg i).lagging = false := by
  unfold loopOrExit
  split <;> rfl

theorem running_of_lagging {pc : WorkerPc} (h : pc.lagging = true) : pc.running = true := by
  cases pc <;> simp_all [lagging, running]

end WorkerPc

/-- The worker whose turn the scheduler is about to grant or has granted, as
long as it is in the list. -/
def Current (s : State cfg) (info : Worker cfg) : Prop :=
  s.sched = .wakeUpWorker info ∨ s.sched = .waitForWorker info ∧ (s.worker info).queued = true

structure Cursor (s : State cfg) : Prop where
  low : (tally lagging s.worker : Int) ≤ s.currentPosition
  high : s.currentPosition ≤ s.queue.length + tally lagging s.worker
  current : ∀ info, Current s info →
    ∃ before after, s.queue = before ++ info :: after ∧ s.currentPosition = before.length + 1

theorem Invariant.not_lagging (h : Invariant s) (home : s.sched.token = 0) :
    tally lagging s.worker = 0 :=
  (tally_eq_zero _ _).mpr fun w => by
    by_contra late
    have busy := running_of_lagging (by simpa using late)
    rw [(h.idle home w).2.1] at busy
    contradiction

theorem rrNextWorker_empty {α : Type} (c : Int) :
    rrNextWorker ([] : List α) c = some (none, c) := rfl

theorem rrNextWorker_within {α : Type} {q : List α} {c : Int} (nonempty : q ≠ []) (low : 0 ≤ c)
    (high : c ≤ q.length) : ∃ before x after, q = before ++ x :: after ∧
      rrNextWorker q c = some (some x, (before.length : Int) + 1) ∧
      (c = before.length ∨ c = q.length ∧ before = []) := by
  have pos := List.length_pos_of_ne_nil nonempty
  by_cases last : c = q.length
  · refine ⟨[], q[0], q.drop 1, ?_, rrNextWorker_eq pos (.inr ⟨last, rfl⟩), .inr ⟨last, rfl⟩⟩
    simpa using List.drop_eq_getElem_cons pos
  · have inside : c.toNat < q.length := by omega
    have short : (q.take c.toNat).length = c.toNat := by simp; omega
    refine ⟨q.take c.toNat, q[c.toNat], q.drop (c.toNat + 1), ?_, ?_, .inl (by rw [short]; omega)⟩
    · rw [← List.drop_eq_getElem_cons inside, List.take_append_drop]
    · rw [short]
      exact rrNextWorker_eq inside (.inl (by omega))

/-- While nobody runs, the cursor is in the queue or at its end. -/
theorem Cursor.bounds (c : Cursor s) (h : Invariant s) (home : s.sched.token = 0) :
    0 ≤ s.currentPosition ∧ s.currentPosition ≤ s.queue.length := by
  have low := c.low
  have high := c.high
  rw [h.not_lagging home] at low high
  omega

theorem Cursor.select (c : Cursor s) (h : Invariant s) (home : s.sched.token = 0)
    {info : Worker cfg} {position : Int}
    (found : rrNextWorker s.queue s.currentPosition = some (some info, position)) :
    ∃ before after, s.queue = before ++ info :: after ∧ position = before.length + 1 ∧
      (s.currentPosition = before.length ∨ s.currentPosition = s.queue.length ∧ before = []) := by
  obtain ⟨low, high⟩ := c.bounds h home
  have nonempty : s.queue ≠ [] := fun none => by
    rw [none, rrNextWorker_empty] at found
    simp at found
  obtain ⟨before, x, after, queue, picked, at'⟩ := rrNextWorker_within nonempty low high
  rw [found] at picked
  simp only [Option.some.injEq, Prod.mk.injEq] at picked
  obtain ⟨rfl, rfl⟩ := picked
  exact ⟨before, after, queue, rfl, at'⟩

theorem Cursor.selectNone (c : Cursor s) (h : Invariant s) (home : s.sched.token = 0)
    {position : Int} (found : rrNextWorker s.queue s.currentPosition = some (none, position)) :
    s.queue = [] ∧ position = s.currentPosition := by
  obtain ⟨low, high⟩ := c.bounds h home
  by_cases none : s.queue = []
  · rw [none, rrNextWorker_empty] at found
    simp only [Option.some.injEq, Prod.mk.injEq, true_and] at found
    exact ⟨none, found.symm⟩
  · obtain ⟨_, _, _, _, picked, _⟩ := rrNextWorker_within none low high
    rw [found] at picked
    simp at picked

theorem Cursor.same (c : Cursor s) (queue : s'.queue = s.queue)
    (position : s'.currentPosition = s.currentPosition)
    (lag : tally lagging s'.worker = tally lagging s.worker)
    (current : ∀ info, Current s' info → Current s info) : Cursor s' := by
  refine ⟨?_, ?_, fun info now => ?_⟩
  · rw [lag, position]
    exact c.low
  · rw [lag, position, queue]
    exact c.high
  · rw [position, queue]
    exact c.current info (current info now)

theorem class_same (p : WorkerPc → Bool) {w : Worker cfg} {old : WorkerPc} (new : WorkerPc)
    (pc : s.worker w = old) (same : p new = p old) (v : Worker cfg) :
    p (Function.update s.worker w new v) = p (s.worker v) := by
  by_cases it : v = w
  · subst it
    rw [Function.update_self, same, pc]
  · rw [Function.update_of_ne it]

theorem Cursor.stays (c : Cursor s) {w : Worker cfg} {old new : WorkerPc} (pc : s.worker w = old)
    (worker : s'.worker = Function.update s.worker w new) (lag : new.lagging = old.lagging)
    (inside : new.queued = old.queued) (queue : s'.queue = s.queue)
    (position : s'.currentPosition = s.currentPosition) (sched : s'.sched = s.sched) :
    Cursor s' := by
  refine c.same queue position (by rw [worker, tally_same lagging new pc lag]) fun info now => ?_
  rw [Current, sched, worker, class_same WorkerPc.queued new pc inside] at now
  exact now

theorem Invariant.alone (h : Invariant s) {w : Worker cfg} (running : (s.worker w).running = true)
    (early : (s.worker w).lagging = false) : tally lagging s.worker = 0 := by
  refine (tally_eq_zero _ _).mpr fun v => ?_
  by_cases it : v = w
  · rw [it, early]
  · by_contra late
    have busy := running_of_lagging (by simpa using late)
    rw [(h.holder w (h.sched_of_running running) v it).2] at busy
    contradiction

theorem Cursor.leaves (c : Cursor s) (h : Invariant s) {w : Worker cfg}
    (pc : s.worker w = .removeElem) : tally lagging s.worker = 0 ∧
      ∃ before after, s.queue = before ++ w :: after ∧ s.queue.erase w = before ++ after ∧
        s.currentPosition = before.length + 1 := by
  have running : (s.worker w).running = true := by rw [pc]; rfl
  obtain ⟨before, after, queue, position⟩ :=
    c.current w (.inr ⟨h.sched_of_running running, by rw [pc]; rfl⟩)
  have distinct := h.distinct
  rw [queue] at distinct
  have away : w ∉ before := fun there => (List.nodup_append.mp distinct).2.2 w there w (by simp) rfl
  refine ⟨h.alone running (by rw [pc]; rfl), before, after, queue, ?_, position⟩
  rw [queue, List.erase_append_right _ away, List.erase_cons_head]

theorem Invariant.current_removeElem (h : Invariant s) {w info : Worker cfg}
    (pc : s.worker w = .removeElem) :
    ¬ Current { s.goto w .postQueueSem with queue := s.queue.erase w } info := by
  intro now
  have sched := h.sched_of_running (show (s.worker w).running = true by rw [pc]; rfl)
  simp only [Current, State.goto, sched, reduceCtorEq, SchedPc.waitForWorker.injEq, false_or] at now
  obtain ⟨rfl, inside⟩ := now
  simp [WorkerPc.queued] at inside

theorem Cursor.removeElem (c : Cursor s) (h : Invariant s) {w : Worker cfg}
    (pc : s.worker w = .removeElem) :
    Cursor { s.goto w .postQueueSem with queue := s.queue.erase w } := by
  obtain ⟨alone, before, after, queue, removed, position⟩ := c.leaves h pc
  have lag := tally_goto lagging .postQueueSem pc
  rw [alone] at lag
  simp only [lagging, Bool.toNat_true, Bool.toNat_false] at lag
  refine ⟨?_, ?_, fun info now => ?_⟩
  · simp only [State.goto]
    omega
  · simp only [State.goto, removed, List.length_append]
    omega
  · exact absurd now (h.current_removeElem pc)

theorem Invariant.current_insertTail (h : Invariant s) {w info : Worker cfg}
    (pc : s.worker w = .insertTail)
    (now : Current { s.goto w (loopOrExit cfg 0) with queue := s.queue ++ [w] } info) :
    Current s info := by
  rcases now with wakes | ⟨waits, inside⟩
  · exact .inl wakes
  · refine .inr ⟨waits, ?_⟩
    have granted := h.granted info waits
    have other : info ≠ w := by
      rintro rfl
      rw [pc] at granted
      contradiction
    simpa only [State.goto, Function.update_of_ne other] using inside

theorem Cursor.insertTail (c : Cursor s) (h : Invariant s) {w : Worker cfg}
    (pc : s.worker w = .insertTail) :
    Cursor { s.goto w (loopOrExit cfg 0) with queue := s.queue ++ [w] } := by
  obtain ⟨low, high, current⟩ := c
  have lag := tally_same lagging (loopOrExit cfg 0) pc (lagging_loopOrExit 0)
  refine ⟨?_, ?_, fun info now => ?_⟩
  · simpa only [State.goto, lag] using low
  · simp only [State.goto, lag, List.length_append, List.length_singleton]
    omega
  · obtain ⟨before, after, queue, position⟩ := current info (h.current_insertTail pc now)
    exact ⟨before, after ++ [w], by simp [queue], position⟩

theorem Cursor.decrementPosition (c : Cursor s) (h : Invariant s) {w : Worker cfg}
    (pc : s.worker w = .decrementPosition) :
    Cursor { s.goto w .decrementRemaining with currentPosition := s.currentPosition - 1 } := by
  obtain ⟨low, high, -⟩ := c
  have sched := h.sched_of_running (show (s.worker w).running = true by rw [pc]; rfl)
  have lag := tally_goto lagging .decrementRemaining pc
  simp only [lagging, Bool.toNat_true, Bool.toNat_false] at lag
  refine ⟨?_, ?_, fun info now => ?_⟩
  · simp only [State.goto]
    omega
  · simp only [State.goto]
    omega
  · simp only [Current, State.goto, sched, reduceCtorEq,
      SchedPc.waitForWorker.injEq, false_or] at now
    obtain ⟨rfl, inside⟩ := now
    simp [WorkerPc.queued] at inside

/-- Every step of a round robin system keeps the cursor in place. -/
theorem Cursor.step (c : Cursor s) (h : Invariant s) (rr : cfg.policy = .rr) (m : Moves s e s') :
    Cursor s' := by
  cases m
  case setRemaining | join => exact c.same rfl rfl rfl fun _ now => now
  case waitForQueue | goOn | stop | waitForWorker =>
    exact c.same rfl rfl rfl fun _ now => by simp [Current] at now
  case createWorker i pc => exact c.stays (h.unborn pc) rfl rfl rfl rfl rfl rfl
  case waitQueueSem w pc _ => exact c.stays pc rfl rfl rfl rfl rfl rfl
  case waitCpu w i pc _ => exact c.stays pc rfl rfl rfl rfl rfl rfl
  case work w i pc => exact c.stays pc rfl rfl rfl rfl rfl rfl
  case waitExit w pc _ => exact c.stays pc rfl rfl rfl rfl rfl rfl
  case postQueueSem w pc => exact c.stays pc rfl rfl rfl rfl rfl rfl
  case decrementRemaining w pc => exact c.stays pc rfl rfl rfl rfl rfl rfl
  case releaseExit w pc => exact c.stays pc rfl rfl rfl rfl rfl rfl
  case releaseCpu w i pc =>
    exact c.stays pc rfl (lagging_loopOrExit _) (queued_loopOrExit _) rfl rfl rfl
  case wakeUpWorker info pc =>
    refine c.same rfl rfl rfl fun info' now => .inl ?_
    simp only [Current, reduceCtorEq, SchedPc.waitForWorker.injEq, false_or] at now
    rw [pc, now.1]
  case selectNone position pc found =>
    rw [rr] at found
    obtain ⟨-, rfl⟩ := c.selectNone h (by rw [pc]; rfl) found
    exact c.same rfl rfl rfl fun _ now => by simp [Current] at now
  case select info position pc found =>
    rw [rr] at found
    have none := h.not_lagging (by rw [pc]; rfl)
    obtain ⟨before, after, queue, rfl, -⟩ := c.select h (by rw [pc]; rfl) found
    refine ⟨by rw [none]; simp; omega, by rw [none, queue]; simp, fun info' now => ?_⟩
    simp only [Current, SchedPc.wakeUpWorker.injEq, reduceCtorEq, false_and, or_false] at now
    exact ⟨before, after, now ▸ queue, rfl⟩
  case insertTail w pc => exact c.insertTail h pc
  case decrementPosition w pc => exact c.decrementPosition h pc
  case removeElem w pc => exact c.removeElem h pc

theorem Cursor.init : Cursor (init cfg) where
  low := by simp [Scheduler.init, tally, lagging]
  high := by simp [Scheduler.init]
  current := by simp [Scheduler.init, Current]

theorem Cursor.run {events : List (Event cfg)} (pos : 1 ≤ cfg.threadCount) (rr : cfg.policy = .rr)
    (run : Run Step (Scheduler.init cfg) events s) : Invariant s ∧ Cursor s :=
  run.invariant (fun s => Invariant s ∧ Cursor s) ⟨.init pos, .init⟩
    fun _ _ _ h m => ⟨h.1.step m.moves, h.2.step h.1 rr m.moves⟩

end LastPicked.Scheduler
