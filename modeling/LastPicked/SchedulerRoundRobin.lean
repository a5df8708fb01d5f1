import LastPicked.SchedulerCursor

/-! Round robin is fair: under any interleaving the queue with its cursor is a
list served in rotation, and a run of the system is a run of that rotation. -/

namespace LastPicked.Scheduler
open LabelledRuns Tallies RotatingCursor WorkerPc

variable {cfg : Config} {s s' : State cfg} {e : Event cfg}

def SchedPc.chosen : SchedPc cfg → Nat
  | wakeUpWorker _ => 1
  | _ => 0

def place (s : State cfg) : Nat :=
  (s.currentPosition - tally lagging s.worker - s.sched.chosen).toNat

def rotation (s : State cfg) : Rotation (Worker cfg) :=
  ⟨s.queue, place s, {w | (s.worker w).entered = true}⟩

theorem rotation_eq (queue : s'.queue = s.queue) (position : place s' = place s)
    (entered : ∀ w, (s'.worker w).entered = (s.worker w).entered) : rotation s' = rotation s := by
  simp only [rotation, queue, position, entered]

theorem rotation_stays {w : Worker cfg} {old new : WorkerPc} (pc : s.worker w = old)
    (worker : s'.worker = Function.update s.worker w new) (lag : new.lagging = old.lagging)
    (inside : new.entered = old.entered) (queue : s'.queue = s.queue)
    (position : s'.currentPosition = s.currentPosition) (sched : s'.sched = s.sched) :
    rotation s' = rotation s := by
  refine rotation_eq queue ?_ fun v => ?_
  · rw [place, place, worker, position, sched, tally_same lagging new pc lag]
  · rw [worker, class_same entered new pc inside]

theorem rotation_valid (h : Invariant s) : Valid (rotation s) :=
  ⟨h.distinct, fun w there => entered_of_queued ((h.queued w).mp there)⟩

theorem Cursor.serve (c : Cursor s) (h : Invariant s) {info : Worker cfg}
    (pc : s.sched = .wakeUpWorker info) :
    Move (rotation s) (.serve info)
      (rotation { s.setExec info (s.exec info + 1) with sched := .waitForWorker info }) := by
  obtain ⟨before, after, queue, position⟩ := c.current info (.inl pc)
  have none := h.not_lagging (by rw [pc]; rfl)
  have here : place s = before.length := by
    rw [place, none, position, pc]
    simp [SchedPc.chosen]
  have moved : rotation { s.setExec info (s.exec info + 1) with sched := .waitForWorker info } =
      { rotation s with cursor := before.length + 1 } := by
    simp only [rotation, place, State.setExec, none, position, SchedPc.chosen]
    simp
  rw [moved]
  exact .serve queue here

theorem rotation_arrive {w : Worker cfg} (pc : s.worker w = .insertTail) :
    Move (rotation s) (.arrive w)
      (rotation { s.goto w (loopOrExit cfg 0) with queue := s.queue ++ [w] }) := by
  have new : w ∉ (rotation s).seen := by simp [rotation, pc, entered]
  have moved : rotation { s.goto w (loopOrExit cfg 0) with queue := s.queue ++ [w] } =
      { rotation s with queue := s.queue ++ [w], seen := insert w (rotation s).seen } := by
    simp only [rotation, place, State.goto, tally_same lagging _ pc (lagging_loopOrExit 0),
      Rotation.mk.injEq, true_and]
    ext v
    by_cases it : v = w <;> simp [it]
  rw [moved]
  exact .arrive new

theorem Cursor.depart (c : Cursor s) (h : Invariant s) {w : Worker cfg}
    (pc : s.worker w = .removeElem) :
    Move (rotation s) (.depart w)
      (rotation { s.goto w .postQueueSem with queue := s.queue.erase w }) := by
  obtain ⟨alone, before, after, queue, removed, position⟩ := c.leaves h pc
  have sched := h.sched_of_running (show (s.worker w).running = true by rw [pc]; rfl)
  have lag := tally_goto lagging .postQueueSem pc
  rw [alone] at lag
  simp only [lagging, Bool.toNat_true, Bool.toNat_false] at lag
  have here : place s = before.length + 1 := by
    rw [place, alone, position, sched]
    simp [SchedPc.chosen]
  have moved : rotation { s.goto w .postQueueSem with queue := s.queue.erase w } =
      { rotation s with queue := before ++ after, cursor := before.length } := by
    simp only [rotation, place, State.goto, removed, position, sched, SchedPc.chosen,
      class_same entered .postQueueSem pc rfl, Rotation.mk.injEq, true_and, and_true]
    omega
  rw [moved]
  exact .depart queue here

theorem Cursor.choose (c : Cursor s) (h : Invariant s) (pc : s.sched = .nextWorker)
    {info : Worker cfg} {position : Int}
    (found : rrNextWorker s.queue s.currentPosition = some (some info, position)) :
    rotation { s with sched := .wakeUpWorker info, currentPosition := position } = rotation s ∨
      Move (rotation s) .wrap
        (rotation { s with sched := .wakeUpWorker info, currentPosition := position }) := by
  have none := h.not_lagging (by rw [pc]; rfl)
  obtain ⟨before, after, queue, rfl, inside | ⟨last, rfl⟩⟩ := c.select h (by rw [pc]; rfl) found
  · refine .inl (rotation_eq rfl ?_ fun _ => rfl)
    simp only [place, none, inside, pc, SchedPc.chosen]
    omega
  · have here : place s = s.queue.length := by
      simp only [place, none, last, pc, SchedPc.chosen]
      omega
    have moved : rotation { s with
        sched := .wakeUpWorker info, currentPosition :=
          (([] : List (Worker cfg)).length : Int) + 1 } =
        { rotation s with cursor := 0 } := by
      simp [rotation, place, none, SchedPc.chosen]
    rw [moved]
    exact .inr (.wrap here)

theorem simulate_still (same : rotation s' = rotation s) (quiet : ∀ v, e ≠ .turn v) :
    ∃ ls, Run Move (rotation s) ls (rotation s') ∧ ∀ v, services ls v = [e].count (.turn v) := by
  refine ⟨[], same ▸ .nil, fun v => ?_⟩
  rw [List.count_singleton, if_neg (by simpa using quiet v)]
  rfl

theorem simulate_move {l : Label (Worker cfg)} (m : Move (rotation s) l (rotation s'))
    (turn : ∀ v, l = .serve v ↔ e = .turn v) :
    ∃ ls, Run Move (rotation s) ls (rotation s') ∧ ∀ v, services ls v = [e].count (.turn v) := by
  refine ⟨[l], .single m, fun v => ?_⟩
  simp only [services, List.count_singleton, beq_iff_eq, turn]

theorem Cursor.simulate (c : Cursor s) (h : Invariant s) (rr : cfg.policy = .rr)
    (m : Moves s e s') : ∃ ls, Run Move (rotation s) ls (rotation s') ∧
      ∀ v, services ls v = [e].count (.turn v) := by
  cases m
  case setRemaining | join => exact simulate_still rfl (by simp)
  case waitForQueue pc _ | goOn pc _ | stop pc _ | waitForWorker pc _ =>
    refine simulate_still (rotation_eq rfl ?_ fun _ => rfl) (by simp)
    simp [place, pc, SchedPc.chosen]
  case selectNone position pc found =>
    rw [rr] at found
    obtain ⟨-, rfl⟩ := c.selectNone h (by rw [pc]; rfl) found
    refine simulate_still (rotation_eq rfl ?_ fun _ => rfl) (by simp)
    simp [place, pc, SchedPc.chosen]
  case select info position pc found =>
    rw [rr] at found
    rcases c.choose h pc found with same | wrap
    · exact simulate_still same (by simp)
    · exact simulate_move wrap (by simp)
  case wakeUpWorker info pc => exact simulate_move (c.serve h pc) (by simp)
  case insertTail w pc => exact simulate_move (rotation_arrive pc) (by simp)
  case removeElem w pc => exact simulate_move (c.depart h pc) (by simp)
  case decrementPosition w pc =>
    have lag := tally_goto lagging .decrementRemaining pc
    simp only [lagging, Bool.toNat_true, Bool.toNat_false] at lag
    refine simulate_still (rotation_eq rfl ?_ fun v => ?_) (by simp)
    · simp only [place, State.goto]
      omega
    · exact class_same entered .decrementRemaining pc rfl v
  case createWorker i pc =>
    exact simulate_still (rotation_stays (h.unborn pc) rfl rfl rfl rfl rfl rfl) (by simp)
  case waitQueueSem w pc _ =>
    exact simulate_still (rotation_stays pc rfl rfl rfl rfl rfl rfl) (by simp)
  case waitCpu w i pc _ =>
    exact simulate_still (rotation_stays pc rfl rfl rfl rfl rfl rfl) (by simp)
  case work w i pc => exact simulate_still (rotation_stays pc rfl rfl rfl rfl rfl rfl) (by simp)
  case releaseCpu w i pc =>
    exact simulate_still (rotation_stays pc rfl (lagging_loopOrExit _) (entered_loopOrExit _)
      rfl rfl rfl) (by simp)
  case waitExit w pc _ => exact simulate_still (rotation_stays pc rfl rfl rfl rfl rfl rfl) (by simp)
  case postQueueSem w pc =>
    exact simulate_still (rotation_stays pc rfl rfl rfl rfl rfl rfl) (by simp)
  case decrementRemaining w pc =>
    exact simulate_still (rotation_stays pc rfl rfl rfl rfl rfl rfl) (by simp)
  case releaseExit w pc =>
    exact simulate_still (rotation_stays pc rfl rfl rfl rfl rfl rfl) (by simp)

/-- A run of the system is a run of the rotation, with the same turns. -/
theorem Cursor.simulate_run (c : Cursor s) (h : Invariant s) (rr : cfg.policy = .rr)
    {events : List (Event cfg)} (run : Run Step s events s') :
    ∃ ls, Run Move (rotation s) ls (rotation s') ∧ ∀ v, services ls v = events.count (.turn v) := by
  refine (run.history (fun events s' => (Invariant s' ∧ Cursor s') ∧
    ∃ ls, Run Move (rotation s) ls (rotation s') ∧ ∀ v, services ls v = events.count (.turn v))
    ⟨⟨h, c⟩, [], .nil, fun _ => rfl⟩ ?_).2
  rintro events t e u - ⟨⟨h, c⟩, ls, run, turns⟩ step
  obtain ⟨ls', run', turns'⟩ := c.simulate h rr step.moves
  refine ⟨⟨h.step step.moves, c.step h rr step.moves⟩, ls ++ ls', run.append run', fun v => ?_⟩
  rw [List.count_append, ← turns, ← turns', services, services, services, List.count_append]

theorem Cursor.turn (c : Cursor s) (h : Invariant s) {w : Worker cfg} (step : Step s (.turn w) s') :
    Move (rotation s) (.serve w) (rotation s') := by
  have m := step.moves
  cases m with
  | wakeUpWorker pc => exact c.serve h pc

theorem threadCount_pos {events : List (Event cfg)} (run : Run Step (init cfg) events s)
    (called : s.sched = .nextWorker) : 1 ≤ cfg.threadCount := by
  by_contra none
  have nobody : Worker cfg → False := fun w => none w.pos
  have waits : s.sched = .waitForQueue ∧ s.queue = [] := by
    refine run.invariant (fun s => s.sched = .waitForQueue ∧ s.queue = []) ⟨rfl, rfl⟩ ?_
    rintro t e u ⟨sched, queue⟩ step
    cases step.moves with
    | setRemaining | join => exact ⟨sched, queue⟩
    | waitForQueue _ some => exact absurd queue some
    | goOn pc | stop pc | select pc | selectNone pc | wakeUpWorker pc | waitForWorker pc =>
      rw [sched] at pc
      contradiction
    | _ => exact (nobody ‹Worker cfg›).elim
  rw [waits.1] at called
  contradiction

/-- Whenever `rr_next_worker` is called the cursor is in the queue or at its
end, so it finds a worker unless the queue is empty; and between two turns of
one worker each other has at most one, and exactly one when it is in the
queue all along. -/
theorem rr_fair (rr : cfg.policy = .rr) :
    (∀ events (s : State cfg), Run Step (init cfg) events s → s.sched = .nextWorker →
      0 ≤ s.currentPosition ∧ s.currentPosition ≤ s.queue.length ∧
      ∃ found position, rrNextWorker s.queue s.currentPosition = some (found, position) ∧
        (found = none ↔ s.queue = [])) ∧
    ∀ events mid (s₀ s₁ s₂ s₃ : State cfg) w, Run Step (init cfg) events s₀ →
      Step s₀ (.turn w) s₁ → Run Step s₁ mid s₂ → .turn w ∉ mid → Step s₂ (.turn w) s₃ →
      ∀ v, v ≠ w → mid.count (.turn v) ≤ 1 ∧
        (v ∈ s₁.queue → v ∈ s₂.queue → mid.count (.turn v) = 1) := by
  constructor
  · intro events s run pc
    obtain ⟨h, c⟩ := Cursor.run (threadCount_pos run pc) rr run
    obtain ⟨low, high⟩ := c.bounds h (by rw [pc]; rfl)
    refine ⟨low, high, ?_⟩
    by_cases none : s.queue = []
    · exact ⟨.none, _, by rw [none, rrNextWorker_empty], by simp [none]⟩
    · obtain ⟨before, x, after, queue, found, -⟩ := rrNextWorker_within none low high
      exact ⟨some x, _, found, by simp [none]⟩
  · intro events mid s₀ s₁ s₂ s₃ w run first between other second v ne
    have pos : 1 ≤ cfg.threadCount := w.pos
    obtain ⟨h₀, c₀⟩ := Cursor.run pos rr run
    obtain ⟨h₁, c₁⟩ := Cursor.run pos rr (run.snoc first)
    obtain ⟨h₂, c₂⟩ := Cursor.run pos rr ((run.snoc first).append between)
    obtain ⟨ls, run', turns⟩ := c₁.simulate_run h₁ rr between
    have away : .serve w ∉ ls := by
      rw [← List.count_eq_zero]
      exact (turns w).trans (List.count_eq_zero.mpr other)
    rw [← turns v]
    exact services_between (rotation_valid h₀) (c₀.turn h₀ first) run' away (c₂.turn h₂ second) ne

theorem execute_turns : ∃ events s₀ s₁ mid s₂ s₃,
    execute (init (pair .rr)) [.main, .main, .main, .worker 0, .worker 0, .worker 1,
      .worker 1, .sched, .sched, .sched] = some (events, s₀) ∧
    step s₀ .sched = some (s₁, .turn 0) ∧
    execute s₁ [.worker 0, .worker 0, .worker 0, .sched, .sched, .sched, .sched, .worker 1,
      .worker 1, .worker 1, .sched, .sched, .sched] = some (mid, s₂) ∧
    Event.turn 0 ∉ mid ∧ step s₂ .sched = some (s₃, .turn 0) ∧ 1 ∈ s₁.queue ∧ 1 ∈ s₂.queue :=
  ⟨_, _, _, _, _, _, rfl, rfl, rfl, by decide, rfl, by decide, by decide⟩

theorem rr_fair_pair :
    ∃ mid : List (Event (pair .rr)), Event.turn 0 ∉ mid ∧ mid.count (.turn 1) = 1 := by
  obtain ⟨events, s₀, s₁, mid, s₂, s₃, run, first, between, other, second, here, there⟩ :=
    execute_turns
  have fair := (rr_fair rfl).2 events mid s₀ s₁ s₂ s₃ 0 (execute_run run) ⟨_, first⟩
    (execute_run between) other ⟨_, second⟩ 1 (by decide)
  exact ⟨mid, other, fair.2 here there⟩

end LastPicked.Scheduler
