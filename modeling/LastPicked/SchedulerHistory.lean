import LastPicked.SchedulerInvariant

/-! What the program counter of a worker says about its past: how often it was
admitted, left, worked and had a turn. -/

namespace LastPicked.Scheduler
open LabelledRuns WorkerPc

variable {cfg : Config} {s s' : State cfg} {e : Event cfg} {events : List (Event cfg)}

namespace WorkerPc

def departed : WorkerPc → Bool
  | postQueueSem | decrementPosition | decrementRemaining | releaseExit | exited => true
  | _ => false

def bodies (n : Nat) : WorkerPc → Nat
  | unborn | waitQueueSem | insertTail => 0
  | waitCpu i | work i => i
  | releaseCpu i => i + 1
  | _ => n

/-- The turns taken up so far: one for each iteration, and one to exit. -/
def taken (n : Nat) : WorkerPc → Nat
  | unborn | waitQueueSem | insertTail => 0
  | waitCpu i => i
  | work i | releaseCpu i => i + 1
  | waitExit => n
  | _ => n + 1

@[simp, grind =] theorem departed_loopOrExit (i : Nat) : (loopOrExit cfg i).departed = false := by
  unfold loopOrExit
  split <;> rfl

theorem bodies_loopOrExit {i : Nat} (le : i ≤ cfg.iterations) :
    (loopOrExit cfg i).bodies cfg.iterations = i := by
  unfold loopOrExit
  split
  · rfl
  · exact Nat.le_antisymm (Nat.le_of_not_lt ‹_›) le

theorem taken_loopOrExit {i : Nat} (le : i ≤ cfg.iterations) :
    (loopOrExit cfg i).taken cfg.iterations = i := by
  unfold loopOrExit
  split
  · rfl
  · exact Nat.le_antisymm (Nat.le_of_not_lt ‹_›) le

end WorkerPc

/-- The turns granted to a worker: those it took up, and one that waits in its semaphore. -/
def turnsOf (s : State cfg) (w : Worker cfg) : Nat :=
  (s.worker w).taken cfg.iterations + s.exec w

theorem Invariant.iteration_le (h : Invariant s) {w : Worker cfg} {i : Nat}
    (pc : s.worker w = .releaseCpu i) : i + 1 ≤ cfg.iterations := by
  have index := h.index w
  rw [pc] at index
  exact index

theorem Invariant.turnsOf_moves (h : Invariant s) (m : Moves s e s') (v : Worker cfg) :
    turnsOf s' v = turnsOf s v + [e].count (.turn v) := by
  have none := h.exec_eq_zero (w := v)
  cases m <;> simp only [turnsOf, State.goto, State.setExec, List.count_singleton]
  case createWorker i pc =>
    have unborn := h.unborn pc
    grind [WorkerPc.taken, WorkerPc.waiting]
  case insertTail w pc =>
    have first := taken_loopOrExit (Nat.zero_le cfg.iterations)
    grind [WorkerPc.taken]
  case releaseCpu w i pc =>
    have next := taken_loopOrExit (h.iteration_le pc)
    grind [WorkerPc.taken]
  all_goals grind [WorkerPc.taken]

theorem Invariant.entered_moves (h : Invariant s) (m : Moves s e s') (v : Worker cfg) :
    (s'.worker v).entered.toNat = (s.worker v).entered.toNat + [e].count (.enter v) := by
  cases m <;> simp only [State.goto, State.setExec, List.count_singleton]
  case createWorker i pc =>
    have unborn := h.unborn pc
    grind [WorkerPc.entered]
  all_goals grind [WorkerPc.entered]

theorem Invariant.departed_moves (h : Invariant s) (m : Moves s e s') (v : Worker cfg) :
    (s'.worker v).departed.toNat = (s.worker v).departed.toNat + [e].count (.leave v) := by
  cases m <;> simp only [State.goto, State.setExec, List.count_singleton]
  case createWorker i pc =>
    have unborn := h.unborn pc
    grind [WorkerPc.departed]
  all_goals grind [WorkerPc.departed]

theorem Invariant.bodies_moves (h : Invariant s) (m : Moves s e s') (v : Worker cfg) :
    (s'.worker v).bodies cfg.iterations =
      (s.worker v).bodies cfg.iterations + [e].count (.body v) := by
  cases m <;> simp only [State.goto, State.setExec, List.count_singleton]
  case createWorker i pc =>
    have unborn := h.unborn pc
    grind [WorkerPc.bodies]
  case insertTail w pc =>
    have first := bodies_loopOrExit (Nat.zero_le cfg.iterations)
    grind [WorkerPc.bodies]
  case releaseCpu w i pc =>
    have next := bodies_loopOrExit (h.iteration_le pc)
    grind [WorkerPc.bodies]
  all_goals grind [WorkerPc.bodies]

theorem count_run (pos : 1 ≤ cfg.threadCount) (kind : Event cfg) (number : State cfg → Nat)
    (start : number (init cfg) = 0)
    (raise : ∀ s e s', Invariant s → Moves s e s' → number s' = number s + [e].count kind)
    (run : Run Step (init cfg) events s) : events.count kind = number s := by
  refine (run.history (fun events s => Invariant s ∧ events.count kind = number s)
    ⟨.init pos, by rw [start]; rfl⟩ ?_).2
  rintro events t e u - ⟨h, count⟩ step
  exact ⟨h.step step.moves, by rw [List.count_append, count, raise t e u h step.moves]⟩

theorem admits_run (pos : 1 ≤ cfg.threadCount) (run : Run Step (init cfg) events s)
    (w : Worker cfg) : events.count (.enter w) = (s.worker w).entered.toNat :=
  count_run pos (.enter w) (fun s => (s.worker w).entered.toNat) rfl
    (fun _ _ _ h m => h.entered_moves m w) run

theorem leaves_run (pos : 1 ≤ cfg.threadCount) (run : Run Step (init cfg) events s)
    (w : Worker cfg) : events.count (.leave w) = (s.worker w).departed.toNat :=
  count_run pos (.leave w) (fun s => (s.worker w).departed.toNat) rfl
    (fun _ _ _ h m => h.departed_moves m w) run

theorem bodies_run (pos : 1 ≤ cfg.threadCount) (run : Run Step (init cfg) events s)
    (w : Worker cfg) : events.count (.body w) = (s.worker w).bodies cfg.iterations :=
  count_run pos (.body w) (fun s => (s.worker w).bodies cfg.iterations) rfl
    (fun _ _ _ h m => h.bodies_moves m w) run

end LastPicked.Scheduler
