import LastPicked.SchedulerHistory
import LastPicked.SchedulerCursor
import LastPicked.BlockSequences

/-! First in, first out: the head of the queue has every turn until it leaves,
so the turns are those of the admitted workers, one worker after the other. -/

namespace LastPicked.Scheduler
open LabelledRuns BlockSequences WorkerPc

variable {cfg : Config} {s s' : State cfg} {e : Event cfg} {events : List (Event cfg)}

def admits (events : List (Event cfg)) : List (Worker cfg) :=
  events.filterMap fun e => match e with
    | .enter w => some w
    | _ => none

def leaves (events : List (Event cfg)) : List (Worker cfg) :=
  events.filterMap fun e => match e with
    | .leave w => some w
    | _ => none

def turns (events : List (Event cfg)) : List (Worker cfg) :=
  events.filterMap fun e => match e with
    | .turn w => some w
    | _ => none

@[simp] theorem admits_append (as bs : List (Event cfg)) :
    admits (as ++ bs) = admits as ++ admits bs :=
  List.filterMap_append

@[simp] theorem leaves_append (as bs : List (Event cfg)) :
    leaves (as ++ bs) = leaves as ++ leaves bs :=
  List.filterMap_append

@[simp] theorem turns_append (as bs : List (Event cfg)) : turns (as ++ bs) = turns as ++ turns bs :=
  List.filterMap_append

/-- What the queue and the turns are, given the history of a FIFO run. -/
structure FifoHistory (events : List (Event cfg)) (s : State cfg) : Prop where
  admitted : admits events = leaves events ++ s.queue
  granted : turns events =
    blocks (fun _ => cfg.iterations + 1) (leaves events) ++ blocks (turnsOf s) s.queue
  behind : ∀ v ∈ s.queue.tail, turnsOf s v = 0
  head : ∀ info, Current s info → s.queue.head? = some info

namespace FifoHistory

theorem still (f : FifoHistory events s)
    (quiet : ∀ w, e ≠ .enter w ∧ e ≠ .leave w ∧ e ≠ .turn w)
    (same : ∀ v, turnsOf s' v = turnsOf s v + [e].count (.turn v)) (queue : s'.queue = s.queue)
    (head : ∀ info, Current s' info → s.queue.head? = some info) :
    FifoHistory (events ++ [e]) s' := by
  obtain ⟨enter, leave, turn⟩ : admits [e] = [] ∧ leaves [e] = [] ∧ turns [e] = [] := by
    cases e <;> simp_all [admits, leaves, turns]
  have same' : turnsOf s' = turnsOf s := by
    funext v
    rw [same v, List.count_singleton, if_neg (by simpa using (quiet v).2.2), Nat.add_zero]
  refine ⟨?_, ?_, ?_, fun info now => ?_⟩
  · rw [admits_append, leaves_append, enter, leave, queue, List.append_nil, List.append_nil]
    exact f.admitted
  · rw [turns_append, leaves_append, turn, leave, queue, same', List.append_nil, List.append_nil]
    exact f.granted
  · rw [queue, same']
    exact f.behind
  · rw [queue]
    exact head info now

theorem turn (f : FifoHistory events s) (h : Invariant s) {w : Worker cfg}
    (first : s.queue.head? = some w) (queue : s'.queue = s.queue)
    (counts : ∀ v, turnsOf s' v = turnsOf s v + [Event.turn w].count (.turn v))
    (current : ∀ info, Current s' info → info = w) : FifoHistory (events ++ [.turn w]) s' := by
  obtain ⟨admitted, granted, behind, -⟩ := f
  obtain ⟨rest, split⟩ := List.head?_eq_some_iff.mp first
  have distinct := h.distinct
  rw [split] at distinct granted behind
  obtain ⟨away, -⟩ := List.nodup_cons.mp distinct
  have none : ∀ v ∈ rest, turnsOf s v = 0 := behind
  have none' : ∀ v ∈ rest, turnsOf s' v = 0 := fun v hv => by
    have other : w ≠ v := fun same => away (same ▸ hv)
    rw [counts, none v hv, List.count_singleton, if_neg (by simpa using other)]
  refine ⟨?_, ?_, ?_, fun info now => ?_⟩
  · rw [admits_append, leaves_append, admitted, queue]
    simp [admits, leaves]
  · rw [turns_append, leaves_append, granted, queue, split, blocks_cons, blocks_cons,
      blocks_eq_nil none, blocks_eq_nil none', counts w]
    simp [turns, leaves, List.replicate_succ']
  · rw [queue, split]
    exact none'
  · rw [queue, current info now]
    exact first

theorem enter (f : FifoHistory events s) {w : Worker cfg} (queue : s'.queue = s.queue ++ [w])
    (none : turnsOf s w = 0) (counts : ∀ v, turnsOf s' v = turnsOf s v)
    (current : ∀ info, Current s' info → Current s info) :
    FifoHistory (events ++ [.enter w]) s' := by
  obtain ⟨admitted, granted, behind, head⟩ := f
  have same : turnsOf s' = turnsOf s := funext counts
  refine ⟨?_, ?_, fun v hv => ?_, fun info now => ?_⟩
  · rw [admits_append, leaves_append, admitted, queue]
    simp [admits, leaves]
  · rw [turns_append, leaves_append, granted, queue, same]
    simp [turns, leaves, none]
  · rw [counts]
    rw [queue] at hv
    cases split : s.queue with
    | nil => simp [split] at hv
    | cons x rest =>
      rw [split] at behind hv
      simp only [List.cons_append, List.tail_cons, List.mem_append, List.mem_singleton] at hv
      rcases hv with old | rfl
      · exact behind v old
      · exact none
  · rw [queue, List.head?_append, head info (current info now)]
    rfl

theorem leave (f : FifoHistory events s) {w : Worker cfg} {rest : List (Worker cfg)}
    (split : s.queue = w :: rest) (queue : s'.queue = rest)
    (all : turnsOf s w = cfg.iterations + 1) (counts : ∀ v, turnsOf s' v = turnsOf s v)
    (current : ∀ info, ¬ Current s' info) : FifoHistory (events ++ [.leave w]) s' := by
  obtain ⟨admitted, granted, behind, -⟩ := f
  have same : turnsOf s' = turnsOf s := funext counts
  rw [split] at admitted granted behind
  refine ⟨?_, ?_, fun v hv => ?_, fun info now => absurd now (current info)⟩
  · rw [admits_append, leaves_append, admitted, queue]
    simp [admits, leaves]
  · rw [turns_append, leaves_append, granted, queue, same, blocks_append, blocks_cons, all]
    simp [turns, leaves]
  · rw [queue] at hv
    rw [counts]
    exact behind v (List.mem_of_mem_tail hv)

theorem init : FifoHistory [] (init cfg) where
  admitted := rfl
  granted := rfl
  behind := by simp [Scheduler.init]
  head := by simp [Current, Scheduler.init]

theorem stays (f : FifoHistory events s) (h : Invariant s) (m : Moves s e s') {w : Worker cfg}
    {old new : WorkerPc} (pc : s.worker w = old)
    (quiet : ∀ w, e ≠ .enter w ∧ e ≠ .leave w ∧ e ≠ .turn w)
    (worker : s'.worker = Function.update s.worker w new) (inside : new.queued = old.queued)
    (queue : s'.queue = s.queue) (sched : s'.sched = s.sched) : FifoHistory (events ++ [e]) s' := by
  refine f.still quiet (h.turnsOf_moves m) queue fun info now => ?_
  rw [Current, sched, worker, class_same WorkerPc.queued new pc inside] at now
  exact f.head info now

theorem step (f : FifoHistory events s) (h : Invariant s) (fifo : cfg.policy = .fifo)
    (m : Moves s e s') : FifoHistory (events ++ [e]) s' := by
  have counts := h.turnsOf_moves m
  have move := m
  cases m
  case wakeUpWorker info pc =>
    refine f.turn h (f.head info (.inl pc)) rfl counts fun info' now => ?_
    simp only [Current, reduceCtorEq, SchedPc.waitForWorker.injEq, false_or] at now
    exact now.1.symm
  case insertTail w pc =>
    refine f.enter rfl ?_ counts fun info now => h.current_insertTail pc now
    rw [turnsOf, pc, h.exec_eq_zero (by rw [pc]; rfl)]
    rfl
  case removeElem w pc =>
    have sched := h.sched_of_running (show (s.worker w).running = true by rw [pc]; rfl)
    obtain ⟨rest, split⟩ := List.head?_eq_some_iff.mp (f.head w (.inr ⟨sched, by rw [pc]; rfl⟩))
    refine f.leave split (by rw [split, List.erase_cons_head]) ?_ counts fun info now =>
      h.current_removeElem pc now
    rw [turnsOf, pc, h.exec_eq_zero (by rw [pc]; rfl)]
    rfl
  case select info position pc found =>
    rw [fifo] at found
    simp only [nextWorker, fifoNextWorker, Option.some.injEq, Prod.mk.injEq] at found
    refine f.still (by simp) counts rfl fun info' now => ?_
    simp only [Current, SchedPc.wakeUpWorker.injEq, reduceCtorEq, false_and, or_false] at now
    exact now ▸ found.1
  case setRemaining | join => exact f.still (by simp) counts rfl f.head
  case waitForQueue | goOn | stop | selectNone | waitForWorker =>
    exact f.still (by simp) counts rfl fun _ now => by simp [Current] at now
  case createWorker i pc => exact f.stays h move (h.unborn pc) (by simp) rfl rfl rfl rfl
  case waitQueueSem w pc _ => exact f.stays h move pc (by simp) rfl rfl rfl rfl
  case waitCpu w i pc _ => exact f.stays h move pc (by simp) rfl rfl rfl rfl
  case work w i pc => exact f.stays h move pc (by simp) rfl rfl rfl rfl
  case releaseCpu w i pc => exact f.stays h move pc (by simp) rfl (queued_loopOrExit _) rfl rfl
  case waitExit w pc _ => exact f.stays h move pc (by simp) rfl rfl rfl rfl
  case postQueueSem w pc => exact f.stays h move pc (by simp) rfl rfl rfl rfl
  case decrementPosition w pc => exact f.stays h move pc (by simp) rfl rfl rfl rfl
  case decrementRemaining w pc => exact f.stays h move pc (by simp) rfl rfl rfl rfl
  case releaseExit w pc => exact f.stays h move pc (by simp) rfl rfl rfl rfl

theorem run (pos : 1 ≤ cfg.threadCount) (fifo : cfg.policy = .fifo)
    (run : Run Step (Scheduler.init cfg) events s) : Invariant s ∧ FifoHistory events s := by
  refine run.history (fun events s => Invariant s ∧ FifoHistory events s) ⟨.init pos, .init⟩ ?_
  rintro events t e u - ⟨h, f⟩ step
  exact ⟨h.step step.moves, f.step h fifo step.moves⟩

end FifoHistory

theorem Invariant.turnsOf_le (h : Invariant s) (w : Worker cfg) :
    turnsOf s w ≤ cfg.iterations + 1 := by
  have one := h.exec_le_one w
  have none := h.exec_eq_zero (w := w)
  have index := h.index w
  unfold turnsOf
  cases pc : s.worker w <;> simp only [pc, taken, indexed, waiting] at none index ⊢ <;> grind

theorem count_admits (events : List (Event cfg)) (w : Worker cfg) :
    (admits events).count w = events.count (.enter w) := by
  induction events with
  | nil => rfl
  | cons e events ih => cases e <;> simp_all [admits, List.count_cons]

theorem admits_nodup (pos : 1 ≤ cfg.threadCount) (run : Run Step (init cfg) events s) :
    (admits events).Nodup := by
  refine List.nodup_iff_count_le_one.mpr fun w => ?_
  rw [count_admits, admits_run pos run]
  exact Bool.toNat_le _

/-- Under FIFO the turns granted are those of the workers in the order of
their admission, each with all its turns before the next has any. -/
theorem fifo_order (pos : 1 ≤ cfg.threadCount) (fifo : cfg.policy = .fifo)
    (run : Run Step (init cfg) events s) :
    turns events <+: (admits events).flatMap (fun w => List.replicate (cfg.iterations + 1) w) ∧
      (admits events).Nodup ∧ ∀ v w, [w, v, w].Sublist (turns events) → v = w := by
  obtain ⟨h, f⟩ := FifoHistory.run pos fifo run
  have whole : turns events <+: blocks (fun _ => cfg.iterations + 1) (admits events) := by
    rw [f.granted, f.admitted, blocks_append]
    exact (List.prefix_append_right_inj _).mpr (blocks_cut (fun w _ => h.turnsOf_le w) f.behind)
  have distinct := admits_nodup pos run
  exact ⟨whole, distinct, fun v w between => eq_of_between distinct (between.trans whole.sublist)⟩

theorem fifo_order_pair : ∃ events s, Run Step (init (pair .fifo)) events s ∧ s.sched = .done ∧
    turns events <+: (admits events).flatMap (fun w => List.replicate 2 w) ∧
    (admits events).Nodup ∧ ∀ v w, [w, v, w].Sublist (turns events) → v = w := by
  obtain ⟨events, s, run, ended⟩ := execute_pair .fifo
  exact ⟨events, s, execute_run run, ended, fifo_order (by decide) rfl (execute_run run)⟩

end LastPicked.Scheduler
