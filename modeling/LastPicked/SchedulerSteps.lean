import LastPicked.SchedulerModel
import LastPicked.Tallies

/-! What a step of the scheduler system can be, case by case, and the few
classes of program counters that its invariants count. -/

namespace LastPicked.Scheduler
open LabelledRuns

variable {cfg : Config}

namespace WorkerPc

def waiting : WorkerPc → Bool
  | waitCpu _ | waitExit => true
  | _ => false

def running : WorkerPc → Bool
  | work _ | releaseCpu _ | removeElem | postQueueSem | decrementPosition | decrementRemaining
  | releaseExit => true
  | _ => false

def queued : WorkerPc → Bool
  | waitCpu _ | work _ | releaseCpu _ | waitExit | removeElem => true
  | _ => false

def admitted : WorkerPc → Bool
  | insertTail | waitCpu _ | work _ | releaseCpu _ | waitExit | removeElem | postQueueSem => true
  | _ => false

def counted : WorkerPc → Bool
  | releaseExit | exited => true
  | _ => false

def entered : WorkerPc → Bool
  | unborn | waitQueueSem | insertTail => false
  | _ => true

theorem waiting_of_queued {pc : WorkerPc} (queued : pc.queued = true) (idle : pc.running = false) :
    pc.waiting = true := by
  cases pc <;> simp_all [WorkerPc.queued, running, waiting]

theorem queued_of_waiting {pc : WorkerPc} (h : pc.waiting = true) : pc.queued = true := by
  cases pc <;> simp_all [queued, waiting]

theorem entered_of_queued {pc : WorkerPc} (h : pc.queued = true) : pc.entered = true := by
  cases pc <;> simp_all [queued, entered]

end WorkerPc

theorem walk_drop {α : Type} (q : List α) {j k : Nat} (within : j + k ≤ q.length) :
    walk q k (q.drop j) = q.drop (j + k) := by
  induction k generalizing j with
  | zero => rfl
  | succ k ih =>
    rw [List.drop_eq_getElem_cons (by omega), walk, ih (by omega), Nat.add_right_comm j 1 k,
      Nat.add_assoc]

/-- Called with the cursor in the list or at its end, `rr_next_worker` picks
the element at the cursor, or the head when it is at the end. -/
theorem rrNextWorker_eq {α : Type} {q : List α} {c : Nat} (within : c < q.length)
    {currentPosition : Int} (here : currentPosition = c ∨ currentPosition = q.length ∧ c = 0) :
    rrNextWorker q currentPosition = some (some q[c], (c : Int) + 1) := by
  have walked := walk_drop q (j := 0) (k := c) (by omega)
  rw [List.drop_zero, Nat.zero_add, List.drop_eq_getElem_cons within] at walked
  have position : (if currentPosition = q.length then 0 else currentPosition) = (c : Int) := by
    split <;> omega
  rw [rrNextWorker, if_neg (by omega)]
  simp only [position, Int.toNat_natCast, walked]

theorem walk_suffix {α : Type} {q t : List α} (h : t <:+ q) (k : Nat) : walk q k t <:+ q := by
  induction k generalizing t with
  | zero => exact h
  | succ k ih => cases t with
    | nil => exact ih (List.suffix_refl q)
    | cons x t => exact ih ((List.suffix_cons x t).trans h)

theorem nextWorker_mem {α : Type} {policy : Policy} {q : List α} {c c' : Int} {x : α}
    (h : nextWorker policy q c = some (some x, c')) : x ∈ q := by
  cases policy with
  | fifo =>
    simp only [nextWorker, fifoNextWorker, Option.some.injEq, Prod.mk.injEq] at h
    exact List.mem_of_mem_head? h.1
  | rr =>
    simp only [nextWorker, rrNextWorker] at h
    split at h
    · simp at h
    · split at h
      · contradiction
      · rename_i ti rest walked
        simp only [Option.some.injEq, Prod.mk.injEq] at h
        have suffix := walk_suffix (List.suffix_refl q)
          (if c = q.length then 0 else c).toNat
        rw [walked] at suffix
        exact h.1 ▸ suffix.mem (by simp)

inductive Moves : State cfg → Event cfg → State cfg → Prop
  | setRemaining {s : State cfg} : s.main = .setRemaining →
      Moves s .silent { s with numWorkersRemaining := cfg.threadCount, main := createOrJoin cfg 0 }
  | createWorker {s : State cfg} {i : Worker cfg} : s.main = .createWorker i →
      Moves s .silent { (s.setExec i 0).goto i .waitQueueSem with main := createOrJoin cfg (i + 1) }
  | join {s : State cfg} : s.main = .join → s.sched = .done →
      Moves s .silent { s with main := .cleanedUp }
  | waitForQueue {s : State cfg} : s.sched = .waitForQueue → s.queue ≠ [] →
      Moves s .silent { s with sched := .test }
  | goOn {s : State cfg} : s.sched = .test → 0 < s.numWorkersRemaining →
      Moves s .silent { s with sched := .nextWorker }
  | stop {s : State cfg} : s.sched = .test → s.numWorkersRemaining ≤ 0 →
      Moves s .silent { s with sched := .done }
  | select {s : State cfg} {info : Worker cfg} {position : Int} : s.sched = .nextWorker →
      nextWorker cfg.policy s.queue s.currentPosition = some (some info, position) →
      Moves s .silent { s with sched := .wakeUpWorker info, currentPosition := position }
  | selectNone {s : State cfg} {position : Int} : s.sched = .nextWorker →
      nextWorker cfg.policy s.queue s.currentPosition = some (none, position) →
      Moves s .silent { s with sched := .waitForQueue, currentPosition := position }
  | wakeUpWorker {s : State cfg} {info : Worker cfg} : s.sched = .wakeUpWorker info →
      Moves s (.turn info) { s.setExec info (s.exec info + 1) with sched := .waitForWorker info }
  | waitForWorker {s : State cfg} {info : Worker cfg} :
      s.sched = .waitForWorker info → 0 < s.cpuSem →
      Moves s .silent { s with cpuSem := s.cpuSem - 1, sched := .test }
  | waitQueueSem {s : State cfg} {w : Worker cfg} : s.worker w = .waitQueueSem → 0 < s.queueSem →
      Moves s .silent { s.goto w .insertTail with queueSem := s.queueSem - 1 }
  | insertTail {s : State cfg} {w : Worker cfg} : s.worker w = .insertTail →
      Moves s (.enter w) { s.goto w (loopOrExit cfg 0) with queue := s.queue ++ [w] }
  | waitCpu {s : State cfg} {w : Worker cfg} {i : Nat} : s.worker w = .waitCpu i → 0 < s.exec w →
      Moves s .silent ((s.setExec w (s.exec w - 1)).goto w (.work i))
  | work {s : State cfg} {w : Worker cfg} {i : Nat} : s.worker w = .work i →
      Moves s (.body w) (s.goto w (.releaseCpu i))
  | releaseCpu {s : State cfg} {w : Worker cfg} {i : Nat} : s.worker w = .releaseCpu i →
      Moves s .silent { s.goto w (loopOrExit cfg (i + 1)) with cpuSem := s.cpuSem + 1 }
  | waitExit {s : State cfg} {w : Worker cfg} : s.worker w = .waitExit → 0 < s.exec w →
      Moves s .silent ((s.setExec w (s.exec w - 1)).goto w .removeElem)
  | removeElem {s : State cfg} {w : Worker cfg} : s.worker w = .removeElem →
      Moves s (.leave w) { s.goto w .postQueueSem with queue := s.queue.erase w }
  | postQueueSem {s : State cfg} {w : Worker cfg} : s.worker w = .postQueueSem →
      Moves s .silent { s.goto w .decrementPosition with queueSem := s.queueSem + 1 }
  | decrementPosition {s : State cfg} {w : Worker cfg} : s.worker w = .decrementPosition →
      Moves s .silent { s.goto w .decrementRemaining with currentPosition := s.currentPosition - 1 }
  | decrementRemaining {s : State cfg} {w : Worker cfg} : s.worker w = .decrementRemaining →
      Moves s .silent
        { s.goto w .releaseExit with numWorkersRemaining := s.numWorkersRemaining - 1 }
  | releaseExit {s : State cfg} {w : Worker cfg} : s.worker w = .releaseExit →
      Moves s .silent { s.goto w .exited with cpuSem := s.cpuSem + 1 }

theorem mainStep_moves {s s' : State cfg} {e : Event cfg} (h : mainStep s = some (s', e)) :
    Moves s e s' := by
  unfold mainStep at h
  split at h
  case h_1 pc => cases h; exact .setRemaining pc
  case h_2 i pc => cases h; exact .createWorker pc
  case h_3 pc =>
    split at h
    case isTrue ended => cases h; exact .join pc ended
    case isFalse => cases h
  case h_4 => cases h

theorem schedStep_moves {s s' : State cfg} {e : Event cfg} (h : schedStep s = some (s', e)) :
    Moves s e s' := by
  unfold schedStep at h
  split at h
  case h_1 pc =>
    split at h
    case isTrue => cases h
    case isFalse some => cases h; exact .waitForQueue pc (List.length_eq_zero_iff.not.mp some)
  case h_2 pc =>
    split at h
    case isTrue more => cases h; exact .goOn pc more
    case isFalse none => cases h; exact .stop pc (Int.not_lt.mp none)
  case h_3 pc =>
    split at h
    case h_1 => cases h
    case h_2 found => cases h; exact .select pc found
    case h_3 found => cases h; exact .selectNone pc found
  case h_4 pc => cases h; exact .wakeUpWorker pc
  case h_5 pc =>
    split at h
    case isTrue posted => cases h; exact .waitForWorker pc posted
    case isFalse => cases h
  case h_6 => cases h

theorem workerStep_moves {s s' : State cfg} {e : Event cfg} {w : Worker cfg}
    (h : workerStep s w = some (s', e)) : Moves s e s' := by
  unfold workerStep at h
  split at h
  case h_1 => cases h
  case h_2 pc =>
    split at h
    case isTrue room => cases h; exact .waitQueueSem pc room
    case isFalse => cases h
  case h_3 pc => cases h; exact .insertTail pc
  case h_4 pc =>
    split at h
    case isTrue woken => cases h; exact .waitCpu pc woken
    case isFalse => cases h
  case h_5 pc => cases h; exact .work pc
  case h_6 pc => cases h; exact .releaseCpu pc
  case h_7 pc =>
    split at h
    case isTrue woken => cases h; exact .waitExit pc woken
    case isFalse => cases h
  case h_8 pc => cases h; exact .removeElem pc
  case h_9 pc => cases h; exact .postQueueSem pc
  case h_10 pc => cases h; exact .decrementPosition pc
  case h_11 pc => cases h; exact .decrementRemaining pc
  case h_12 pc => cases h; exact .releaseExit pc
  case h_13 => cases h

theorem Step.moves {s s' : State cfg} {e : Event cfg} (h : Step s e s') : Moves s e s' := by
  obtain ⟨t, h⟩ := h
  cases t with
  | main => exact mainStep_moves h
  | sched => exact schedStep_moves h
  | worker w => exact workerStep_moves h

theorem execute_run {s s' : State cfg} {ts : List (Thread cfg)} {events : List (Event cfg)}
    (h : execute s ts = some (events, s')) : Run Step s events s' := by
  induction ts generalizing s events with
  | nil =>
    simp only [execute, Option.some.injEq, Prod.mk.injEq] at h
    obtain ⟨rfl, rfl⟩ := h
    exact .nil
  | cons t ts ih =>
    simp only [execute, Option.bind_eq_bind, Option.bind_eq_some_iff] at h
    obtain ⟨⟨u, e⟩, first, ⟨later, u'⟩, rest, same⟩ := h
    simp only [Option.some.injEq, Prod.mk.injEq] at same
    obtain ⟨rfl, rfl⟩ := same
    exact .cons ⟨t, first⟩ (ih rest)

abbrev pair (policy : Policy) : Config := ⟨2, 2, 1, policy⟩

variable {policy : Policy}

def pairStart : List (Thread (pair policy)) :=
  [.main, .main, .main, .worker 0, .worker 0, .worker 1, .worker 1, .sched, .sched, .sched,
    .sched, .worker 0]

def bodyTurn (w : Worker (pair policy)) : List (Thread (pair policy)) :=
  [.worker w, .worker w, .sched, .sched]

def exitTurn (w : Worker (pair policy)) : List (Thread (pair policy)) :=
  [.worker w, .worker w, .worker w, .worker w, .worker w, .worker w, .sched, .sched]

def pairThreads : (policy : Policy) → List (Thread (pair policy))
  | .fifo =>
      pairStart ++ bodyTurn 0 ++ [.sched, .sched] ++ exitTurn 0 ++
        [.sched, .sched, .worker 1] ++ bodyTurn 1 ++ [.sched, .sched] ++ exitTurn 1
  | .rr =>
      pairStart ++ bodyTurn 0 ++ [.sched, .sched, .worker 1] ++ bodyTurn 1 ++
        [.sched, .sched] ++ exitTurn 0 ++ [.sched, .sched] ++ exitTurn 1

theorem execute_pairStart (policy : Policy) :
    ∃ events s, execute (init (pair policy)) pairStart = some (events, s) ∧
    s.sched = .waitForWorker 0 ∧ s.worker 0 = .work 0 ∧ s.queue = [0, 1] := by
  cases policy <;> exact ⟨_, _, rfl, rfl, rfl, rfl⟩

theorem execute_pair (policy : Policy) : ∃ events s,
    execute (init (pair policy)) (pairThreads policy) = some (events, s) ∧ s.sched = .done := by
  cases policy <;> exact ⟨_, _, rfl, rfl⟩

end LastPicked.Scheduler
