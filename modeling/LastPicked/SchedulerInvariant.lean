import LastPicked.SchedulerSteps

/-! The invariant of the scheduler system: where the CPU token and the places
of the queue are, whatever the order of the steps. -/

namespace LastPicked.Scheduler
open LabelledRuns Tallies WorkerPc

variable {cfg : Config} {s s' : State cfg} {e : Event cfg}

/-- The CPU token is out between `wake_up_worker` and the return of `wait_for_worker`. -/
def SchedPc.token : SchedPc cfg → Nat
  | waitForWorker _ => 1
  | _ => 0

def MainPc.created : MainPc cfg → Nat
  | setRemaining => 0
  | createWorker i => i
  | join | cleanedUp => cfg.threadCount

def MainPc.total : MainPc cfg → Nat
  | setRemaining => 0
  | createWorker _ | join | cleanedUp => cfg.threadCount

def WorkerPc.indexed (iterations : Nat) : WorkerPc → Prop
  | waitCpu i | work i | releaseCpu i => i < iterations
  | _ => True

structure Invariant (s : State cfg) : Prop where
  token : tally running s.worker + ∑ w, s.exec w + s.cpuSem = s.sched.token
  woken : ∀ w, 0 < s.exec w → (s.worker w).waiting = true
  holder : ∀ info, s.sched = .waitForWorker info →
    ∀ v, v ≠ info → s.exec v = 0 ∧ (s.worker v).running = false
  chosen : ∀ info, s.sched = .wakeUpWorker info → (s.worker info).waiting = true
  granted : ∀ info, s.sched = .waitForWorker info → (s.worker info).entered = true
  queued : ∀ w, w ∈ s.queue ↔ (s.worker w).queued = true
  distinct : s.queue.Nodup
  slots : s.queueSem + tally admitted s.worker = cfg.queueSize
  born : ∀ w, s.worker w = .unborn ↔ s.main.created ≤ w
  remaining : s.numWorkersRemaining + tally counted s.worker = s.main.total
  opened : s.main = .setRemaining → s.sched = .waitForQueue
  pending : s.sched = .waitForQueue ∨ s.sched = .nextWorker → ∃ w, s.worker w ≠ .exited
  finished : s.sched = .done → ∀ w, s.worker w = .exited
  index : ∀ w, (s.worker w).indexed cfg.iterations

namespace WorkerPc

@[simp, grind =] theorem running_loopOrExit (i : Nat) : (loopOrExit cfg i).running = false := by
  unfold loopOrExit
  split <;> rfl

@[simp, grind =] theorem queued_loopOrExit (i : Nat) : (loopOrExit cfg i).queued = true := by
  unfold loopOrExit
  split <;> rfl

@[simp, grind =] theorem admitted_loopOrExit (i : Nat) : (loopOrExit cfg i).admitted = true := by
  unfold loopOrExit
  split <;> rfl

@[simp, grind =] theorem counted_loopOrExit (i : Nat) : (loopOrExit cfg i).counted = false := by
  unfold loopOrExit
  split <;> rfl

@[simp, grind =] theorem entered_loopOrExit (i : Nat) : (loopOrExit cfg i).entered = true := by
  unfold loopOrExit
  split <;> rfl

@[simp] theorem indexed_loopOrExit (i : Nat) : (loopOrExit cfg i).indexed cfg.iterations := by
  unfold loopOrExit
  split
  · assumption
  · trivial

@[simp] theorem loopOrExit_ne_unborn (i : Nat) : loopOrExit cfg i ≠ .unborn := by
  unfold loopOrExit
  split <;> simp

@[simp] theorem loopOrExit_ne_exited (i : Nat) : loopOrExit cfg i ≠ .exited := by
  unfold loopOrExit
  split <;> simp

end WorkerPc

theorem created_createOrJoin {i : Nat} (le : i ≤ cfg.threadCount) :
    (createOrJoin cfg i).created = i := by
  unfold createOrJoin
  split
  · rfl
  · exact Nat.le_antisymm (Nat.le_of_not_lt ‹_›) le

theorem total_createOrJoin (i : Nat) : (createOrJoin cfg i).total = cfg.threadCount := by
  unfold createOrJoin
  split <;> rfl

theorem createOrJoin_ne_setRemaining (i : Nat) : createOrJoin cfg i ≠ .setRemaining := by
  unfold createOrJoin
  split <;> simp

theorem tally_goto (p : WorkerPc → Bool) {w : Worker cfg} {old : WorkerPc} (new : WorkerPc)
    (pc : s.worker w = old) :
    tally p (Function.update s.worker w new) + (p old).toNat = tally p s.worker + (p new).toNat :=
  pc ▸ tally_update p s.worker w new

theorem tally_same (p : WorkerPc → Bool) {w : Worker cfg} {old : WorkerPc} (new : WorkerPc)
    (pc : s.worker w = old) (same : p new = p old) :
    tally p (Function.update s.worker w new) = tally p s.worker := by
  have t := tally_goto p new pc
  rw [same] at t
  omega

namespace Invariant

theorem exec_le (h : Invariant s) (w : Worker cfg) : s.exec w ≤ s.sched.token := by
  have one := Finset.single_le_sum (fun v _ => Nat.zero_le (s.exec v)) (Finset.mem_univ w)
  have token := h.token
  omega

theorem exec_le_one (h : Invariant s) (w : Worker cfg) : s.exec w ≤ 1 :=
  (h.exec_le w).trans (by cases s.sched <;> simp [SchedPc.token])

theorem exec_eq_zero (h : Invariant s) {w : Worker cfg} (busy : (s.worker w).waiting = false) :
    s.exec w = 0 := by
  by_contra some
  have woken := h.woken w (Nat.pos_of_ne_zero some)
  rw [busy] at woken
  contradiction

theorem idle (h : Invariant s) (home : s.sched.token = 0) (w : Worker cfg) :
    s.exec w = 0 ∧ (s.worker w).running = false ∧ s.cpuSem = 0 := by
  have token := h.token
  rw [home] at token
  exact ⟨by have := h.exec_le w; omega, (tally_eq_zero _ _).mp (by omega) w, by omega⟩

theorem sched_of_running (h : Invariant s) {w : Worker cfg}
    (running : (s.worker w).running = true) : s.sched = .waitForWorker w := by
  cases pc : s.sched with
  | waitForWorker info =>
    by_contra other
    have idle := (h.holder info pc w fun same => other (same ▸ rfl)).2
    rw [running] at idle
    contradiction
  | _ =>
    have idle := (h.idle (by rw [pc]; rfl) w).2.1
    rw [running] at idle
    contradiction

theorem unborn (h : Invariant s) {i : Worker cfg} (pc : s.main = .createWorker i) :
    s.worker i = .unborn :=
  (h.born i).mpr (by simp [pc, MainPc.created])

theorem token_step (h : Invariant s) (m : Moves s e s') :
    tally running s'.worker + ∑ w, s'.exec w + s'.cpuSem = s'.sched.token := by
  have token := h.token
  cases m
  case setRemaining | join => exact token
  case createWorker i pc =>
    have none := h.exec_eq_zero (by rw [h.unborn pc]; rfl)
    have execs := sum_update s.exec i 0
    simp only [State.goto, State.setExec, tally_same running .waitQueueSem (h.unborn pc) rfl]
    omega
  case waitForQueue pc _ | goOn pc _ | stop pc _ | select pc _ | selectNone pc _ =>
    simpa [pc, SchedPc.token] using token
  case wakeUpWorker info pc =>
    have execs := sum_update s.exec info (s.exec info + 1)
    simp only [pc, SchedPc.token, State.setExec] at token ⊢
    omega
  case waitForWorker info pc posted =>
    simp only [pc, SchedPc.token] at token ⊢
    omega
  case waitQueueSem w pc _ =>
    simpa only [State.goto, tally_same running .insertTail pc rfl] using token
  case insertTail w pc =>
    simpa only [State.goto, tally_same running (loopOrExit cfg 0) pc (running_loopOrExit 0)]
      using token
  case waitCpu w i pc woken =>
    have taken := tally_goto running (.work i) pc
    have execs := sum_update s.exec w (s.exec w - 1)
    simp only [running, Bool.toNat_true, Bool.toNat_false] at taken
    simp only [State.goto, State.setExec]
    omega
  case waitExit w pc woken =>
    have taken := tally_goto running .removeElem pc
    have execs := sum_update s.exec w (s.exec w - 1)
    simp only [running, Bool.toNat_true, Bool.toNat_false] at taken
    simp only [State.goto, State.setExec]
    omega
  case releaseCpu w i pc =>
    have given := tally_goto running (loopOrExit cfg (i + 1)) pc
    rw [running_loopOrExit] at given
    simp only [running, Bool.toNat_true, Bool.toNat_false] at given
    simp only [State.goto]
    omega
  case releaseExit w pc =>
    have given := tally_goto running .exited pc
    simp only [running, Bool.toNat_true, Bool.toNat_false] at given
    simp only [State.goto]
    omega
  case work w i pc => simpa only [State.goto, tally_same running (.releaseCpu i) pc rfl] using token
  case removeElem w pc =>
    simpa only [State.goto, tally_same running .postQueueSem pc rfl] using token
  case postQueueSem w pc =>
    simpa only [State.goto, tally_same running .decrementPosition pc rfl] using token
  case decrementPosition w pc =>
    simpa only [State.goto, tally_same running .decrementRemaining pc rfl] using token
  case decrementRemaining w pc =>
    simpa only [State.goto, tally_same running .releaseExit pc rfl] using token

theorem woken_step (h : Invariant s) (m : Moves s e s') :
    ∀ v, 0 < s'.exec v → (s'.worker v).waiting = true := by
  intro v some
  have woken := h.woken v
  have le := h.exec_le_one v
  cases m <;> simp only [State.goto, State.setExec] at some ⊢
  case wakeUpWorker info pc =>
    have chosen := h.chosen info pc
    grind
  all_goals grind [WorkerPc.waiting]

theorem holder_step (h : Invariant s) (m : Moves s e s') : ∀ info, s'.sched = .waitForWorker info →
    ∀ v, v ≠ info → s'.exec v = 0 ∧ (s'.worker v).running = false := by
  intro info out v ne
  have holder := h.holder info
  have none := h.exec_eq_zero (w := v)
  cases m <;> simp only [State.goto, State.setExec] at out ⊢
  case wakeUpWorker info' pc =>
    have idle := h.idle (by rw [pc]; rfl) v
    grind
  all_goals grind [WorkerPc.running]

theorem chosen_step (h : Invariant s) (m : Moves s e s') :
    ∀ info, s'.sched = .wakeUpWorker info → (s'.worker info).waiting = true := by
  intro info out
  have chosen := h.chosen info
  have none := fun home => h.idle home info
  cases m <;> simp only [State.goto, State.setExec] at out ⊢
  case select info' position pc found =>
    have there := (h.queued info').mp (nextWorker_mem found)
    have idle := (h.idle (by rw [pc]; rfl) info').2.1
    have waits := waiting_of_queued there idle
    grind
  case createWorker i pc =>
    have unborn := h.unborn pc
    grind [WorkerPc.waiting]
  all_goals grind [WorkerPc.waiting, WorkerPc.running, SchedPc.token]

theorem granted_step (h : Invariant s) (m : Moves s e s') :
    ∀ info, s'.sched = .waitForWorker info → (s'.worker info).entered = true := by
  intro info out
  have granted := h.granted info
  cases m <;> simp only [State.goto, State.setExec] at out ⊢
  case wakeUpWorker info' pc =>
    have chosen := entered_of_queued (queued_of_waiting (h.chosen info' pc))
    grind
  case createWorker i pc =>
    have unborn := h.unborn pc
    grind [WorkerPc.entered]
  all_goals grind [WorkerPc.entered]

theorem queued_step (h : Invariant s) (m : Moves s e s') :
    ∀ w, w ∈ s'.queue ↔ (s'.worker w).queued = true := by
  intro v
  have queued := h.queued v
  cases m <;> simp only [State.goto, State.setExec]
  case createWorker i pc =>
    have unborn := h.unborn pc
    grind [WorkerPc.queued]
  case removeElem w pc =>
    have distinct := h.distinct
    grind [WorkerPc.queued, List.Nodup.mem_erase_iff]
  all_goals grind [WorkerPc.queued]

theorem distinct_step (h : Invariant s) (m : Moves s e s') : s'.queue.Nodup := by
  have distinct := h.distinct
  cases m <;> simp only [State.goto, State.setExec]
  case insertTail w pc =>
    have notYet : w ∉ s.queue := by simp [h.queued, pc, WorkerPc.queued]
    exact List.nodup_append.mpr ⟨distinct, List.nodup_singleton w, by grind⟩
  case removeElem w pc => exact distinct.erase w
  all_goals exact distinct

theorem slots_step (h : Invariant s) (m : Moves s e s') :
    s'.queueSem + tally admitted s'.worker = cfg.queueSize := by
  have slots := h.slots
  cases m <;> simp only [State.goto, State.setExec]
  case createWorker i pc => rwa [tally_same admitted .waitQueueSem (h.unborn pc) rfl]
  case waitQueueSem w pc room =>
    have taken := tally_goto admitted .insertTail pc
    simp only [admitted, Bool.toNat_true, Bool.toNat_false] at taken
    omega
  case postQueueSem w pc =>
    have given := tally_goto admitted .decrementPosition pc
    simp only [admitted, Bool.toNat_true, Bool.toNat_false] at given
    omega
  all_goals
    -- no other move lets a worker in or out
    refine Eq.trans (congrArg (s.queueSem + ·) (tally_congr fun v => ?_)) slots
    grind [admitted]

theorem born_step (h : Invariant s) (m : Moves s e s') :
    ∀ w, s'.worker w = .unborn ↔ s'.main.created ≤ w := by
  intro v
  have born := h.born v
  cases m <;> simp only [State.goto, State.setExec]
  case setRemaining pc =>
    rw [born, pc, created_createOrJoin (Nat.zero_le _)]
    rfl
  case createWorker i pc =>
    rw [created_createOrJoin i.isLt]
    rw [pc] at born
    simp only [MainPc.created] at born
    by_cases same : v = i
    · simp [same]
    · have differ : (v : Nat) ≠ i := fun eq => same (Fin.ext eq)
      rw [Function.update_of_ne same, born]
      omega
  case join pc _ =>
    rw [born, pc]
    rfl
  all_goals grind [loopOrExit_ne_unborn]

theorem remaining_step (h : Invariant s) (m : Moves s e s') :
    s'.numWorkersRemaining + tally counted s'.worker = s'.main.total := by
  have remaining := h.remaining
  cases m <;> simp only [State.goto, State.setExec]
  case setRemaining pc =>
    have none : tally counted s.worker = 0 := (tally_eq_zero _ _).mpr fun w => by
      rw [(h.born w).mpr (by simp [pc, MainPc.created])]
      rfl
    rw [total_createOrJoin, none, Int.natCast_zero, Int.add_zero]
  case createWorker i pc =>
    rw [total_createOrJoin, tally_same counted .waitQueueSem (h.unborn pc) rfl]
    simpa [pc, MainPc.total] using remaining
  case join pc _ => simpa [pc, MainPc.total] using remaining
  case decrementRemaining w pc =>
    have counts := tally_goto counted .releaseExit pc
    simp only [counted, Bool.toNat_true, Bool.toNat_false] at counts
    omega
  case waitQueueSem w pc _ => rwa [tally_same counted .insertTail pc rfl]
  case insertTail w pc => rwa [tally_same counted (loopOrExit cfg 0) pc (counted_loopOrExit 0)]
  case waitCpu w i pc _ => rwa [tally_same counted (.work i) pc rfl]
  case work w i pc => rwa [tally_same counted (.releaseCpu i) pc rfl]
  case releaseCpu w i pc =>
    rwa [tally_same counted (loopOrExit cfg (i + 1)) pc (counted_loopOrExit (i + 1))]
  case waitExit w pc _ => rwa [tally_same counted .removeElem pc rfl]
  case removeElem w pc => rwa [tally_same counted .postQueueSem pc rfl]
  case postQueueSem w pc => rwa [tally_same counted .decrementPosition pc rfl]
  case decrementPosition w pc => rwa [tally_same counted .decrementRemaining pc rfl]
  case releaseExit w pc => rwa [tally_same counted .exited pc rfl]
  all_goals exact remaining

theorem opened_step (h : Invariant s) (m : Moves s e s') :
    s'.main = .setRemaining → s'.sched = .waitForQueue := by
  have opened := h.opened
  have born := h.born
  have queued := h.queued
  cases m <;> simp only [State.goto, State.setExec]
  case waitForQueue pc some =>
    intro closed
    obtain ⟨w, hw⟩ := List.exists_mem_of_ne_nil _ some
    have there := (queued w).mp hw
    rw [(born w).mpr (by simp [closed, MainPc.created])] at there
    contradiction
  all_goals grind [createOrJoin_ne_setRemaining]

theorem uncounted (h : Invariant s) (more : 0 < s.numWorkersRemaining) :
    ∃ w, (s.worker w).counted = false := by
  by_contra all
  simp only [not_exists, Bool.not_eq_false] at all
  have full := (tally_eq_card counted s.worker).mpr all
  have remaining := h.remaining
  rw [full, Fintype.card_fin] at remaining
  cases pc : s.main <;> simp only [pc, MainPc.total] at remaining <;> omega

theorem pending_step (h : Invariant s) (m : Moves s e s') :
    s'.sched = .waitForQueue ∨ s'.sched = .nextWorker → ∃ w, s'.worker w ≠ .exited := by
  intro waits
  have idle := fun home w => (h.idle home w).2.1
  cases m <;> simp only [State.goto, State.setExec] at waits ⊢
  case goOn pc more =>
    obtain ⟨w, open'⟩ := h.uncounted more
    exact ⟨w, by rintro out; simp [out, counted] at open'⟩
  all_goals
    obtain ⟨v, inside⟩ := h.pending (by grind)
    refine ⟨v, ?_⟩
    grind [WorkerPc.running, SchedPc.token, loopOrExit_ne_exited]

theorem all_exited (h : Invariant s) (home : s.sched = .test) (none : s.numWorkersRemaining ≤ 0)
    (w : Worker cfg) : s.worker w = .exited := by
  have remaining := h.remaining
  have started : s.main.total = cfg.threadCount := by
    have opened := h.opened
    cases pc : s.main <;> simp_all [MainPc.total]
  have some := tally_add_not counted s.worker
  rw [Fintype.card_fin] at some
  have full := (tally_eq_card counted s.worker).mp (by rw [Fintype.card_fin]; omega) w
  have idle := (h.idle (by rw [home]; rfl) w).2.1
  cases pc : s.worker w <;> simp_all [counted, running]

theorem finished_step (h : Invariant s) (m : Moves s e s') :
    s'.sched = .done → ∀ w, s'.worker w = .exited := by
  intro ended v
  have finished := h.finished
  cases m <;> simp only [State.goto, State.setExec] at ended ⊢
  case stop pc none => exact h.all_exited pc none v
  case createWorker i pc =>
    have unborn := h.unborn pc
    rw [finished ended i] at unborn
    contradiction
  all_goals grind

theorem index_step (h : Invariant s) (m : Moves s e s') :
    ∀ w, (s'.worker w).indexed cfg.iterations := by
  intro v
  have index := h.index v
  cases m <;> simp only [State.goto, State.setExec]
  all_goals grind [WorkerPc.indexed, indexed_loopOrExit]

theorem step (h : Invariant s) (m : Moves s e s') : Invariant s' where
  token := h.token_step m
  woken := h.woken_step m
  holder := h.holder_step m
  chosen := h.chosen_step m
  granted := h.granted_step m
  queued := h.queued_step m
  distinct := h.distinct_step m
  slots := h.slots_step m
  born := h.born_step m
  remaining := h.remaining_step m
  opened := h.opened_step m
  pending := h.pending_step m
  finished := h.finished_step m
  index := h.index_step m

theorem init (pos : 1 ≤ cfg.threadCount) : Invariant (init cfg) where
  token := by simp [Scheduler.init, tally, running, SchedPc.token]
  woken := by simp [Scheduler.init]
  holder := by simp [Scheduler.init]
  chosen := by simp [Scheduler.init]
  granted := by simp [Scheduler.init]
  queued := by simp [Scheduler.init, WorkerPc.queued]
  distinct := .nil
  slots := by simp [Scheduler.init, tally, admitted]
  born := by simp [Scheduler.init, MainPc.created]
  remaining := by simp [Scheduler.init, tally, counted, MainPc.total]
  opened := fun _ => rfl
  pending := fun _ => ⟨⟨0, pos⟩, by simp [Scheduler.init]⟩
  finished := by simp [Scheduler.init]
  index := fun _ => trivial

theorem run {events : List (Event cfg)} (pos : 1 ≤ cfg.threadCount)
    (run : Run Step (Scheduler.init cfg) events s) : Invariant s :=
  run.invariant Invariant (init pos) fun _ _ _ h m => h.step m.moves

theorem queue_length (h : Invariant s) : s.queue.length ≤ cfg.queueSize := by
  have places := tally_le s.worker fun pc (q : pc.queued = true) => show pc.admitted = true by
    cases pc <;> simp_all [WorkerPc.queued, admitted]
  have slots := h.slots
  rw [length_eq_tally h.distinct h.queued]
  omega

end Invariant

end LastPicked.Scheduler
