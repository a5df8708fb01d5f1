import LastPicked.SchedulerMemory
import LastPicked.SchedulerCursor
import LastPicked.ListSequence
import LastPicked.LockstepRuns

/-! The program in memory runs in lockstep with the system whose queue is a sequence of
workers: every list operation is called as list.c wants it, the walks end, and no counter
leaves the range of `int`. -/

namespace LastPicked.ElementList
open CIntegers LinkedChain

variable {α δ : Type} {s : State α δ} {q : Sequence α} {elts whole rest : List α} {elt a : α}
  {p : Option α}

theorem Linked.size_eq (h : Linked s q) {fuel : Nat} (turns : q.elems.length ≤ fuel)
    (small : (q.elems.length : Int) ≤ intMax) : listSize s fuel = some (q.elems.length : Int) := by
  have counted := sizeLoop_visits 0 h.forward turns (by rwa [Nat.zero_add])
  rwa [Nat.zero_add] at counted

theorem walkElems_visits (all : Visits (fun a => (s.elem a).next) s.list.head whole)
    (visits : Visits (fun a => (s.elem a).next) p rest) (k : Nat) :
    Visits (fun a => (s.elem a).next) (Scheduler.walkElems s k p)
      (Scheduler.walk whole k rest) := by
  induction k generalizing p rest with
  | zero => exact visits
  | succ k ih =>
    cases visits with
    | nil => exact ih all
    | cons behind => exact ih behind

theorem foreachLoop_visits {fuel : Nat} (visits : Visits (fun a => (s.elem a).next) p elts)
    (turns : elts.length ≤ fuel) : Scheduler.foreachLoop s fuel p = some elts := by
  induction visits generalizing fuel with
  | nil => cases fuel <;> rfl
  | cons _ ih =>
    obtain ⟨fuel, rfl⟩ := Nat.exists_eq_succ_of_ne_zero (Nat.ne_of_gt (Nat.zero_lt_of_lt turns))
    rw [Scheduler.foreachLoop, ih (Nat.le_of_succ_le_succ turns), Option.map_some]

variable [DecidableEq α]

@[simp] theorem setPrev_datum : ((setPrev s elt p).elem a).datum = (s.elem a).datum := by
  by_cases same : a = elt
  · subst same
    rw [setPrev_self]
  · rw [setPrev_other p same]

@[simp] theorem setNext_datum : ((setNext s elt p).elem a).datum = (s.elem a).datum := by
  by_cases same : a = elt
  · subst same
    rw [setNext_self]
  · rw [setNext_other p same]

theorem insertTail_datum : ((listInsertTail s elt).elem a).datum = (s.elem a).datum := by
  rw [listInsertTail]
  split <;> simp

theorem removeElem_datum : ((listRemoveElem s elt).elem a).datum = (s.elem a).datum := by
  have front : ((passPrev s elt).elem a).datum = (s.elem a).datum := by
    rw [passPrev]
    split
    case h_1 => exact setNext_datum
    case h_2 => split <;> rfl
  have behind :
      ((passNext (passPrev s elt) elt).elem a).datum = ((passPrev s elt).elem a).datum := by
    rw [passNext]
    split
    case h_1 => exact setPrev_datum
    case h_2 => split <;> rfl
  rw [listRemoveElem, setNext_datum, setPrev_datum, behind, front]

end LastPicked.ElementList

namespace LastPicked.Scheduler
open CIntegers LabelledRuns LockstepRuns Tallies ElementList WorkerPc

namespace WorkerPc

def passed : WorkerPc → Bool
  | decrementRemaining | releaseExit | exited => true
  | _ => false

end WorkerPc

variable {cfg : Config} {s s' : State cfg} {e : Event cfg}

@[simp, grind =] theorem passed_loopOrExit (i : Nat) : (loopOrExit cfg i).passed = false := by
  unfold loopOrExit
  split <;> rfl

/-- Where `current_position` is. The fifo scheduler only ever moves it back. -/
structure Positioned (s : State cfg) : Prop where
  cursor : cfg.policy = .rr → Cursor s
  behind : cfg.policy = .fifo → s.currentPosition + tally passed s.worker = 0

theorem Positioned.init : Positioned (init cfg) where
  cursor _ := .init
  behind _ := by simp [Scheduler.init, tally, passed]

theorem Invariant.behind_step (h : Invariant s) (fifo : cfg.policy = .fifo) (m : Moves s e s')
    (behind : s.currentPosition + tally passed s.worker = 0) :
    s'.currentPosition + tally passed s'.worker = 0 := by
  cases m <;> simp only [State.goto, State.setExec]
  case createWorker i pc => rwa [tally_same passed .waitQueueSem (h.unborn pc) rfl]
  case select found | selectNone found =>
    rw [fifo] at found
    have same := (Prod.mk.inj (Option.some.inj found)).2
    rwa [← same]
  case decrementPosition w pc =>
    have counts := tally_goto passed .decrementRemaining pc
    simp only [passed, Bool.toNat_true, Bool.toNat_false] at counts
    omega
  case waitQueueSem w pc _ => rwa [tally_same passed .insertTail pc rfl]
  case insertTail w pc => rwa [tally_same passed (loopOrExit cfg 0) pc (passed_loopOrExit 0)]
  case waitCpu w i pc _ => rwa [tally_same passed (.work i) pc rfl]
  case work w i pc => rwa [tally_same passed (.releaseCpu i) pc rfl]
  case releaseCpu w i pc =>
    rwa [tally_same passed (loopOrExit cfg (i + 1)) pc (passed_loopOrExit (i + 1))]
  case waitExit w pc _ => rwa [tally_same passed .removeElem pc rfl]
  case removeElem w pc => rwa [tally_same passed .postQueueSem pc rfl]
  case postQueueSem w pc => rwa [tally_same passed .decrementPosition pc rfl]
  case decrementRemaining w pc => rwa [tally_same passed .releaseExit pc rfl]
  case releaseExit w pc => rwa [tally_same passed .exited pc rfl]
  all_goals exact behind

theorem Positioned.step (c : Positioned s) (h : Invariant s) (m : Moves s e s') :
    Positioned s' where
  cursor rr := (c.cursor rr).step h rr m
  behind fifo := h.behind_step fifo m (c.behind fifo)

theorem Invariant.length_le (h : Invariant s) : s.queue.length ≤ cfg.threadCount := by
  simpa using h.distinct.length_le_card

/-- Only the worker whose turn it is has left the list and not moved the cursor. -/
theorem Invariant.lagging_le_one (h : Invariant s) : tally lagging s.worker ≤ 1 := by
  have busy : tally lagging s.worker ≤ tally running s.worker :=
    tally_le s.worker fun _ late => running_of_lagging late
  have token := h.token
  have one : s.sched.token ≤ 1 := by cases s.sched <;> simp [SchedPc.token]
  omega

theorem Positioned.range (c : Positioned s) (h : Invariant s) :
    -(cfg.threadCount : Int) ≤ s.currentPosition ∧ s.currentPosition ≤ cfg.threadCount + 1 := by
  cases policy : cfg.policy with
  | fifo =>
    have behind := c.behind policy
    have all := tally_add_not passed s.worker
    rw [Fintype.card_fin] at all
    omega
  | rr =>
    have low := (c.cursor policy).low
    have high := (c.cursor policy).high
    have length := h.length_le
    have late := h.lagging_le_one
    omega

variable {α : Type} {place : Worker cfg → α} {m m' : Memory cfg α}

def Memory.shared (m : Memory cfg α) (queue : List (Worker cfg)) : State cfg where
  main := m.main
  sched := m.sched
  worker := m.worker
  exec := m.exec
  cpuSem := m.cpuSem
  queueSem := m.queueSem
  queue := queue
  currentPosition := m.currentPosition
  numWorkersRemaining := m.numWorkersRemaining

/-- The memory holds the state: the list is its queue, and the element of a worker
leads back to it. -/
structure Holds (place : Worker cfg → α) (m : Memory cfg α) (s : State cfg) : Prop where
  shared : m.shared s.queue = s
  linked : ∃ initialised, Linked m.q ⟨s.queue.map place, initialised⟩
  element : ∀ w, s.worker w ≠ .unborn →
    m.listElement w = some (place w) ∧ (m.q.elem (place w)).datum = w

theorem Holds.init (elem : α → ListElem α (Worker cfg)) : Holds place (.init cfg elem) (init cfg) :=
  ⟨rfl, ⟨[], .init elem⟩, fun _ born => absurd rfl born⟩

theorem Holds.stays (h : Holds place m s) (shared : m'.shared s'.queue = s')
    (queue : s'.queue = s.queue) (q : m'.q = m.q) (fields : m'.listElement = m.listElement)
    (born : ∀ w, s'.worker w ≠ .unborn → s.worker w ≠ .unborn) : Holds place m' s' := by
  refine ⟨shared, ?_, fun w there => ?_⟩
  · rw [queue, q]
    exact h.linked
  · rw [fields, q]
    exact h.element w (born w there)

theorem Holds.visits (h : Holds place m s) :
    LinkedChain.Visits (fun a => (m.q.elem a).next) m.q.list.head (s.queue.map place) := by
  obtain ⟨initialised, linked⟩ := h.linked
  exact linked.forward

theorem Holds.datum (h : Holds place m s) (inv : Invariant s) {w : Worker cfg}
    (there : w ∈ s.queue) :
    (m.q.elem (place w)).datum = w := by
  refine (h.element w fun unborn => ?_).2
  have queued := (inv.queued w).mp there
  rw [unborn] at queued
  contradiction

theorem Holds.size (h : Holds place m s) (inv : Invariant s)
    (counts : (cfg.threadCount : Int) ≤ intMax) :
    m.size = some (s.queue.length : Int) := by
  obtain ⟨initialised, linked⟩ := h.linked
  have length := inv.length_le
  have counted : listSize m.q cfg.threadCount = some ((s.queue.map place).length : Int) := by
    refine linked.size_eq ?_ ?_ <;> rw [List.length_map]
    · exact length
    · omega
  rwa [List.length_map] at counted

theorem walk_map {β : Type} (f : β → α) (q : List β) (k : Nat) (t : List β) :
    walk (q.map f) k (t.map f) = (walk q k t).map f := by
  induction k generalizing t with
  | zero => rfl
  | succ k ih =>
    cases t with
    | nil => exact ih q
    | cons x t => exact ih t

theorem Holds.fifoNextWorker (h : Holds place m s) (inv : Invariant s) :
    m.fifoNextWorker = Scheduler.fifoNextWorker s.queue m.currentPosition := by
  have visits := h.visits
  have datum {w : Worker cfg} := h.datum inv (w := w)
  rw [Memory.fifoNextWorker, Scheduler.fifoNextWorker, listGetHead]
  generalize s.queue = queue at visits datum
  cases queue with
  | nil =>
    generalize m.q.list.head = head at visits
    cases visits
    rfl
  | cons w queue =>
    generalize m.q.list.head = head at visits
    cases visits
    rw [Option.map_some, datum List.mem_cons_self, List.head?_cons]

theorem Holds.rrNextWorker (h : Holds place m s) (inv : Invariant s)
    (counts : (cfg.threadCount : Int) ≤ intMax) (low : 0 ≤ m.currentPosition)
    (high : m.currentPosition ≤ s.queue.length) :
    m.rrNextWorker = Scheduler.rrNextWorker s.queue m.currentPosition := by
  have length := inv.length_le
  rw [Memory.rrNextWorker, h.size inv counts, Option.bind_some, Scheduler.rrNextWorker]
  by_cases empty : s.queue.length = 0
  · rw [if_pos empty, if_pos (by omega)]
  · rw [if_neg empty, if_neg (by omega)]
    set position : Int :=
      if m.currentPosition = s.queue.length then 0 else m.currentPosition with stored
    have inside : intMin ≤ position + 1 ∧ position + 1 ≤ intMax := by
      have := intMin_nonpos
      split at stored <;> omega
    have walked := walkElems_visits h.visits h.visits position.toNat
    rw [walk_map] at walked
    have suffix := walk_suffix (List.suffix_refl s.queue) position.toNat
    dsimp only [listGetHead]
    generalize walkElems m.q position.toNat m.q.list.head = t, walk s.queue position.toNat s.queue =
      rest at walked suffix
    cases rest with
    | nil =>
      cases walked
      rfl
    | cons w rest =>
      cases walked
      have next : addInt position 1 = some (position + 1) := addInt_eq_some.mpr ⟨rfl, inside⟩
      rw [Option.bind_some, next, Option.map_some, h.datum inv (suffix.mem List.mem_cons_self)]

theorem Holds.nextWorker (h : Holds place m s) (inv : Invariant s) (c : Positioned s)
    (counts : (cfg.threadCount : Int) ≤ intMax) (home : s.sched.token = 0) :
    m.nextWorker = Scheduler.nextWorker cfg.policy s.queue m.currentPosition := by
  have position : m.currentPosition = s.currentPosition := congrArg State.currentPosition h.shared
  rw [Memory.nextWorker]
  cases policy : cfg.policy with
  | fifo => exact h.fifoNextWorker inv
  | rr =>
    obtain ⟨low, high⟩ := (c.cursor policy).bounds inv home
    exact h.rrNextWorker inv counts (by omega) (by omega)

theorem Holds.schedStep (h : Holds place m s) (inv : Invariant s) (c : Positioned s)
    (counts : (cfg.threadCount : Int) ≤ intMax) :
    Agree (Holds place) m.schedStep (Scheduler.schedStep s) := by
  have size := h.size inv counts
  have picks := h.nextWorker inv c counts
  obtain ⟨queue, rfl⟩ : ∃ queue, s = m.shared queue := ⟨_, h.shared.symm⟩
  have born : ∀ w, m.worker w ≠ .unborn → m.worker w ≠ .unborn := fun _ there => there
  cases pc : m.sched with
  | waitForQueue =>
    simp only [Memory.schedStep, Scheduler.schedStep, Memory.shared, pc, size, Option.bind_some,
      Int.natCast_eq_zero]
    split
    case isTrue => exact .none
    case isFalse => exact .some ⟨h.stays rfl rfl rfl rfl born, rfl⟩
  | test =>
    simp only [Memory.schedStep, Scheduler.schedStep, Memory.shared, pc]
    split
    case isTrue => exact .some ⟨h.stays rfl rfl rfl rfl born, rfl⟩
    case isFalse => exact .some ⟨h.stays rfl rfl rfl rfl born, rfl⟩
  | nextWorker =>
    have picked := picks (by simp only [Memory.shared, pc, SchedPc.token])
    simp only [Memory.schedStep, Scheduler.schedStep, pc, picked, Memory.shared]
    generalize Scheduler.nextWorker cfg.policy queue m.currentPosition = next
    rcases next with _ | ⟨_ | info, position⟩
    · exact .none
    · exact .some ⟨h.stays rfl rfl rfl rfl born, rfl⟩
    · exact .some ⟨h.stays rfl rfl rfl rfl born, rfl⟩
  | wakeUpWorker info =>
    simp only [Memory.schedStep, Scheduler.schedStep, Memory.shared, pc]
    exact .some ⟨h.stays rfl rfl rfl rfl born, rfl⟩
  | waitForWorker info =>
    simp only [Memory.schedStep, Scheduler.schedStep, Memory.shared, pc]
    split
    case isTrue => exact .some ⟨h.stays rfl rfl rfl rfl born, rfl⟩
    case isFalse => exact .none
  | done =>
    simp only [Memory.schedStep, Scheduler.schedStep, Memory.shared, pc]
    exact .none

theorem born_update {worker : Worker cfg → WorkerPc} {w : Worker cfg} (pc : WorkerPc)
    (was : worker w ≠ .unborn) :
    ∀ v, Function.update worker w pc v ≠ .unborn → worker v ≠ .unborn := by
  intro v there
  by_cases same : v = w
  · rw [same]
    exact was
  · rwa [Function.update_of_ne same] at there

variable [DecidableEq α] (distinct : Function.Injective place)

theorem Holds.enters (h : Holds place m s) {w : Worker cfg} (absent : place w ∉ s.queue.map place)
    (shared : m'.shared s'.queue = s') (queue : s'.queue = s.queue ++ [w])
    (q : m'.q = listInsertTail m.q (place w)) (fields : m'.listElement = m.listElement)
    (born : ∀ v, s'.worker v ≠ .unborn → s.worker v ≠ .unborn) : Holds place m' s' := by
  obtain ⟨initialised, linked⟩ := h.linked
  refine ⟨shared, ⟨place w :: initialised, ?_⟩, fun v there => ?_⟩
  · rw [queue, q, List.map_append]
    exact linked.insertTail absent
  · obtain ⟨field, datum⟩ := h.element v (born v there)
    rw [fields, q]
    exact ⟨field, insertTail_datum.trans datum⟩

include distinct

theorem Holds.leaves (h : Holds place m s) {w : Worker cfg} (inside : w ∈ s.queue)
    (shared : m'.shared s'.queue = s') (queue : s'.queue = s.queue.erase w)
    (q : m'.q = listRemoveElem m.q (place w)) (fields : m'.listElement = m.listElement)
    (born : ∀ v, s'.worker v ≠ .unborn → s.worker v ≠ .unborn) : Holds place m' s' := by
  obtain ⟨initialised, linked⟩ := h.linked
  refine ⟨shared, ⟨initialised, ?_⟩, fun v there => ?_⟩
  · rw [queue, q, List.map_erase distinct]
    exact (linked.removeElem_present (List.mem_map_of_mem inside)).1
  · obtain ⟨field, datum⟩ := h.element v (born v there)
    rw [fields, q]
    exact ⟨field, removeElem_datum.trans datum⟩

omit [DecidableEq α] in
theorem Invariant.absent (inv : Invariant s) {w : Worker cfg} (out : (s.worker w).queued = false) :
    place w ∉ s.queue.map place := by
  intro there
  have queued := (inv.queued w).mp ((List.mem_map_of_injective distinct).mp there)
  rw [out] at queued
  cases queued

theorem Holds.mainStep (h : Holds place m s) (inv : Invariant s) :
    Agree (Holds place) (m.mainStep place) (Scheduler.mainStep s) := by
  obtain ⟨queue, rfl⟩ : ∃ queue, s = m.shared queue := ⟨_, h.shared.symm⟩
  have born : ∀ w, m.worker w ≠ .unborn → m.worker w ≠ .unborn := fun _ there => there
  cases pc : m.main with
  | setRemaining =>
    simp only [Memory.mainStep, Scheduler.mainStep, Memory.shared, pc]
    exact .some ⟨h.stays rfl rfl rfl rfl born, rfl⟩
  | createWorker i =>
    have unborn : m.worker i = .unborn := inv.unborn pc
    have absent := inv.absent distinct (congrArg WorkerPc.queued unborn)
    obtain ⟨initialised, linked⟩ := h.linked
    simp only [Memory.mainStep, Scheduler.mainStep, Memory.shared, pc]
    refine .some ⟨⟨rfl, ⟨_, linked.elemInit absent i⟩, fun v there => ?_⟩, rfl⟩
    dsimp only [Memory.goto, Memory.setExec]
    by_cases same : v = i
    · subst same
      have new : (listElemInit m.q (some (place v)) v).elem (place v) = ⟨none, none, v⟩ :=
        Function.update_self ..
      rw [new, Function.update_self]
      exact ⟨rfl, rfl⟩
    · have kept : (listElemInit m.q (some (place i)) i).elem (place v) = m.q.elem (place v) :=
        Function.update_of_ne (distinct.ne same) ..
      have born : m.worker v ≠ .unborn := by
        simpa only [State.goto, State.setExec, Function.update_of_ne same] using there
      rw [Function.update_of_ne same, kept]
      exact h.element v born
  | join =>
    simp only [Memory.mainStep, Scheduler.mainStep, Memory.shared, pc]
    split
    case isTrue => exact .some ⟨h.stays rfl rfl rfl rfl born, rfl⟩
    case isFalse => exact .none
  | cleanedUp =>
    simp only [Memory.mainStep, Scheduler.mainStep, Memory.shared, pc]
    exact .none

theorem Holds.workerStep (h : Holds place m s) (inv : Invariant s) (c : Positioned s)
    (counts : (cfg.threadCount : Int) ≤ intMax) (w : Worker cfg) :
    Agree (Holds place) (m.workerStep w) (Scheduler.workerStep s w) := by
  have range := c.range inv
  have remaining := inv.remaining
  have smallest : intMin = -intMax - 1 := rfl
  obtain ⟨queue, rfl⟩ : ∃ queue, s = m.shared queue := ⟨_, h.shared.symm⟩
  by_cases unborn : m.worker w = .unborn
  · simp only [Memory.workerStep, Scheduler.workerStep, Memory.shared, unborn]
    exact .none
  obtain ⟨field, -⟩ := h.element w unborn
  have born (new : WorkerPc) := born_update new unborn
  cases pc : m.worker w with
  | unborn => exact absurd pc unborn
  | waitQueueSem =>
    by_cases room : 0 < m.queueSem
    · simp only [Memory.workerStep, Scheduler.workerStep, Memory.shared, pc, room, ↓reduceIte]
      exact .some ⟨h.stays rfl rfl rfl rfl (born _), rfl⟩
    · simp only [Memory.workerStep, Scheduler.workerStep, Memory.shared, pc, room, ↓reduceIte]
      exact .none
  | waitCpu _ | waitExit =>
    by_cases woken : 0 < m.exec w
    · simp only [Memory.workerStep, Scheduler.workerStep, Memory.shared, pc, woken, ↓reduceIte]
      exact .some ⟨h.stays rfl rfl rfl rfl (born _), rfl⟩
    · simp only [Memory.workerStep, Scheduler.workerStep, Memory.shared, pc, woken, ↓reduceIte]
      exact .none
  | work _ | releaseCpu _ | postQueueSem | releaseExit =>
    simp only [Memory.workerStep, Scheduler.workerStep, Memory.shared, pc]
    exact .some ⟨h.stays rfl rfl rfl rfl (born _), rfl⟩
  | insertTail =>
    have absent := inv.absent distinct (congrArg WorkerPc.queued pc)
    simp only [Memory.workerStep, Scheduler.workerStep, Memory.shared, pc, field, Option.map_some]
    exact .some ⟨h.enters absent rfl rfl rfl rfl (born _), rfl⟩
  | removeElem =>
    have inside : w ∈ queue := (inv.queued w).mpr (congrArg WorkerPc.queued pc)
    simp only [Memory.workerStep, Scheduler.workerStep, Memory.shared, pc, field, Option.map_some]
    exact .some ⟨h.leaves distinct inside rfl rfl rfl rfl (born _), rfl⟩
  | decrementPosition =>
    have fits : addInt m.currentPosition (-1) = some (m.currentPosition - 1) := by
      simp only [Memory.shared] at range
      exact addInt_eq_some.mpr ⟨rfl, by omega, by omega⟩
    simp only [Memory.workerStep, Scheduler.workerStep, Memory.shared, pc, fits, Option.map_some]
    exact .some ⟨h.stays rfl rfl rfl rfl (born _), rfl⟩
  | decrementRemaining =>
    have all := tally_add_not counted m.worker
    have total : m.main.total ≤ cfg.threadCount := by cases m.main <;> simp [MainPc.total]
    rw [Fintype.card_fin] at all
    have fits : addInt m.numWorkersRemaining (-1) = some (m.numWorkersRemaining - 1) := by
      simp only [Memory.shared] at remaining
      exact addInt_eq_some.mpr ⟨rfl, by omega, by omega⟩
    simp only [Memory.workerStep, Scheduler.workerStep, Memory.shared, pc, fits, Option.map_some]
    exact .some ⟨h.stays rfl rfl rfl rfl (born _), rfl⟩
  | exited =>
    simp only [Memory.workerStep, Scheduler.workerStep, Memory.shared, pc]
    exact .none

omit distinct [DecidableEq α]

theorem Holds.cleanUpFrees (h : Holds place m s) (inv : Invariant s) (ended : s.sched = .done) :
    m.cleanUpFrees = some ((List.finRange cfg.threadCount).map place) := by
  have out := inv.finished ended
  have empty : s.queue = [] := List.eq_nil_iff_forall_not_mem.mpr fun w there => by
    have inside := (inv.queued w).mp there
    rw [out w] at inside
    contradiction
  have fields : (List.finRange cfg.threadCount).mapM m.listElement =
      some ((List.finRange cfg.threadCount).map place) := by
    have field : m.listElement = fun w => some (place w) := by
      funext w
      exact (h.element w (by rw [out w]; exact nofun)).1
    rw [field]
    exact List.mapM_pure
  have visits := h.visits
  rw [empty, List.map_nil] at visits
  have none := foreachLoop_visits visits (Nat.zero_le cfg.threadCount)
  rw [Memory.cleanUpFrees, fields, Option.bind_some, listForeach, none, Option.map_some,
    List.append_nil]

variable [DecidableEq α]

end LastPicked.Scheduler
