import LastPicked.SchedulerModel
import LastPicked.ListModel

/-! The program of p4 as it is in memory. The queue is the list of list.c through the
elements that `init_thread_info` allocates, what `next_worker` returns is read from them,
and the counters are `int`s, whose overflow has no result. -/

namespace LastPicked.Scheduler
open CIntegers ElementList

variable {cfg : Config} {α δ : Type}

/-- The loop `t = t ? t->next : head` of `rr_next_worker`. -/
def walkElems (q : ElementList.State α δ) : Nat → Option α → Option α
  | 0, t => t
  | k + 1, none => walkElems q k (listGetHead q)
  | k + 1, some t => walkElems q k (q.elem t).next

/-- The loop of `list_foreach`, in at most `fuel` turns: the elements that `fn` is called with, for
an `fn` that leaves them as they are. -/
def foreachLoop (q : ElementList.State α δ) : Nat → Option α → Option (List α)
  | _, none => some []
  | 0, some _ => none
  | fuel + 1, some elt => (foreachLoop q fuel (q.elem elt).next).map (elt :: ·)

def listForeach (q : ElementList.State α δ) (fuel : Nat) : Option (List α) :=
  foreachLoop q fuel q.list.head

/-- The shared variables and where the threads are. `listElement` is the field of that name
of each `thread_info`, and the datum of an element is the `thread_info` it points to. -/
structure Memory (cfg : Config) (α : Type) where
  main : MainPc cfg
  sched : SchedPc cfg
  worker : Worker cfg → WorkerPc
  exec : Worker cfg → Nat
  cpuSem : Nat
  queueSem : Nat
  q : ElementList.State α (Worker cfg)
  listElement : Worker cfg → Option α
  currentPosition : Int
  numWorkersRemaining : Int

namespace Memory

def init (cfg : Config) (elem : α → ListElem α (Worker cfg)) : Memory cfg α where
  main := .setRemaining
  sched := .waitForQueue
  worker _ := .unborn
  exec _ := 0
  cpuSem := 0
  queueSem := cfg.queueSize
  q := ⟨⟨none, none⟩, elem⟩
  listElement _ := none
  currentPosition := 0
  numWorkersRemaining := 0

def goto (m : Memory cfg α) (w : Worker cfg) (pc : WorkerPc) : Memory cfg α :=
  { m with worker := Function.update m.worker w pc }

def setExec (m : Memory cfg α) (w : Worker cfg) (value : Nat) : Memory cfg α :=
  { m with exec := Function.update m.exec w value }

def size (m : Memory cfg α) : Option Int := listSize m.q cfg.threadCount

def fifoNextWorker (m : Memory cfg α) : Option (Option (Worker cfg) × Int) :=
  some ((listGetHead m.q).map fun t => (m.q.elem t).datum, m.currentPosition)

/-- No result is an overflow, a walk that does not end or the dereference of a NULL element. -/
def rrNextWorker (m : Memory cfg α) : Option (Option (Worker cfg) × Int) :=
  m.size.bind fun numInQueue =>
    if numInQueue = 0 then some (none, m.currentPosition)
    else
      let position := if m.currentPosition = numInQueue then 0 else m.currentPosition
      (walkElems m.q position.toNat (listGetHead m.q)).bind fun t =>
        (addInt position 1).map fun next => (some (m.q.elem t).datum, next)

def nextWorker (m : Memory cfg α) : Option (Option (Worker cfg) × Int) :=
  match cfg.policy with
  | .fifo => m.fifoNextWorker
  | .rr => m.rrNextWorker

def schedStep (m : Memory cfg α) : Option (Memory cfg α × Event cfg) :=
  match m.sched with
  | .waitForQueue =>
      m.size.bind fun numInQueue =>
        if numInQueue = 0 then none else some ({ m with sched := .test }, .silent)
  | .test =>
      if 0 < m.numWorkersRemaining then some ({ m with sched := .nextWorker }, .silent)
      else some ({ m with sched := .done }, .silent)
  | .nextWorker =>
      match m.nextWorker with
      | none => none
      | some (some info, position) =>
          some ({ m with sched := .wakeUpWorker info, currentPosition := position }, .silent)
      | some (none, position) =>
          some ({ m with sched := .waitForQueue, currentPosition := position }, .silent)
  | .wakeUpWorker info =>
      some ({ m.setExec info (m.exec info + 1) with sched := .waitForWorker info }, .turn info)
  | .waitForWorker _ =>
      if 0 < m.cpuSem then some ({ m with cpuSem := m.cpuSem - 1, sched := .test }, .silent)
      else none
  | .done => none

variable [DecidableEq α] (place : Worker cfg → α)

def mainStep (m : Memory cfg α) : Option (Memory cfg α × Event cfg) :=
  match m.main with
  | .setRemaining =>
      some ({ m with numWorkersRemaining := cfg.threadCount, main := createOrJoin cfg 0 }, .silent)
  | .createWorker i =>
      let m := { m with
        q := listElemInit m.q (some (place i)) i
        listElement := Function.update m.listElement i (some (place i)) }
      some ({ (m.setExec i 0).goto i .waitQueueSem with main := createOrJoin cfg (i + 1) }, .silent)
  | .join => if m.sched = .done then some ({ m with main := .cleanedUp }, .silent) else none
  | .cleanedUp => none

def workerStep (m : Memory cfg α) (w : Worker cfg) : Option (Memory cfg α × Event cfg) :=
  match m.worker w with
  | .unborn => none
  | .waitQueueSem =>
      if 0 < m.queueSem then
        some ({ m.goto w .insertTail with queueSem := m.queueSem - 1 }, .silent)
      else none
  | .insertTail => (m.listElement w).map fun elt =>
      ({ m.goto w (loopOrExit cfg 0) with q := listInsertTail m.q elt }, .enter w)
  | .waitCpu i =>
      if 0 < m.exec w then some ((m.setExec w (m.exec w - 1)).goto w (.work i), .silent) else none
  | .work i => some (m.goto w (.releaseCpu i), .body w)
  | .releaseCpu i =>
      some ({ m.goto w (loopOrExit cfg (i + 1)) with cpuSem := m.cpuSem + 1 }, .silent)
  | .waitExit =>
      if 0 < m.exec w then some ((m.setExec w (m.exec w - 1)).goto w .removeElem, .silent) else none
  | .removeElem => (m.listElement w).map fun elt =>
      ({ m.goto w .postQueueSem with q := listRemoveElem m.q elt }, .leave w)
  | .postQueueSem => some ({ m.goto w .decrementPosition with queueSem := m.queueSem + 1 }, .silent)
  | .decrementPosition => (addInt m.currentPosition (-1)).map fun position =>
      ({ m.goto w .decrementRemaining with currentPosition := position }, .silent)
  | .decrementRemaining => (addInt m.numWorkersRemaining (-1)).map fun remaining =>
      ({ m.goto w .releaseExit with numWorkersRemaining := remaining }, .silent)
  | .releaseExit => some ({ m.goto w .exited with cpuSem := m.cpuSem + 1 }, .silent)
  | .exited => none

def step (m : Memory cfg α) : Thread cfg → Option (Memory cfg α × Event cfg)
  | .main => m.mainStep place
  | .sched => m.schedStep
  | .worker w => m.workerStep w

/-- What `clean_up` frees: the element of each `thread_info`, then what `list_foreach` finds. -/
def cleanUpFrees (m : Memory cfg α) : Option (List α) :=
  ((List.finRange cfg.threadCount).mapM m.listElement).bind fun elements =>
    (listForeach m.q cfg.threadCount).map (elements ++ ·)

end Memory

end LastPicked.Scheduler
