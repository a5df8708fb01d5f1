import LastPicked.LabelledRuns
import Mathlib.Logic.Function.Basic

/-! The scheduler of p4: the worker threads, the scheduler thread and the main
thread as programs over shared semaphores, one list and two counters. Each
`sem_wait`, `sem_post`, list operation, counter update and `next_worker` call
is one step; a thread that must block has none. -/

namespace LastPicked.Scheduler
open LabelledRuns

inductive Policy
  | fifo | rr
  deriving DecidableEq

structure Config where
  threadCount : Nat
  queueSize : Nat
  iterations : Nat
  policy : Policy

abbrev Worker (cfg : Config) := Fin cfg.threadCount

/-- Where a worker is in `worker_proc`, with the operations it calls inlined. -/
inductive WorkerPc
  | unborn
  | waitQueueSem | insertTail
  | waitCpu (i : Nat) | work (i : Nat) | releaseCpu (i : Nat)
  | waitExit
  | removeElem | postQueueSem | decrementPosition
  | decrementRemaining | releaseExit
  | exited
  deriving DecidableEq

/-- Where the scheduler is in `sched_proc`; its `info` is the argument. -/
inductive SchedPc (cfg : Config)
  | waitForQueue | test | nextWorker
  | wakeUpWorker (info : Worker cfg) | waitForWorker (info : Worker cfg)
  | done
  deriving DecidableEq

inductive MainPc (cfg : Config)
  | setRemaining
  | createWorker (i : Worker cfg)
  | join
  | cleanedUp
  deriving DecidableEq

structure State (cfg : Config) where
  main : MainPc cfg
  sched : SchedPc cfg
  worker : Worker cfg → WorkerPc
  exec : Worker cfg → Nat
  cpuSem : Nat
  queueSem : Nat
  queue : List (Worker cfg)
  currentPosition : Int
  numWorkersRemaining : Int

inductive Thread (cfg : Config)
  | main | sched | worker (w : Worker cfg)

/-- What a step does that the properties speak of. -/
inductive Event (cfg : Config)
  | enter (w : Worker cfg)
  | leave (w : Worker cfg)
  | turn (w : Worker cfg)
  | body (w : Worker cfg)
  | silent
  deriving DecidableEq

variable {cfg : Config}

def init (cfg : Config) : State cfg where
  main := .setRemaining
  sched := .waitForQueue
  worker _ := .unborn
  exec _ := 0
  cpuSem := 0
  queueSem := cfg.queueSize
  queue := []
  currentPosition := 0
  numWorkersRemaining := 0

/-- The walk `t = t ? t->next : head`, with what is left of the list as `t`. -/
def walk {α : Type} (q : List α) : Nat → List α → List α
  | 0, t => t
  | k + 1, [] => walk q k q
  | k + 1, _ :: t => walk q k t

/-- No result is the dereference of a NULL element. -/
def rrNextWorker {α : Type} (q : List α) (currentPosition : Int) : Option (Option α × Int) :=
  if q.length = 0 then some (none, currentPosition)
  else
    let position := if currentPosition = q.length then 0 else currentPosition
    match walk q position.toNat q with
    | [] => none
    | ti :: _ => some (some ti, position + 1)

def fifoNextWorker {α : Type} (q : List α) (currentPosition : Int) : Option (Option α × Int) :=
  some (q.head?, currentPosition)

def nextWorker {α : Type} : Policy → List α → Int → Option (Option α × Int)
  | .fifo => fifoNextWorker
  | .rr => rrNextWorker

def loopOrExit (cfg : Config) (i : Nat) : WorkerPc :=
  if i < cfg.iterations then .waitCpu i else .waitExit

def createOrJoin (cfg : Config) (i : Nat) : MainPc cfg :=
  if h : i < cfg.threadCount then .createWorker ⟨i, h⟩ else .join

namespace State

def goto (s : State cfg) (w : Worker cfg) (pc : WorkerPc) : State cfg :=
  { s with worker := Function.update s.worker w pc }

def setExec (s : State cfg) (w : Worker cfg) (value : Nat) : State cfg :=
  { s with exec := Function.update s.exec w value }

end State

def mainStep (s : State cfg) : Option (State cfg × Event cfg) :=
  match s.main with
  | .setRemaining =>
      some ({ s with numWorkersRemaining := cfg.threadCount, main := createOrJoin cfg 0 }, .silent)
  | .createWorker i =>
      some ({ (s.setExec i 0).goto i .waitQueueSem with main := createOrJoin cfg (i + 1) }, .silent)
  | .join => if s.sched = .done then some ({ s with main := .cleanedUp }, .silent) else none
  | .cleanedUp => none

def schedStep (s : State cfg) : Option (State cfg × Event cfg) :=
  match s.sched with
  | .waitForQueue => if s.queue.length = 0 then none else some ({ s with sched := .test }, .silent)
  | .test =>
      if 0 < s.numWorkersRemaining then some ({ s with sched := .nextWorker }, .silent)
      else some ({ s with sched := .done }, .silent)
  | .nextWorker =>
      match nextWorker cfg.policy s.queue s.currentPosition with
      | none => none
      | some (some info, position) =>
          some ({ s with sched := .wakeUpWorker info, currentPosition := position }, .silent)
      | some (none, position) =>
          some ({ s with sched := .waitForQueue, currentPosition := position }, .silent)
  | .wakeUpWorker info =>
      some ({ s.setExec info (s.exec info + 1) with sched := .waitForWorker info }, .turn info)
  | .waitForWorker _ =>
      if 0 < s.cpuSem then some ({ s with cpuSem := s.cpuSem - 1, sched := .test }, .silent)
      else none
  | .done => none

def workerStep (s : State cfg) (w : Worker cfg) : Option (State cfg × Event cfg) :=
  match s.worker w with
  | .unborn => none
  | .waitQueueSem =>
      if 0 < s.queueSem then
        some ({ s.goto w .insertTail with queueSem := s.queueSem - 1 }, .silent)
      else none
  | .insertTail => some ({ s.goto w (loopOrExit cfg 0) with queue := s.queue ++ [w] }, .enter w)
  | .waitCpu i =>
      if 0 < s.exec w then some ((s.setExec w (s.exec w - 1)).goto w (.work i), .silent) else none
  | .work i => some (s.goto w (.releaseCpu i), .body w)
  | .releaseCpu i =>
      some ({ s.goto w (loopOrExit cfg (i + 1)) with cpuSem := s.cpuSem + 1 }, .silent)
  | .waitExit =>
      if 0 < s.exec w then some ((s.setExec w (s.exec w - 1)).goto w .removeElem, .silent) else none
  | .removeElem => some ({ s.goto w .postQueueSem with queue := s.queue.erase w }, .leave w)
  | .postQueueSem => some ({ s.goto w .decrementPosition with queueSem := s.queueSem + 1 }, .silent)
  | .decrementPosition =>
      some ({ s.goto w .decrementRemaining with currentPosition := s.currentPosition - 1 }, .silent)
  | .decrementRemaining =>
      some ({ s.goto w .releaseExit with numWorkersRemaining := s.numWorkersRemaining - 1 },
        .silent)
  | .releaseExit => some ({ s.goto w .exited with cpuSem := s.cpuSem + 1 }, .silent)
  | .exited => none

def step (s : State cfg) : Thread cfg → Option (State cfg × Event cfg)
  | .main => mainStep s
  | .sched => schedStep s
  | .worker w => workerStep s w

def Step (s : State cfg) (e : Event cfg) (s' : State cfg) : Prop :=
  ∃ t, step s t = some (s', e)

def execute (s : State cfg) : List (Thread cfg) → Option (List (Event cfg) × State cfg)
  | [] => some ([], s)
  | t :: ts => do
      let (s, e) ← step s t
      let (events, s) ← execute s ts
      some (e :: events, s)

/-- The elements that `clean_up` frees: one for each worker, then what
`list_foreach` still finds in the queue. -/
def cleanUpFrees (s : State cfg) : List (Worker cfg) := List.finRange cfg.threadCount ++ s.queue

end LastPicked.Scheduler
