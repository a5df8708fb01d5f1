import Mathlib.Data.List.Basic

/-! Child processes as `fork`, `wait` and `waitpid` show them. The history of what a program did and
what these calls returned, oldest first, says which of its children no call has returned yet. The
answers of the operating system may depend on the whole history. -/

namespace LastPicked.ChildProcesses

universe u v

abbrev Pid := Nat

/-- A `none` is the -1 of a call that failed. -/
inductive Event (ι : Type u) (κ : Type v)
  | fork (pid : Option Pid) (job : ι)
  | wait (pid : Option Pid)
  | other (act : κ)
  deriving DecidableEq

variable {ι : Type u} {κ : Type v} {events : List (Event ι κ)}
  {P : List (Pid × ι) → Event ι κ → Prop}

def Event.after (children : List (Pid × ι)) : Event ι κ → List (Pid × ι)
  | fork (some pid) job => (pid, job) :: children
  | wait (some pid) => children.eraseP (·.1 = pid)
  | fork none _ | wait none | other _ => children

def children (events : List (Event ι κ)) : List (Pid × ι) := events.foldl Event.after []

@[simp] theorem children_nil : children ([] : List (Event ι κ)) = [] := rfl

@[simp] theorem children_snoc (e : Event ι κ) :
    children (events ++ [e]) = e.after (children events) :=
  List.foldl_append ..

/-- A new child has a pid that no other child has. `wait` returns one of the children, and fails
without any. -/
structure System (ι : Type u) (κ : Type v) where
  fork : List (Event ι κ) → Option Pid
  wait : List (Event ι κ) → Option Pid
  fresh : ∀ events pid, fork events = some pid → ∀ child ∈ children events, child.1 ≠ pid
  ended : ∀ events pid, wait events = some pid → ∃ child ∈ children events, child.1 = pid
  childless : ∀ events, wait events = none → children events = []

namespace System

variable (os : System ι κ)

def waits (events : List (Event ι κ)) : List (Event ι κ) := events ++ [.wait (os.wait events)]

/-- `waitpid`, which waits for any child when it is called with -1. -/
def waitpid (events : List (Event ι κ)) : Option Pid → List (Event ι κ)
  | none => os.waits events
  | some pid =>
      events ++ [.wait (if ∃ child ∈ children events, child.1 = pid then some pid else none)]

def waitLoop : Nat → List (Event ι κ) → List (Event ι κ)
  | 0, events => events
  | i + 1, events => waitLoop i (os.waits events)

end System

def Throughout (P : List (Pid × ι) → Event ι κ → Prop) (events : List (Event ι κ)) : Prop :=
  ∀ n e, events[n]? = some e → P (children (events.take n)) e

theorem Throughout.nil : Throughout P [] := nofun

theorem Throughout.snoc (h : Throughout P events) {e : Event ι κ} (here : P (children events) e) :
    Throughout P (events ++ [e]) := by
  intro n d there
  rcases Nat.lt_trichotomy n events.length with before | rfl | behind
  · rw [List.getElem?_append_left before] at there
    rw [List.take_append_of_le_length (Nat.le_of_lt before)]
    exact h n d there
  · rw [List.getElem?_concat_length] at there
    obtain rfl := Option.some.inj there
    rwa [List.take_left]
  · rw [List.getElem?_eq_none (by rw [List.length_append, List.length_singleton]; omega)] at there
    cases there

theorem children_wait_sublist (events : List (Event ι κ)) (pid : Option Pid) :
    (children (events ++ [.wait pid])).Sublist (children events) := by
  rw [children_snoc]
  cases pid with
  | none => exact .refl _
  | some pid => exact List.eraseP_sublist

variable {os : System ι κ}

theorem children_waits_length :
    (children (os.waits events)).length = (children events).length - 1 := by
  rw [System.waits, children_snoc]
  cases answer : os.wait events with
  | none =>
    rw [Event.after, os.childless events answer]
    rfl
  | some pid =>
    obtain ⟨child, there, same⟩ := os.ended events pid answer
    exact List.length_eraseP_of_mem there (by simpa using same)

theorem children_waitLoop {i : Nat} (few : (children events).length ≤ i) :
    children (os.waitLoop i events) = [] := by
  induction i generalizing events with
  | zero => exact List.eq_nil_of_length_eq_zero (Nat.le_zero.mp few)
  | succ i ih => exact ih (by rw [children_waits_length]; omega)

theorem children_foreground (os : System ι κ) (events : List (Event ι κ)) (pid : Pid) (job : ι) :
    children (os.waitpid (events ++ [.fork (some pid) job]) (some pid)) = children events := by
  have there : ∃ child ∈ children (events ++ [.fork (some pid) job]), child.1 = pid := by
    rw [children_snoc]
    exact ⟨(pid, job), List.mem_cons_self, rfl⟩
  rw [System.waitpid, if_pos there, children_snoc, children_snoc]
  exact List.eraseP_cons_of_pos (p := fun child : Pid × ι => child.1 = pid) (decide_eq_true rfl)

theorem Throughout.waits (h : Throughout P events) (free : ∀ children pid, P children (.wait pid)) :
    Throughout P (os.waits events) :=
  h.snoc (free _ _)

theorem Throughout.waitpid (h : Throughout P events) (free : ∀ children pid, P children (.wait pid))
    (pid : Option Pid) :
    Throughout P (os.waitpid events pid) := by
  cases pid with
  | none => exact h.waits free
  | some pid => exact h.snoc (free _ _)

theorem Throughout.waitLoop (h : Throughout P events)
    (free : ∀ children pid, P children (.wait pid)) (i : Nat) :
    Throughout P (os.waitLoop i events) := by
  induction i generalizing events with
  | zero => exact h
  | succ i ih => exact ih (h.waits free)

def acts (events : List (Event ι κ)) : List (κ ⊕ ι) := events.filterMap fun
  | .fork _ job => some (.inr job)
  | .other act => some (.inl act)
  | .wait _ => none

@[simp] theorem acts_nil : acts ([] : List (Event ι κ)) = [] := rfl

@[simp] theorem acts_fork (pid : Option Pid) (job : ι) :
    acts (events ++ [.fork pid job]) = acts events ++ [.inr job] :=
  List.filterMap_append

@[simp] theorem acts_other (act : κ) : acts (events ++ [.other act]) = acts events ++ [.inl act] :=
  List.filterMap_append

@[simp] theorem acts_wait (pid : Option Pid) : acts (events ++ [.wait pid]) = acts events := by
  rw [acts, List.filterMap_append]
  exact List.append_nil _

theorem acts_waitpid (pid : Option Pid) : acts (os.waitpid events pid) = acts events := by
  cases pid <;> exact acts_wait _

theorem acts_waitLoop (i : Nat) : acts (os.waitLoop i events) = acts events := by
  induction i generalizing events with
  | zero => rfl
  | succ i ih => exact ih.trans (acts_wait _)

end LastPicked.ChildProcesses
