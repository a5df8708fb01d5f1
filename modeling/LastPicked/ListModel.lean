import LastPicked.CIntegers
import LastPicked.LabelledRuns

/-! The linked list of the scheduler, list.c. A pointer is NULL or the address of an
element, and every address has an element, with anything in it before it is initialised. -/

namespace LastPicked.ElementList
open CIntegers LabelledRuns

variable {α δ : Type}

structure ListElem (α δ : Type) where
  prev : Option α
  next : Option α
  datum : δ

structure ListT (α : Type) where
  head : Option α
  tail : Option α

structure State (α δ : Type) where
  list : ListT α
  elem : α → ListElem α δ

def listInit (lst : Option (ListT α)) : Option (ListT α) := lst.map fun _ => ⟨none, none⟩

/-- The loop of `list_size`, in at most `fuel` turns. -/
def sizeLoop (s : State α δ) : Nat → Option α → Int → Option Int
  | _, none, count => some count
  | 0, some _, _ => none
  | fuel + 1, some elt, count => (addInt count 1).bind (sizeLoop s fuel (s.elem elt).next)

def listSize (s : State α δ) (fuel : Nat) : Option Int := sizeLoop s fuel s.list.head 0

def listGetHead (s : State α δ) : Option α := s.list.head

def listGetTail (s : State α δ) : Option α := s.list.tail

variable [DecidableEq α]

def setPrev (s : State α δ) (elt : α) (p : Option α) : State α δ :=
  { s with elem := Function.update s.elem elt { s.elem elt with prev := p } }

def setNext (s : State α δ) (elt : α) (p : Option α) : State α δ :=
  { s with elem := Function.update s.elem elt { s.elem elt with next := p } }

def listElemInit (s : State α δ) (elt : Option α) (datum : δ) : State α δ :=
  match elt with
  | none => s
  | some elt => { s with elem := Function.update s.elem elt ⟨none, none, datum⟩ }

def listInsertHead (s : State α δ) (elt : α) : State α δ :=
  match s.list.head with
  | none => { setPrev (setNext s elt none) elt none with list := ⟨some elt, some elt⟩ }
  | some head =>
    let s := setNext (setPrev s elt none) elt (some head)
    let s := setPrev s head (some elt)
    { s with list := { s.list with head := some elt } }

def listInsertTail (s : State α δ) (elt : α) : State α δ :=
  match s.list.tail with
  | none => { setPrev (setNext s elt none) elt none with list := ⟨some elt, some elt⟩ }
  | some tail =>
    let s := setPrev s elt (some tail)
    let s := setNext (setNext s tail (some elt)) elt none
    { s with list := { s.list with tail := some elt } }

/-- `if (elt->prev) elt->prev->next = elt->next;`
`else if (lst->head == elt) lst->head = elt->next;` -/
def passPrev (s : State α δ) (elt : α) : State α δ :=
  match (s.elem elt).prev with
  | some prev => setNext s prev (s.elem elt).next
  | none =>
      if s.list.head = some elt then { s with list := { s.list with head := (s.elem elt).next } }
      else s

/-- `if (elt->next) elt->next->prev = elt->prev;`
`else if (lst->tail == elt) lst->tail = elt->prev;` -/
def passNext (s : State α δ) (elt : α) : State α δ :=
  match (s.elem elt).next with
  | some next => setPrev s next (s.elem elt).prev
  | none =>
      if s.list.tail = some elt then { s with list := { s.list with tail := (s.elem elt).prev } }
      else s

def listRemoveElem (s : State α δ) (elt : α) : State α δ :=
  setNext (setPrev (passNext (passPrev s elt) elt) elt none) elt none

inductive Op (α δ : Type) where
  | elemInit (elt : α) (datum : δ)
  | insertHead (elt : α)
  | insertTail (elt : α)
  | removeElem (elt : α)

def Op.elt : Op α δ → α
  | .elemInit elt _ | .insertHead elt | .insertTail elt | .removeElem elt => elt

def perform (s : State α δ) : Op α δ → State α δ
  | .elemInit elt datum => listElemInit s (some elt) datum
  | .insertHead elt => listInsertHead s elt
  | .insertTail elt => listInsertTail s elt
  | .removeElem elt => listRemoveElem s elt

/-- What a list is for: a sequence of elements, next to those that were initialised, in
the list or not. -/
structure Sequence (α : Type) where
  elems : List α
  initialised : List α

/-- An element in the list is not initialised or inserted again, and only an initialised
one is removed. -/
def Sequence.Admits (q : Sequence α) : Op α δ → Prop
  | .elemInit elt _ | .insertHead elt | .insertTail elt => elt ∉ q.elems
  | .removeElem elt => elt ∈ q.initialised

def Sequence.after (q : Sequence α) : Op α δ → Sequence α
  | .elemInit elt _ => ⟨q.elems, elt :: q.initialised⟩
  | .insertHead elt => ⟨elt :: q.elems, elt :: q.initialised⟩
  | .insertTail elt => ⟨q.elems ++ [elt], elt :: q.initialised⟩
  | .removeElem elt => ⟨q.elems.erase elt, q.initialised⟩

def Step (w : State α δ × Sequence α) (op : Op α δ) (w' : State α δ × Sequence α) : Prop :=
  w.2.Admits op ∧ w' = (perform w.1 op, w.2.after op)

/-- A list that `list_init` was called for and the operations on it since then. -/
def Reached (ops : List (Op α δ)) (s : State α δ) (q : Sequence α) : Prop :=
  ∃ (was lst : ListT α) (elem : α → ListElem α δ),
    listInit (some was) = some lst ∧ Run Step (⟨lst, elem⟩, ⟨[], []⟩) ops (s, q)

end LastPicked.ElementList
