import LastPicked.LabelledRuns

/-! The shared buffer of p3: an array of ten `int`s in which -1 marks what is
empty, and the critical section of `thread_run` that works on it. -/

namespace LastPicked.SharedBuffer
open LabelledRuns

abbrev Buffer := Vector Int 10

/-- `for (i = 0; i < 10; i++) b[i] = -1;` with `k` turns to go -/
def clearFrom (b : Buffer) : (k i : Nat) → i + k = 10 → Buffer
  | 0, _, _ => b
  | k + 1, i, h => clearFrom (b.set i (-1)) k (i + 1) (by omega)

def initializeBuffer (b : Buffer) : Buffer := clearFrom b 10 0 rfl

/-- `for (; i > 0; i--) b[i] = b[i - 1];` -/
def shiftRight (b : Buffer) : (i : Nat) → i < 10 → Buffer
  | 0, _ => b
  | i + 1, h => shiftRight (b.set (i + 1) b[i]) i (by omega)

/-- `for (; i < 9; i++) b[i] = b[i + 1];` with `k` turns to go -/
def shiftLeft (b : Buffer) : (k i : Nat) → i + k = 9 → Buffer
  | 0, _, _ => b
  | k + 1, i, h => shiftLeft (b.set i b[i + 1]) k (i + 1) (by omega)

/-- `for (; i < n; i++) if (b[i] == -1) break;` with `k` turns to go -/
def firstEmpty (b : Buffer) : (k i : Nat) → i + k ≤ 10 → Nat
  | 0, i, _ => i
  | k + 1, i, h => if b[i] = -1 then i else firstEmpty b k (i + 1) (by omega)

theorem firstEmpty_le (b : Buffer) (k i : Nat) (h : i + k ≤ 10) : firstEmpty b k i h ≤ i + k := by
  induction k generalizing i with
  | zero => simp [firstEmpty]
  | succ k ih =>
    have rest := ih (i + 1) (by omega)
    unfold firstEmpty
    split <;> omega

/-- Whether the overflow warning was printed, and the buffer. -/
def push (b : Buffer) (item : Int) : Bool × Buffer :=
  (b[9] ≠ -1, (shiftRight b 9 (by decide)).set 0 item)

def pop (b : Buffer) : Int × Buffer :=
  (b[0], (shiftLeft b 9 0 rfl).set 9 (-1))

def enqueue (b : Buffer) (item : Int) : Bool × Buffer :=
  let i := firstEmpty b 9 0 (by decide)
  have bound : i < 10 := Nat.lt_succ_of_le (firstEmpty_le b 9 0 (by decide))
  (i = 9 && b[i] ≠ -1, b.set i item)

def dequeue (b : Buffer) : Int × Buffer := pop b

def countItems (b : Buffer) : Nat := firstEmpty b 10 0 (by decide)

inductive BufferType
  | fifo | filo
  deriving DecidableEq

inductive ThreadType
  | producer | consumer
  deriving DecidableEq

structure ThreadInfo where
  num : Nat
  type : ThreadType
  bufferType : BufferType
  deriving DecidableEq

def threads (numProducers numConsumers : Nat) (bufferMode : BufferType) : List ThreadInfo :=
  (List.range numProducers).map (⟨·, .producer, bufferMode⟩) ++
    (List.range numConsumers).map (⟨·, .consumer, bufferMode⟩)

/-- What a thread prints about its turn: "added by", "taken by" or nothing. -/
inductive Outcome
  | added (item : Int)
  | taken (item : Int)
  | nothing
  deriving DecidableEq

structure Event where
  thread : ThreadInfo
  outcome : Outcome
  warned : Bool
  deriving DecidableEq

/-- One turn of `thread_run` between `sem_wait` and `sem_post`; `randInt` is
what `rand` returns if it is called. -/
def threadRun (info : ThreadInfo) (randInt : Int) (b : Buffer) : Event × Buffer :=
  match info.type with
  | .producer =>
      if countItems b ≠ 10 then
        let (warned, b) := match info.bufferType with
          | .fifo => enqueue b randInt
          | .filo => push b randInt
        (⟨info, .added randInt, warned⟩, b)
      else (⟨info, .nothing, false⟩, b)
  | .consumer =>
      if countItems b ≠ 0 then
        let (item, b) := match info.bufferType with
          | .fifo => dequeue b
          | .filo => pop b
        (⟨info, .taken item, false⟩, b)
      else (⟨info, .nothing, false⟩, b)

def Step (infos : List ThreadInfo) (b : Buffer) (e : Event) (b' : Buffer) : Prop :=
  ∃ info ∈ infos, ∃ randInt, 0 ≤ randInt ∧ threadRun info randInt b = (e, b')

end LastPicked.SharedBuffer
