import LastPicked.CIntegers
import LastPicked.LabelledRuns
import LastPicked.LinkedChain
import LastPicked.GapTiling

/-! The pool allocator of mymem.c. Bookkeeping nodes live in a heap of their
own, and following a pointer to anything that is not a live node has no
result. What the system `malloc` answers is an argument of each call. The
loops that follow `next` are bounded by the number of live nodes, which every
walk of an intact list stays within. -/

namespace LastPicked.Allocator
open CIntegers LinkedChain GapTiling

abbrev Addr := Nat

inductive Strategies
  | notSet | best | worst | first | next
  deriving DecidableEq

inductive Alloc
  | memFree | memUsed
  deriving DecidableEq

structure MemoryList where
  prev : Option Addr
  next : Option Addr
  size : Nat
  alloc : Alloc
  ptr : Addr

/-- A node the system `malloc` hands out, with the bytes it happens to hold;
`none` is a failed `malloc`. -/
abbrev NewNode := Option (Addr × MemoryList)

structure Mem where
  myStrategy : Strategies
  mySize : Nat
  myMemory : Option Addr
  head : Option Addr
  last : Option Addr
  lastAllocated : Option Addr
  heap : AList (fun _ : Addr => MemoryList)

namespace Mem

def start : Mem := ⟨.notSet, 0, none, none, none, none, ∅⟩

def node (m : Mem) (a : Addr) : Option MemoryList := m.heap.lookup a

def put (m : Mem) (a : Addr) (n : MemoryList) : Mem := { m with heap := m.heap.insert a n }

def drop (m : Mem) (a : Addr) : Mem := { m with heap := m.heap.erase a }

def store (m : Mem) (a : Addr) (f : MemoryList → MemoryList) : Option Mem :=
  (m.node a).map fun n => m.put a (f n)

/-- `free` of a node; freeing what is not live has no result. -/
def free (m : Mem) (a : Addr) : Option Mem := (m.node a).map fun _ => m.drop a

def fuel (m : Mem) : Nat := m.heap.keys.length

def follow (m : Mem) : Nat → Option Addr → Option (List (Addr × MemoryList))
  | _, none => some []
  | 0, some _ => none
  | fuel + 1, some a => do
      let n ← m.node a
      let rest ← m.follow fuel n.next
      some ((a, n) :: rest)

def blockList (m : Mem) : Option (List (Addr × MemoryList)) := m.follow m.fuel m.head

end Mem

def setNextOf (m : Mem) (p n : Option Addr) : Option Mem :=
  match p with
  | none => some { m with head := n }
  | some a => m.store a fun c => { c with next := n }

def setPrevOf (m : Mem) (n p : Option Addr) : Option Mem :=
  match n with
  | none => some { m with last := p }
  | some a => m.store a fun c => { c with prev := p }

def followerOf (m : Mem) (after : Option Addr) : Option (Option Addr) :=
  match after with
  | none => some m.head
  | some b => (m.node b).map MemoryList.next

/-- Only the two links are written here: the caller fills in the rest. -/
def insertIntoList (m : Mem) (new : NewNode) (after : Option Addr) : Option (Option Addr × Mem) :=
  match new with
  | none => some (none, m)
  | some (a, stale) => do
      let following ← followerOf m after
      let m ← setNextOf m after (some a)
      let m ← setPrevOf (m.put a { stale with prev := after, next := following }) following (some a)
      some (some a, m)

def removeFromList (m : Mem) (rem : Addr) : Option Mem := do
  let r ← m.node rem
  let m ← setNextOf m r.prev r.next
  let m ← setPrevOf m r.next r.prev
  m.free rem

/-- `while (cur->next != NULL) { cur = cur->next; free(cur->prev); } free(cur);` -/
def clearFrom : Nat → Addr → Mem → Option Mem
  | 0, _, _ => none
  | fuel + 1, cur, m => do
      let n ← m.node cur
      match n.next with
      | none => m.free cur
      | some a => do
          let following ← m.node a
          match following.prev with
          | none => clearFrom fuel a m
          | some p => do
              let m ← m.free p
              clearFrom fuel a m

def clearList (m : Mem) : Option Mem :=
  match m.head with
  | none => some m
  | some a => do
      let m ← clearFrom m.fuel a m
      some { m with head := none, last := none }

/-- `pool` and `new` are what the two system `malloc` calls return. -/
def initmem (m : Mem) (strategy : Strategies) (sz : Nat) (pool : Option Addr) (new : NewNode) :
    Option Mem := do
  let m ← clearList { m with myStrategy := strategy, mySize := sz }
  match pool with
  | none => some { m with myMemory := none }
  | some base => do
      let (node, m) ← insertIntoList { m with myMemory := some base } new none
      let a ← node
      let m ← m.store a fun n => { n with ptr := base, size := sz, alloc := .memFree }
      some { m with lastAllocated := some base }

/-- `(cur->alloc == MEM_FREE) && (cur->size >= requested)` -/
def suitable (n : MemoryList) (requested : Nat) : Bool :=
  n.alloc = .memFree && requested ≤ n.size

def firstSearch (m : Mem) (requested : Nat) : Nat → Option Addr → Option (Option Addr)
  | _, none => some none
  | 0, some _ => none
  | fuel + 1, some a => do
      let cur ← m.node a
      if suitable cur requested then some (some a) else firstSearch m requested fuel cur.next

/-- `bestSize` and `worstSize` are of type `int`: a size stored in them is
converted, and converted back when it is compared with a `size_t`. -/
def bestSearch (m : Mem) (requested : Nat) :
    Nat → Option Addr → Option Addr → Int → Option (Option Addr)
  | _, none, toUse, _ => some toUse
  | 0, some _, _, _ => none
  | fuel + 1, some a, toUse, bestSize => do
      let cur ← m.node a
      if suitable cur requested && cur.size < toSize bestSize then
        bestSearch m requested fuel cur.next (some a) (toInt cur.size)
      else bestSearch m requested fuel cur.next toUse bestSize

def worstSearch (m : Mem) (requested : Nat) :
    Nat → Option Addr → Option Addr → Int → Option (Option Addr)
  | _, none, toUse, _ => some toUse
  | 0, some _, _, _ => none
  | fuel + 1, some a, toUse, worstSize => do
      let cur ← m.node a
      if suitable cur requested && toSize worstSize < cur.size then
        worstSearch m requested fuel cur.next (some a) (toInt cur.size)
      else worstSearch m requested fuel cur.next toUse worstSize

/-- One turn of the loop moves on first, so the block it starts from is met
last, and is then given up even when it is suitable. -/
def nextSearch (m : Mem) (requested : Nat) : Nat → Option Addr → Option (Option Addr)
  | 0, _ => none
  | fuel + 1, cur => do
      let n ← m.node (← cur)
      let a ← n.next <|> m.head
      let met ← m.node a
      if some a = m.lastAllocated then some none
      else if suitable met requested then some (some a)
      else nextSearch m requested fuel (some a)

/-- The `switch` of `mymalloc`, under its assertion that a strategy is set. -/
def search (m : Mem) (requested : Nat) : Option (Option Addr) :=
  match m.myStrategy with
  | .notSet => none
  | .first => firstSearch m requested m.fuel m.head
  | .best => bestSearch m requested m.fuel m.head none (toInt ((m.mySize + 1) % 2 ^ 64 : Nat))
  | .worst => worstSearch m requested m.fuel m.head none 0
  | .next => nextSearch m requested m.fuel m.lastAllocated

def markUsed (m : Mem) (toUse : Addr) (requested : Nat) : Option (Option Addr × Mem) := do
  let m ← m.store toUse fun n => { n with alloc := .memUsed, size := requested }
  let n ← m.node toUse
  some (some n.ptr, { m with lastAllocated := some toUse })

def useBlock (m : Mem) (requested : Nat) (new : NewNode) :
    Option Addr → Option (Option Addr × Mem)
  | none => some (none, m)
  | some toUse => do
      let n ← m.node toUse
      if requested < n.size then do
        let (leftover, m) ← insertIntoList m new (some toUse)
        match leftover with
        | none => some (none, m)
        | some b => do
            let m ← m.store b fun l =>
              { l with alloc := .memFree, ptr := n.ptr + requested, size := n.size - requested }
            markUsed m toUse requested
      else markUsed m toUse requested

def mymalloc (m : Mem) (requested : Nat) (new : NewNode) : Option (Option Addr × Mem) := do
  let toUse ← search m requested
  useBlock m requested new toUse

/-- Memory in which the pool can be read as a node, too. -/
def Mem.reading (m : Mem) (pool : MemoryList) : Mem :=
  match m.myMemory with
  | none => m
  | some base => if (m.node base).isSome then m else m.put base pool

/-- `initmem` leaves `last_allocated` on the pool, so the search of Next begins
with what the bytes there read as. Where they point to something else than a node
there is no result. -/
def mymallocOver (m : Mem) (pool : MemoryList) (requested : Nat) (new : NewNode) :
    Option (Option Addr × Mem) := do
  let toUse ← search (m.reading pool) requested
  useBlock m requested new toUse

/-- Merge the free block `a` into a free block before it; the node that
stands for the result is returned. -/
def coalescePrev (m : Mem) (a : Addr) : Option (Addr × Mem) := do
  let cur ← m.node a
  match cur.prev with
  | none => some (a, m)
  | some p => do
      let prev ← m.node p
      if prev.alloc = .memFree then do
        let m ← m.store p fun n => { n with size := n.size + cur.size }
        let joined ← m.node p
        let m ← removeFromList m (← joined.next)
        some (p, m)
      else some (a, m)

def coalesceNext (m : Mem) (a : Addr) : Option Mem := do
  let cur ← m.node a
  match cur.next with
  | none => some m
  | some q => do
      let next ← m.node q
      if next.alloc = .memFree then do
        let m ← m.store a fun n => { n with size := n.size + next.size }
        removeFromList m q
      else some m

/-- What `myfree` does with the used node it found. -/
def release (m : Mem) (a : Addr) : Option Mem := do
  let m ← m.store a fun n => { n with alloc := .memFree }
  let (cur, m) ← coalescePrev m a
  let m ← coalesceNext m cur
  some { m with lastAllocated := some cur }

def freeFrom (m : Mem) (block : Addr) : Nat → Option Addr → Option Mem
  | _, none => some m
  | 0, some _ => none
  | fuel + 1, some a => do
      let cur ← m.node a
      if cur.ptr = block then
        if cur.alloc = .memFree then some m else release m a
      else freeFrom m block fuel cur.next

def myfree (m : Mem) (block : Addr) : Option Mem := freeFrom m block m.fuel m.head

def overList {α : Type} (m : Mem) (update : α → MemoryList → α) :
    Nat → Option Addr → α → Option α
  | _, none, count => some count
  | 0, some _, _ => none
  | fuel + 1, some a, count => do
      let cur ← m.node a
      overList m update fuel cur.next (update count cur)

/-- `count += cur->size` on an `int` is done in `size_t` and converted back. -/
def addSize (count : Int) (size : Nat) : Int := toInt ((toSize count + size) % 2 ^ 64 : Nat)

def memAllocated (m : Mem) : Option Int :=
  overList m (fun count n => if n.alloc = .memUsed then addSize count n.size else count)
    m.fuel m.head 0

def memFree (m : Mem) : Option Int :=
  overList m (fun count n => if n.alloc = .memFree then addSize count n.size else count)
    m.fuel m.head 0

def countNodes (m : Mem) (counts : MemoryList → Bool) : Option Int :=
  (overList m (fun count n => if counts n then count.bind fun c => addInt c 1 else count)
    m.fuel m.head (some 0)).join

def memHoles (m : Mem) : Option Int := countNodes m fun n => n.alloc = .memFree

def memLargestFree (m : Mem) : Option Int :=
  overList m (fun max n => if n.alloc = .memFree && toSize max < n.size then toInt n.size else max)
    m.fuel m.head 0

def memSmallFree (m : Mem) (size : Int) : Option Int :=
  countNodes m fun n => n.alloc = .memFree && n.size ≤ toSize size

def memTotal (m : Mem) : Int := toInt m.mySize

def memPool (m : Mem) : Option Addr := m.myMemory

def isAllocFrom (m : Mem) (ptr : Addr) : Nat → Option Addr → Option Alloc
  | _, none => some .memUsed
  | 0, some _ => none
  | fuel + 1, some a => do
      let cur ← m.node a
      if cur.ptr = ptr then some cur.alloc else isAllocFrom m ptr fuel cur.next

/-- An address at which no block starts is answered as if it were allocated. -/
def memIsAlloc (m : Mem) (ptr : Addr) : Option Alloc := isAllocFrom m ptr m.fuel m.head

end LastPicked.Allocator
