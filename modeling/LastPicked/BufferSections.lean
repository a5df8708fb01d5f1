import LastPicked.BufferRuns
import LastPicked.CMemory
import LastPicked.LockedSections
import LastPicked.LockstepRuns

/-! `thread_run` in small steps: each read and each write of the buffer is a step of its own,
and the other threads may move in between. The mutex makes a turn of it. -/

namespace LastPicked.SharedBuffer
open CMemory LabelledRuns LockedSections LockstepRuns

/-- Where a thread is between `sem_wait` and `sem_post`, in the functions that it calls. -/
inductive SectionPc
  | countItems (i : Nat)
  | nothing
  | enqueueLoop (i : Nat) | enqueueCheck (i : Nat) | enqueueStore (i : Nat)
  | pushCheck | pushLoop (i : Nat) | pushCopy (i : Nat) (x : Int) | pushStore
  | popRead | popLoop (i : Nat) | popCopy (i : Nat) (x : Int) | popClear
  deriving DecidableEq

structure Vars where
  pc : SectionPc
  randInt : Int
  warned : Bool
  deriving DecidableEq

def counted (info : ThreadInfo) (count : Nat) : SectionPc :=
  match info.type, info.bufferType with
  | .producer, .fifo => if count ≠ 10 then .enqueueLoop 0 else .nothing
  | .producer, .filo => if count ≠ 10 then .pushCheck else .nothing
  | .consumer, _ => if count ≠ 0 then .popRead else .nothing

def sectionStep (info : ThreadInfo) (b : Buffer) (v : Vars) : Option (Buffer × (Vars ⊕ Event)) :=
  match v.pc with
  | .countItems i =>
      if i < 10 then (load b i).map fun x =>
        (b, .inl { v with pc := if x = -1 then counted info i else .countItems (i + 1) })
      else some (b, .inl { v with pc := counted info i })
  | .nothing => some (b, .inr ⟨info, .nothing, v.warned⟩)
  | .enqueueLoop i =>
      if i < 9 then (load b i).map fun x =>
        (b, .inl { v with pc := if x = -1 then .enqueueCheck i else .enqueueLoop (i + 1) })
      else some (b, .inl { v with pc := .enqueueCheck i })
  | .enqueueCheck i =>
      if i = 9 then (load b i).map fun x =>
        (b, .inl { v with pc := .enqueueStore i, warned := x ≠ -1 })
      else some (b, .inl { v with pc := .enqueueStore i })
  | .enqueueStore i =>
      (store b i v.randInt).map fun b => (b, .inr ⟨info, .added v.randInt, v.warned⟩)
  | .pushCheck => (load b 9).map fun x => (b, .inl { v with pc := .pushLoop 9, warned := x ≠ -1 })
  | .pushLoop i =>
      if 0 < i then (load b (i - 1 : Int)).map fun x => (b, .inl { v with pc := .pushCopy i x })
      else some (b, .inl { v with pc := .pushStore })
  | .pushCopy i x => (store b i x).map fun b => (b, .inl { v with pc := .pushLoop (i - 1) })
  | .pushStore => (store b 0 v.randInt).map fun b => (b, .inr ⟨info, .added v.randInt, v.warned⟩)
  | .popRead => (load b 0).map fun x => (b, .inl { v with pc := .popLoop 0, randInt := x })
  | .popLoop i =>
      if i < 9 then (load b (i + 1 : Int)).map fun x => (b, .inl { v with pc := .popCopy i x })
      else some (b, .inl { v with pc := .popClear })
  | .popCopy i x => (store b i x).map fun b => (b, .inl { v with pc := .popLoop (i + 1) })
  | .popClear => (store b 9 (-1)).map fun b => (b, .inr ⟨info, .taken v.randInt, v.warned⟩)

abbrev Random := { r : Int // 0 ≤ r }

def sections (infos : List ThreadInfo) : Code (Fin infos.length) Buffer Vars Event Random where
  start _ r := ⟨.countItems 0, r, false⟩
  step i b v := sectionStep (infos.get i) b v

abbrev Walks (info : ThreadInfo) : Buffer × Vars → Buffer × Vars → Prop :=
  Relation.ReflTransGen fun p q => sectionStep info p.1 p.2 = some (q.1, .inl q.2)

variable {info : ThreadInfo} {r : Int} {w : Bool}

/-- A loop over the buffer that stops at the first -1. -/
theorem walks_firstEmpty (b : Buffer) {n : Nat} (fits : n ≤ 10) {loop done : Nat → SectionPc}
    (turn : ∀ i : Nat, sectionStep info b ⟨loop i, r, w⟩ =
      if i < n then (load b i).map fun x =>
        (b, .inl ⟨if x = -1 then done i else loop (i + 1), r, w⟩)
      else some (b, .inl ⟨done i, r, w⟩)) {k i : Nat} (h : i + k = n) :
    Walks info (b, ⟨loop i, r, w⟩) (b, ⟨done (firstEmpty b k i (h.le.trans fits)), r, w⟩) := by
  induction k generalizing i with
  | zero =>
    refine .single ?_
    rw [turn, if_neg (show ¬i < n by omega)]
    rfl
  | succ k ih =>
    have inside : i < n := by omega
    have read := load_of_lt b (inside.trans_le fits)
    have here := turn i
    rw [if_pos inside, read, Option.map_some] at here
    unfold firstEmpty
    by_cases empty : b[i] = -1
    · rw [if_pos empty] at here ⊢
      exact .single here
    · rw [if_neg empty] at here ⊢
      exact .head here (ih (show i + 1 + k = n by omega))

theorem walks_countItems (b : Buffer) :
    Walks info (b, ⟨.countItems 0, r, w⟩) (b, ⟨counted info (countItems b), r, w⟩) :=
  walks_firstEmpty b le_rfl (fun _ => rfl) (Nat.zero_add 10)

theorem walks_enqueueLoop (b : Buffer) :
    Walks info (b, ⟨.enqueueLoop 0, r, w⟩)
      (b, ⟨.enqueueCheck (firstEmpty b 9 0 (by decide)), r, w⟩) :=
  walks_firstEmpty b (by decide) (fun _ => rfl) (Nat.zero_add 9)

theorem walks_pushLoop (b : Buffer) {i : Nat} (h : i < 10) :
    Walks info (b, ⟨.pushLoop i, r, w⟩) (shiftRight b i h, ⟨.pushStore, r, w⟩) := by
  induction i generalizing b with
  | zero => exact .single rfl
  | succ i ih =>
    have read := load_of_lt b (show i < 10 by omega)
    have back : ((i + 1 : Nat) : Int) - 1 = i := by omega
    refine .head (b := (b, ⟨.pushCopy (i + 1) b[i], r, w⟩)) ?_
      (.head ?_ (ih (b.set (i + 1) b[i]) (by omega)))
    · simp only [sectionStep, if_pos (Nat.succ_pos i), back, read, Option.map_some]
    · simp only [sectionStep, store_of_lt b h, Option.map_some, Nat.add_sub_cancel]

theorem walks_popLoop (b : Buffer) {k i : Nat} (h : i + k = 9) :
    Walks info (b, ⟨.popLoop i, r, w⟩) (shiftLeft b k i h, ⟨.popClear, r, w⟩) := by
  induction k generalizing b i with
  | zero =>
    refine .single ?_
    simp only [sectionStep, shiftLeft, if_neg (show ¬i < 9 by omega)]
  | succ k ih =>
    have inside : i < 9 := by omega
    have read := load_of_lt b (show i + 1 < 10 by omega)
    have stored := store_of_lt b (show i < 10 by omega) b[i + 1]
    rw [Nat.cast_add_one] at read
    refine .head (b := (b, ⟨.popCopy i b[i + 1], r, w⟩)) ?_
      (.head ?_ (ih (b.set i b[i + 1]) (by omega)))
    · simp only [sectionStep, if_pos inside, read, Option.map_some]
    · simp only [sectionStep, stored, Option.map_some]

def Ends (info : ThreadInfo) (p : Buffer × Vars) (result : Event × Buffer) : Prop :=
  ∃ q, Walks info p q ∧ sectionStep info q.1 q.2 = some (result.2, .inr result.1)

theorem Ends.after {p q : Buffer × Vars} {result : Event × Buffer} (h : Ends info q result)
    (way : Walks info p q) :
    Ends info p result := by
  obtain ⟨q', rest, last⟩ := h
  exact ⟨q', way.trans rest, last⟩

theorem ends_enqueueCheck (b : Buffer) {i : Nat} (bound : i < 10) :
    Ends info (b, ⟨.enqueueCheck i, r, false⟩)
    (⟨info, .added r, i = 9 && b[i] ≠ -1⟩, b.set i r) := by
  have stored := store_of_lt b bound r
  by_cases full : i = 9
  · have read := load_of_lt b bound
    refine ⟨(b, ⟨.enqueueStore i, r, b[i] ≠ -1⟩), .single ?_, ?_⟩
    · simp only [sectionStep, if_pos full, read, Option.map_some]
    · simp only [sectionStep, stored, Option.map_some, decide_eq_true full, Bool.true_and]
  · refine ⟨(b, ⟨.enqueueStore i, r, false⟩), .single ?_, ?_⟩
    · simp only [sectionStep, if_neg full]
    · simp only [sectionStep, stored, Option.map_some, decide_eq_false full, Bool.false_and]

theorem ends_enqueue (b : Buffer) : Ends info (b, ⟨.enqueueLoop 0, r, false⟩)
    (⟨info, .added r, (enqueue b r).1⟩, (enqueue b r).2) :=
  (ends_enqueueCheck b (Nat.lt_succ_of_le (firstEmpty_le b 9 0 (by decide)))).after
    (walks_enqueueLoop b)

theorem ends_push (b : Buffer) : Ends info (b, ⟨.pushCheck, r, w⟩)
    (⟨info, .added r, (push b r).1⟩, (push b r).2) := by
  have read : load b 9 = some b[9] := load_of_lt b (show 9 < 10 by decide)
  have stored := store_of_lt (shiftRight b 9 (by decide)) (show 0 < 10 by decide) r
  have check :
      sectionStep info b ⟨.pushCheck, r, w⟩ = some (b, .inl ⟨.pushLoop 9, r, b[9] ≠ -1⟩) := by
    simp only [sectionStep, read, Option.map_some]
  refine ⟨_, .head check (walks_pushLoop b (by decide)), ?_⟩
  simp only [sectionStep, push]
  rw [show (0 : Int) = (0 : Nat) from rfl, stored, Option.map_some]

theorem ends_pop (b : Buffer) :
    Ends info (b, ⟨.popRead, r, w⟩) (⟨info, .taken (pop b).1, w⟩, (pop b).2) := by
  have read : load b 0 = some b[0] := load_of_lt b (show 0 < 10 by decide)
  have stored := store_of_lt (shiftLeft b 9 0 rfl) (show 9 < 10 by decide) (-1)
  have first : sectionStep info b ⟨.popRead, r, w⟩ = some (b, .inl ⟨.popLoop 0, b[0], w⟩) := by
    simp only [sectionStep, read, Option.map_some]
  refine ⟨_, .head first (walks_popLoop b (Nat.zero_add 9)), ?_⟩
  simp only [sectionStep, pop]
  rw [show (9 : Int) = (9 : Nat) from rfl, stored, Option.map_some]

/-- A section that nobody disturbs is the turn. -/
theorem ends_threadRun (info : ThreadInfo) (r : Int) (b : Buffer) :
    Ends info (b, ⟨.countItems 0, r, false⟩) (threadRun info r b) := by
  have idle : Ends info (b, ⟨.nothing, r, false⟩) (⟨info, .nothing, false⟩, b) := ⟨_, .refl, rfl⟩
  have rest : Ends info (b, ⟨counted info (countItems b), r, false⟩) (threadRun info r b) := by
    obtain ⟨num, type, bufferType⟩ := info
    unfold threadRun counted
    cases type with
    | producer =>
      by_cases room : countItems b ≠ 10
      · cases bufferType with
        | fifo => simpa only [if_pos room] using ends_enqueue b
        | filo => simpa only [if_pos room] using ends_push b
      · cases bufferType <;> simpa only [if_neg room] using idle
    | consumer =>
      by_cases some : countItems b ≠ 0
      · cases bufferType with
        | fifo => simpa only [if_pos some, dequeue] using ends_pop b
        | filo => simpa only [if_pos some] using ends_pop b
      · simpa only [if_neg some] using idle
  exact rest.after (walks_countItems b)

theorem section_finishes (infos : List ThreadInfo) (i : Fin infos.length) (k : Random)
    (b : Buffer) :
    Finishes (sections infos) i b ((sections infos).start i k) := by
  obtain ⟨q, way, last⟩ := ends_threadRun (infos.get i) k b
  exact Finishes.of_turn (p := (b, _)) way last

theorem turn_step {infos : List ThreadInfo} {b b' : Buffer} {e : Event}
    (turn : LockedSections.Turn (sections infos) b e b') : Step infos b e b' := by
  obtain ⟨i, k, d, v, way, last⟩ := turn
  obtain ⟨q, way', last'⟩ := ends_threadRun (infos.get i) k b
  obtain ⟨rfl, rfl⟩ := ends_unique way last way' last'
  exact ⟨infos.get i, infos.get_mem i, k.val, k.property, rfl⟩

/-- Whatever the order in which the threads move, what they print is a history of turns, one thread
is in its section at a time, it gets through, and there is always one that can move. -/
theorem interleaved_turns {p c : Nat} {mode : BufferType} {b₀ : Buffer}
    {labels : List (Option Event)} {s : State (Fin (threads p c mode).length) Buffer Vars}
    (run : Run (LockedSections.Step (sections (threads p c mode)))
      (init (initializeBuffer b₀)) labels s) :
    ∃ b items, Run (Step (threads p c mode)) (initializeBuffer b₀) labels.reduceOption b ∧
      Holds b items ∧ Accounts mode labels.reduceOption items ∧
      ((∀ i, s.pc i = .outside) → s.data = b) ∧
      (∀ i j, s.pc i ≠ .outside → s.pc j ≠ .outside → i = j) ∧
      (∀ i v, s.pc i = .inside v → Finishes (sections (threads p c mode)) i s.data v) ∧
      ∀ _ : Fin (threads p c mode).length, ∃ i k,
        (LockedSections.step (sections (threads p c mode)) s i k).isSome := by
  obtain ⟨b, turns, held⟩ := run_held run
  have run' : Run (Step (threads p c mode)) (initializeBuffer b₀) labels.reduceOption b :=
    turns.mono fun _ _ _ turn => turn_step turn
  obtain ⟨items, holds, accounts⟩ := run_holds run'
  have finishes := fun i k => section_finishes (threads p c mode) i k b
  exact ⟨b, items, run', holds, accounts, held.quiet, fun _ _ => held.exclusive, fun _ _ =>
    held.finishes finishes, fun i => held.progress finishes i ⟨0, le_rfl⟩⟩

/-- Two producers add 7 and 8, and a consumer takes one of them. -/
def threeSections : List (Fin (threads 2 1 .fifo).length × Random) :=
  List.replicate 6 (⟨0, by decide⟩, ⟨7, by decide⟩) ++
    List.replicate 8 (⟨1, by decide⟩, ⟨8, by decide⟩) ++
    List.replicate 26 (⟨2, by decide⟩, ⟨0, by decide⟩)

theorem runAll_threeSections : (runAll
    (fun s (t : Fin (threads 2 1 .fifo).length × Random) =>
      LockedSections.step (sections _) s t.1 t.2)
    (init (initializeBuffer (Vector.replicate 10 0))) threeSections).any
    (fun r => (∀ i, r.2.pc i = .outside) ∧
      r.2.data = #v[8, -1, -1, -1, -1, -1, -1, -1, -1, -1] ∧ r.1.reduceOption =
      [⟨⟨0, .producer, .fifo⟩, .added 7, false⟩, ⟨⟨1, .producer, .fifo⟩, .added 8, false⟩,
        ⟨⟨0, .consumer, .fifo⟩, .taken 7, false⟩]) = true := by decide +kernel

theorem interleaved_turns_taken : ∃ items : List Int,
    Holds #v[8, -1, -1, -1, -1, -1, -1, -1, -1, -1] items ∧ [7, 8] = [7] ++ items := by
  obtain ⟨⟨labels, s⟩, ran, ends⟩ := (Option.any_eq_true _ _).mp runAll_threeSections
  obtain ⟨outside, data, events⟩ := of_decide_eq_true ends
  have run : Run (LockedSections.Step (sections (threads 2 1 .fifo))) _ labels s :=
    (run_of_runAll ran).mono fun _ _ _ ⟨t, moves⟩ => ⟨t.1, t.2, moves⟩
  obtain ⟨b, items, -, held, accounts, quiet, -⟩ := interleaved_turns run
  refine ⟨items, ?_, ?_⟩
  · have same := quiet outside
    rw [data] at same
    exact same ▸ held
  · have fifo := accounts.fifo rfl
    rw [events] at fifo
    exact fifo

end LastPicked.SharedBuffer
