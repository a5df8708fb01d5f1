import LastPicked.BufferItems

/-! Runs of producer and consumer turns: what is in the buffer is accounted
for by the items added and taken, in their order. -/

namespace LastPicked.SharedBuffer
open LabelledRuns

variable {b b' : Buffer} {items : List Int} {infos : List ThreadInfo}

def added (events : List Event) : List Int :=
  events.filterMap fun e => match e.outcome with
    | .added x => some x
    | _ => none

def taken (events : List Event) : List Int :=
  events.filterMap fun e => match e.outcome with
    | .taken x => some x
    | _ => none

/-- The items added and not yet taken, the most recently added one first. -/
def untaken (events : List Event) : List Int :=
  events.foldl (fun held e => match e.outcome with
    | .added x => x :: held
    | .taken x => held.erase x
    | .nothing => held) []

structure Accounts (mode : BufferType) (events : List Event) (items : List Int) : Prop where
  conserved : (added events).Perm (taken events ++ items)
  fifo : mode = .fifo → added events = taken events ++ items
  filo : mode = .filo → untaken events = items

theorem mem_threads {p c : Nat} {mode : BufferType} {info : ThreadInfo}
    (h : info ∈ threads p c mode) : info.bufferType = mode := by
  simp only [threads, List.mem_append, List.mem_map] at h
  obtain ⟨_, _, rfl⟩ | ⟨_, _, rfl⟩ := h <;> rfl

theorem added_snoc (events : List Event) (info : ThreadInfo) (o : Outcome) (w : Bool) :
    added (events ++ [⟨info, o, w⟩]) =
      added events ++ match o with | .added x => [x] | .taken _ => [] | .nothing => [] := by
  cases o <;> simp [added]

theorem taken_snoc (events : List Event) (info : ThreadInfo) (o : Outcome) (w : Bool) :
    taken (events ++ [⟨info, o, w⟩]) =
      taken events ++ match o with | .added _ => [] | .taken x => [x] | .nothing => [] := by
  cases o <;> simp [taken]

theorem untaken_snoc (events : List Event) (info : ThreadInfo) (o : Outcome) (w : Bool) :
    untaken (events ++ [⟨info, o, w⟩]) = match o with
      | .added x => x :: untaken events
      | .taken x => (untaken events).erase x
      | .nothing => untaken events := by
  cases o <;> simp [untaken]

theorem put_perm (mode : BufferType) (x : Int) (items : List Int) :
    (put mode x items).Perm (items ++ [x]) := by
  cases mode
  · exact .refl _
  · exact (List.perm_append_singleton x items).symm

theorem Accounts.turn {p c : Nat} {mode : BufferType} {events : List Event} {e : Event}
    {items' : List Int} (h : Accounts mode events items)
    (s : Turn (threads p c mode) items e items') : Accounts mode (events ++ [e]) items' := by
  obtain ⟨conserved, fifo, filo⟩ := h
  cases s with
  | @adds info x listed _ room =>
    rw [mem_threads listed]
    refine ⟨?_, ?_, ?_⟩
    · rw [added_snoc, taken_snoc, List.append_nil]
      refine (conserved.append_right [x]).trans ?_
      rw [List.append_assoc]
      exact (put_perm mode x items).symm.append_left _
    · rintro rfl
      simp [added_snoc, taken_snoc, put, fifo rfl]
    · rintro rfl
      simp [untaken_snoc, put, filo rfl]
  | full | empty => exact ⟨by simpa [added_snoc, taken_snoc] using conserved,
      by simpa [added_snoc, taken_snoc] using fifo, by simpa [untaken_snoc] using filo⟩
  | @takes info x rest listed _ held =>
    subst held
    refine ⟨by simpa [added_snoc, taken_snoc] using conserved,
      by simpa [added_snoc, taken_snoc] using fifo, fun lifo => ?_⟩
    simp [untaken_snoc, filo lifo]

/-- The array, and with it the list of items, after any turns. -/
theorem run_holds {p c : Nat} {mode : BufferType} {b₀ : Buffer} {events : List Event}
    (run : Run (Step (threads p c mode)) (initializeBuffer b₀) events b) :
    ∃ items, Holds b items ∧ Accounts mode events items := by
  refine run.history (fun events b => ∃ items, Holds b items ∧ Accounts mode events items)
    ⟨[], .initializeBuffer b₀, .refl _, fun _ => rfl, fun _ => rfl⟩ ?_
  rintro events b₁ e b₂ - ⟨items, held, accounts⟩ s
  obtain ⟨items', turn, held'⟩ := held.turn s
  exact ⟨items', held', accounts.turn turn⟩

/-- What a turn in this state can be: it never overflows, a producer adds
exactly when there is room, and a consumer takes exactly when there is an item. -/
structure Admits (items : List Int) (e : Event) : Prop where
  quiet : e.warned = false
  producer : e.thread.type = .producer → ((∃ x, e.outcome = .added x) ↔ items.length < 10)
  consumer : e.thread.type = .consumer → ((∃ x, e.outcome = .taken x) ↔ 1 ≤ items.length)

theorem Turn.admits {e : Event} {items' : List Int} (s : Turn infos items e items') :
    Admits items e := by
  cases s with
  | adds _ type room => exact ⟨rfl, fun _ => by simpa using room, by simp [type]⟩
  | full _ type len => exact ⟨rfl, by simp [len], by simp [type]⟩
  | takes _ type held => exact ⟨rfl, by simp [type], fun _ => by simp [held]⟩
  | empty _ type none => exact ⟨rfl, by simp [type], by simp [none]⟩

/-- Under FILO a turn takes the most recently added item not yet taken. -/
theorem Turn.takes_latest {e : Event} {events : List Event} {items' : List Int} {x : Int}
    (s : Turn infos items e items') (accounts : Accounts .filo events items)
    (takes : e.outcome = .taken x) : (untaken events).head? = some x := by
  rw [accounts.filo rfl]
  cases s <;> simp_all

/-- In every state the turns lead to, the array is the items held and then
only -1, and these items are what the mode makes of the history. -/
theorem run_buffer {p c : Nat} {mode : BufferType} {b₀ : Buffer} {events : List Event}
    (run : Run (Step (threads p c mode)) (initializeBuffer b₀) events b) :
    ∃ items, b.toList = items ++ List.replicate (10 - items.length) (-1) ∧ items.length ≤ 10 ∧
      (∀ x ∈ items, 0 ≤ x) ∧ (added events).Perm (taken events ++ items) ∧
      (mode = .fifo → added events = taken events ++ items) ∧
      (mode = .filo → untaken events = items ∧ ∀ pre e post x, events = pre ++ e :: post →
        e.outcome = .taken x → (untaken pre).head? = some x) ∧
      ∀ e b', Step (threads p c mode) b e b' → Admits items e := by
  obtain ⟨items, held, accounts⟩ := run_holds run
  refine ⟨items, held.packed, held.fits, held.nonneg, accounts.conserved, accounts.fifo, ?_, ?_⟩
  · rintro rfl
    refine ⟨accounts.filo rfl, ?_⟩
    rintro pre e post x rfl takes
    obtain ⟨b₁, b₂, before, here, -⟩ := run.around
    obtain ⟨items₁, held₁, accounts₁⟩ := run_holds before
    obtain ⟨_, turn, _⟩ := held₁.turn here
    exact turn.takes_latest accounts₁ takes
  · intro e b' s
    obtain ⟨_, turn, _⟩ := held.turn s
    exact turn.admits

/-- Two items are added, and the first of them is taken. -/
theorem run_buffer_taken : ∃ items,
    #v[8, -1, -1, -1, -1, -1, -1, -1, -1, -1].toList =
      items ++ List.replicate (10 - items.length) (-1) ∧ [7, 8] = [7] ++ items := by
  have first : Step (threads 2 1 .fifo) (initializeBuffer (Vector.replicate 10 0))
      ⟨⟨0, .producer, .fifo⟩, .added 7, false⟩ #v[7, -1, -1, -1, -1, -1, -1, -1, -1, -1] :=
    ⟨⟨0, .producer, .fifo⟩, by decide, 7, by decide, by decide⟩
  have second : Step (threads 2 1 .fifo) #v[7, -1, -1, -1, -1, -1, -1, -1, -1, -1]
      ⟨⟨1, .producer, .fifo⟩, .added 8, false⟩ #v[7, 8, -1, -1, -1, -1, -1, -1, -1, -1] :=
    ⟨⟨1, .producer, .fifo⟩, by decide, 8, by decide, by decide⟩
  have third : Step (threads 2 1 .fifo) #v[7, 8, -1, -1, -1, -1, -1, -1, -1, -1]
      ⟨⟨0, .consumer, .fifo⟩, .taken 7, false⟩ #v[8, -1, -1, -1, -1, -1, -1, -1, -1, -1] :=
    ⟨⟨0, .consumer, .fifo⟩, by decide, 0, by decide, by decide⟩
  obtain ⟨items, packed, -, -, -, fifo, -⟩ :=
    run_buffer (((Run.single first).snoc second).snoc third)
  exact ⟨items, packed, fifo rfl⟩

end LastPicked.SharedBuffer
