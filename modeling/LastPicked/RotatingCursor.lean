import LastPicked.LabelledRuns
import Mathlib.Data.Set.Insert
import Mathlib.Data.List.Nodup

/-! A list served in rotation by a cursor. Members arrive at the tail, at any
time but only once; only the member just served departs, and the cursor then
steps back. Between two services of one member, each other is served at most
once, and exactly once when it is there all along. -/

namespace LastPicked.RotatingCursor
open LabelledRuns

variable {α : Type*}

structure Rotation (α : Type*) where
  queue : List α
  cursor : Nat
  seen : Set α

inductive Label (α : Type*)
  | serve (x : α) | wrap | arrive (x : α) | depart (x : α)
  deriving DecidableEq

inductive Move : Rotation α → Label α → Rotation α → Prop
  | serve {r : Rotation α} {before after : List α} {x : α} :
      r.queue = before ++ x :: after → r.cursor = before.length →
      Move r (.serve x) { r with cursor := before.length + 1 }
  | wrap {r : Rotation α} : r.cursor = r.queue.length → Move r .wrap { r with cursor := 0 }
  | arrive {r : Rotation α} {x : α} : x ∉ r.seen →
      Move r (.arrive x) { r with queue := r.queue ++ [x], seen := insert x r.seen }
  | depart {r : Rotation α} {before after : List α} {x : α} :
      r.queue = before ++ x :: after → r.cursor = before.length + 1 →
      Move r (.depart x) { r with queue := before ++ after, cursor := before.length }

structure Valid (r : Rotation α) : Prop where
  distinct : r.queue.Nodup
  known : ∀ x ∈ r.queue, x ∈ r.seen

theorem Valid.move {r r' : Rotation α} {l : Label α} (h : Valid r) (m : Move r l r') :
    Valid r' := by
  obtain ⟨distinct, known⟩ := h
  cases m with
  | serve | wrap => exact ⟨distinct, known⟩
  | @arrive x new =>
    have apart := distinct.concat fun there => new (known x there)
    rw [List.concat_eq_append] at apart
    refine ⟨apart, fun y hy => ?_⟩
    rcases List.mem_append.mp hy with old | here
    · exact Set.mem_insert_of_mem _ (known y old)
    · exact List.mem_singleton.mp here ▸ Set.mem_insert _ _
  | @depart before after x queue _ =>
    have sub : (before ++ after).Sublist r.queue := by
      rw [queue]
      exact List.Sublist.append_left (List.sublist_cons_self x after) before
    exact ⟨distinct.sublist sub, fun y hy => known y (sub.subset hy)⟩

/-- Where the cursor is since the last service of `w`, and who was served since. -/
inductive Phase (w : α) (start : List α) (k : α → Nat) (r : Rotation α) : Prop
  | ahead (before served left : List α) :
      r.queue = before ++ w :: (served ++ left) → r.cursor = before.length + 1 + served.length →
      (∀ v ∈ before, k v = 0) → (∀ v ∈ served, k v = 1) → (∀ v ∈ left, k v = 0) →
      Phase w start k r
  | wrapped (served left after : List α) :
      r.queue = served ++ (left ++ w :: after) → r.cursor = served.length →
      (∀ v ∈ served, k v = 1) → (∀ v ∈ left, k v = 0) →
      (∀ v ∈ after, k v ≤ 1 ∧ (v ∈ start → k v = 1)) → Phase w start k r

variable [DecidableEq α]

theorem idxOf_split {l before after : List α} {x : α} (distinct : l.Nodup)
    (split : l = before ++ x :: after) : l.idxOf x = before.length := by
  subst split
  have away : x ∉ before := fun there => (List.nodup_append.mp distinct).2.2 x there x (by simp) rfl
  simp [List.idxOf_append_of_notMem away]

def services (ls : List (Label α)) (v : α) : Nat := ls.count (.serve v)

theorem services_snoc (ls : List (Label α)) (l : Label α) (v : α) :
    services (ls ++ [l]) v = services ls v + if l = .serve v then 1 else 0 := by
  simp [services, List.count_append, List.count_singleton]

theorem services_other {ls : List (Label α)} {l : Label α} {v : α} (other : l ≠ .serve v) :
    services (ls ++ [l]) v = services ls v := by
  rw [services_snoc, if_neg other, Nat.add_zero]

structure Lap (w : α) (start : List α) (ls : List (Label α)) (r : Rotation α) : Prop where
  valid : Valid r
  started : ∀ v ∈ start, v ∈ r.seen
  fresh : ∀ v, v ∉ r.seen → services ls v = 0
  out : ∀ v, v ∉ r.queue → services ls v ≤ 1
  phase : Phase w start (services ls) r

variable {w : α} {start : List α} {ls : List (Label α)} {r r' : Rotation α}

theorem Lap.serve (h : Lap w start ls r) {before after : List α} {x : α} (other : x ≠ w)
    (queue : r.queue = before ++ x :: after) (cursor : r.cursor = before.length) :
    Lap w start (ls ++ [.serve x]) { r with cursor := before.length + 1 } := by
  have valid' := h.valid.move (.serve queue cursor)
  obtain ⟨valid, started, fresh, out, phase⟩ := h
  have here : x ∈ r.queue := by simp [queue]
  have same : ∀ v, v ≠ x → services (ls ++ [.serve x]) v = services ls v := fun v ne =>
    services_other (by simpa using ne.symm)
  have more : services (ls ++ [.serve x]) x = services ls x + 1 := by simp [services_snoc]
  refine ⟨valid', started, fun v new => ?_, fun v away => ?_, ?_⟩
  · rw [same v fun eq => new (eq ▸ valid.known x here), fresh v new]
  · rw [same v fun eq => away (eq ▸ here)]
    exact out v away
  have distinct := valid.distinct
  cases phase with
  | ahead front served left queue' cursor' hf hs hl =>
    rw [queue', List.append_cons, ← List.append_assoc] at queue
    obtain ⟨rfl, rfl⟩ := List.append_inj queue (by simp; omega)
    rw [queue'] at distinct
    refine .ahead front (served ++ [x]) after (by simp [queue']) (by simp; omega) ?_ ?_ ?_
    all_goals grind
  | wrapped served left after' queue' cursor' hs hl ha =>
    rw [queue'] at queue
    obtain ⟨rfl, tail⟩ := List.append_inj queue (by omega)
    rw [queue'] at distinct
    cases left with
    | nil => exact absurd (List.cons.inj tail).1.symm other
    | cons y left =>
      obtain ⟨rfl, rfl⟩ := List.cons.inj tail
      refine .wrapped (served ++ [y]) left after' (by simp [queue']) (by simp) ?_ ?_ ?_
      all_goals grind

theorem Lap.wrap (h : Lap w start ls r) (cursor : r.cursor = r.queue.length) :
    Lap w start (ls ++ [.wrap]) { r with cursor := 0 } := by
  have valid' := h.valid.move (.wrap cursor)
  obtain ⟨valid, started, fresh, out, phase⟩ := h
  have same : ∀ v, services (ls ++ [.wrap]) v = services ls v := fun v => services_other (by simp)
  refine ⟨valid', started, fun v new => (same v).trans (fresh v new),
    fun v away => (same v).trans_le (out v away), ?_⟩
  cases phase with
  | ahead front served left queue cursor' hf hs hl =>
    rw [queue] at cursor
    have none : left = [] := by
      rw [← List.length_eq_zero_iff]
      simp at cursor
      omega
    subst none
    refine .wrapped [] front served (by simp [queue]) rfl (by simp) ?_ ?_
    all_goals grind
  | wrapped served left after queue cursor' =>
    rw [queue] at cursor
    simp at cursor
    omega

theorem Lap.arrive (h : Lap w start ls r) {x : α} (new : x ∉ r.seen) :
    Lap w start (ls ++ [.arrive x])
      { r with queue := r.queue ++ [x], seen := insert x r.seen } := by
  obtain ⟨valid, started, fresh, out, phase⟩ := h
  have same : ∀ v, services (ls ++ [.arrive x]) v = services ls v :=
    fun v => services_other (by simp)
  have none : services ls x = 0 := fresh x new
  refine ⟨valid.move (.arrive new), fun v hv => Set.mem_insert_of_mem _ (started v hv),
    fun v unseen => (same v).trans (fresh v fun old => unseen (Set.mem_insert_of_mem _ old)),
    fun v away => (same v).trans_le (out v fun old => away (List.mem_append_left _ old)), ?_⟩
  cases phase with
  | ahead front served left queue cursor hf hs hl =>
    refine .ahead front served (left ++ [x]) (by simp [queue]) cursor ?_ ?_ ?_
    all_goals grind
  | wrapped served left after queue cursor hs hl ha =>
    refine .wrapped served left (after ++ [x]) (by simp [queue]) cursor ?_ ?_ ?_
    all_goals grind

theorem services_le_of_depart {queue before after : List α} {x : α}
    (out : ∀ v, v ∉ queue → services ls v ≤ 1) (split : queue = before ++ x :: after)
    (once : services ls x = 1) (v : α) (away : v ∉ before ++ after) : services ls v ≤ 1 := by
  by_cases it : v = x
  · rw [it, once]
  · refine out v fun there => away ?_
    rw [split] at there
    grind

theorem Lap.depart (h : Lap w start ls r) {before after : List α} {x : α} (other : x ≠ w)
    (queue : r.queue = before ++ x :: after) (cursor : r.cursor = before.length + 1) :
    Lap w start (ls ++ [.depart x])
      { r with queue := before ++ after, cursor := before.length } := by
  have valid' := h.valid.move (.depart queue cursor)
  obtain ⟨valid, started, fresh, out, phase⟩ := h
  have same : ∀ v, services (ls ++ [.depart x]) v = services ls v :=
    fun v => services_other (by simp)
  have distinct := valid.distinct
  cases phase with
  | ahead front served left queue' cursor' hf hs hl =>
    rcases List.eq_nil_or_concat served with rfl | ⟨served, y, rfl⟩
    · rw [queue'] at queue
      obtain ⟨-, tail⟩ := List.append_inj queue (by simp at cursor'; omega)
      exact absurd (List.cons.inj tail).1.symm other
    · have split : r.queue = (front ++ w :: served) ++ y :: left := by simp [queue']
      rw [queue] at split
      obtain ⟨rfl, tail⟩ := List.append_inj split (by simp at cursor' ⊢; omega)
      obtain ⟨rfl, rfl⟩ := List.cons.inj tail
      refine ⟨valid', started, fun v unseen => (same v).trans (fresh v unseen),
        fun v away => (same v).trans_le (services_le_of_depart out queue (hs x (by simp)) v away),
        .ahead front served after (by simp) (by simp; omega) ?_ ?_ ?_⟩
      all_goals grind
  | wrapped served left after' queue' cursor' hs hl ha =>
    rcases List.eq_nil_or_concat served with rfl | ⟨served, y, rfl⟩
    · simp at cursor'
      omega
    · have split : r.queue = served ++ y :: (left ++ w :: after') := by simp [queue']
      rw [queue] at split
      obtain ⟨rfl, tail⟩ := List.append_inj split (by simp at cursor'; omega)
      obtain ⟨rfl, rfl⟩ := List.cons.inj tail
      refine ⟨valid', started, fun v unseen => (same v).trans (fresh v unseen),
        fun v away => (same v).trans_le (services_le_of_depart out queue (hs x (by simp)) v away),
        .wrapped before left after' rfl rfl ?_ ?_ ?_⟩
      all_goals grind

def Gone (w : α) (r : Rotation α) : Prop := w ∉ r.queue ∧ w ∈ r.seen

omit [DecidableEq α] in
theorem Gone.move {l : Label α} (h : Gone w r) (m : Move r l r') : Gone w r' := by
  obtain ⟨away, known⟩ := h
  cases m with
  | serve | wrap => exact ⟨away, known⟩
  | @arrive x new =>
    refine ⟨fun there => ?_, Set.mem_insert_of_mem _ known⟩
    rcases List.mem_append.mp there with old | here
    · exact away old
    · exact new (List.mem_singleton.mp here ▸ known)
  | depart queue _ =>
    refine ⟨fun there => away ?_, known⟩
    rw [queue]
    grind

theorem Lap.move {l : Label α} (h : Lap w start ls r) (m : Move r l r') (other : l ≠ .serve w) :
    Lap w start (ls ++ [l]) r' ∨ Gone w r' := by
  cases m with
  | serve queue cursor => exact .inl (h.serve (by simpa using other) queue cursor)
  | wrap cursor => exact .inl (h.wrap cursor)
  | arrive new => exact .inl (h.arrive new)
  | @depart before after x queue cursor =>
    by_cases it : x = w
    · subst it
      have distinct := h.valid.distinct
      rw [queue] at distinct
      exact .inr ⟨by grind, h.valid.known x (by simp [queue])⟩
    · exact .inl (h.depart it queue cursor)

theorem Lap.run (h : Lap w start [] r) (run : Run Move r ls r') (other : .serve w ∉ ls) :
    Lap w start ls r' ∨ Gone w r' := by
  induction run with
  | nil => exact .inl h
  | @snoc ls t u l _ m ih =>
    simp only [List.mem_append, List.mem_singleton, not_or] at other
    rcases ih other.1 with lap | gone
    · exact lap.move m (Ne.symm other.2)
    · exact .inr (gone.move m)

theorem Move.lap {r₀ : Rotation α} (valid : Valid r₀) (m : Move r₀ (.serve w) r) :
    Lap w r.queue [] r := by
  have valid' := valid.move m
  cases m with
  | @serve before after _ queue cursor =>
    refine ⟨valid', valid'.known, fun v _ => rfl, fun v _ => Nat.zero_le 1,
      .ahead before [] after queue rfl ?_ ?_ ?_⟩
    all_goals simp [services]

/-- Between two services of `w` each other member is served at most once,
and once when it is in the queue at both ends. -/
theorem services_between {r₀ r₁ r₂ r₃ : Rotation α} (valid : Valid r₀)
    (first : Move r₀ (.serve w) r₁) (run : Run Move r₁ ls r₂) (other : .serve w ∉ ls)
    (second : Move r₂ (.serve w) r₃) {v : α} (ne : v ≠ w) :
    services ls v ≤ 1 ∧ (v ∈ r₁.queue → v ∈ r₂.queue → services ls v = 1) := by
  cases second with
  | @serve before after _ queue cursor =>
    have there : w ∈ r₂.queue := by simp [queue]
    rcases (first.lap valid).run run other with lap | gone
    · obtain ⟨valid, started, fresh, out, phase⟩ := lap
      have distinct := valid.distinct
      cases phase with
      | ahead front served left queue' cursor' =>
        -- the cursor is past `w` here, so `w` cannot be the next to be served
        have place := idxOf_split distinct queue
        rw [idxOf_split distinct queue'] at place
        omega
      | wrapped served left after' queue' cursor' hs hl ha =>
        rw [queue'] at queue
        obtain ⟨rfl, tail⟩ := List.append_inj queue (by omega)
        cases left with
        | nil =>
          obtain ⟨-, rfl⟩ := List.cons.inj tail
          refine ⟨?_, fun began here => ?_⟩
          · by_cases inside : v ∈ r₂.queue
            · rw [queue'] at inside
              grind
            · exact out v inside
          · rw [queue'] at here
            grind
        | cons y left =>
          obtain ⟨rfl, -⟩ := List.cons.inj tail
          rw [queue'] at distinct
          grind
    · exact absurd there gone.1

end LastPicked.RotatingCursor
