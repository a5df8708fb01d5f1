import LastPicked.LabelledRuns
import Mathlib.Data.List.ReduceOption
import Mathlib.Logic.Function.Basic
import Mathlib.Logic.Relation

/-! Threads that work on shared data between the `sem_wait` and the `sem_post` of one semaphore. The
code in between runs in small steps, and the threads move in any order. The sections are turns all
the same: each starts from the data that the one before left. -/

namespace LastPicked.LockedSections
open LabelledRuns

/-- The code between `sem_wait` and `sem_post`: the variables it starts with, for a choice of
its own, and its steps. The last step shows something, and a step that goes wrong has no result. -/
structure Code (ι σ V ε κ : Type*) where
  start : ι → κ → V
  step : ι → σ → V → Option (σ × (V ⊕ ε))

inductive Pc (V : Type*)
  | outside
  | inside (v : V)
  | leaving
  deriving DecidableEq

structure State (ι σ V : Type*) where
  data : σ
  sem : Nat
  pc : ι → Pc V

variable {ι σ V ε κ : Type*}

def init (data : σ) : State ι σ V := ⟨data, 1, fun _ => .outside⟩

def Reaches (code : Code ι σ V ε κ) (i : ι) : σ × V → σ × V → Prop :=
  Relation.ReflTransGen fun p q => code.step i p.1 p.2 = some (q.1, .inl q.2)

def Turn (code : Code ι σ V ε κ) (b : σ) (e : ε) (b' : σ) : Prop :=
  ∃ i k d v, Reaches code i (b, code.start i k) (d, v) ∧ code.step i d v = some (b', .inr e)

inductive Finishes (code : Code ι σ V ε κ) (i : ι) : σ → V → Prop
  | last {d d' : σ} {v : V} {e : ε} : code.step i d v = some (d', .inr e) → Finishes code i d v
  | more {d d' : σ} {v v' : V} : code.step i d v = some (d', .inl v') →
      Finishes code i d' v' → Finishes code i d v

variable [DecidableEq ι]

namespace State

def goto (s : State ι σ V) (i : ι) (pc : Pc V) : State ι σ V :=
  { s with pc := Function.update s.pc i pc }

end State

def step (code : Code ι σ V ε κ) (s : State ι σ V) (i : ι) (k : κ) :
    Option (State ι σ V × Option ε) :=
  match s.pc i with
  | .outside =>
      if 0 < s.sem then some ({ s.goto i (.inside (code.start i k)) with sem := s.sem - 1 }, none)
      else none
  | .inside v =>
      match code.step i s.data v with
      | none => none
      | some (data, .inl v) => some ({ s.goto i (.inside v) with data }, none)
      | some (data, .inr e) => some ({ s.goto i .leaving with data }, some e)
  | .leaving => some ({ s.goto i .outside with sem := s.sem + 1 }, none)

def Step (code : Code ι σ V ε κ) (s : State ι σ V) (e : Option ε) (s' : State ι σ V) : Prop :=
  ∃ i k, step code s i k = some (s', e)

/-- Who has the semaphore, and what the sections that are over have left as `b`. -/
inductive Held (code : Code ι σ V ε κ) (b : σ) (s : State ι σ V) : Prop
  | free : s.sem = 1 → (∀ i, s.pc i = .outside) → s.data = b → Held code b s
  | inside {i : ι} {k : κ} {v : V} :
      s.sem = 0 → s.pc i = .inside v → (∀ j, j ≠ i → s.pc j = .outside) →
      Reaches code i (b, code.start i k) (s.data, v) → Held code b s
  | leaving {i : ι} :
      s.sem = 0 → s.pc i = .leaving → (∀ j, j ≠ i → s.pc j = .outside) → s.data = b →
      Held code b s

variable {code : Code ι σ V ε κ} {b : σ} {s s' : State ι σ V} {e : Option ε} {i : ι} {k : κ}

omit [DecidableEq ι] in
theorem Finishes.of_reaches {p q : σ × V} (h : Finishes code i p.1 p.2) (way : Reaches code i p q) :
    Finishes code i q.1 q.2 := by
  induction way with
  | refl => exact h
  | tail _ here ih =>
    cases ih with
    | last ends =>
      rw [ends] at here
      cases here
    | more goes rest =>
      rw [goes] at here
      cases here
      exact rest

omit [DecidableEq ι] in
theorem Finishes.of_turn {p q : σ × V} {d : σ} {x : ε} (way : Reaches code i p q)
    (ends : code.step i q.1 q.2 = some (d, .inr x)) : Finishes code i p.1 p.2 := by
  induction way using Relation.ReflTransGen.head_induction_on with
  | refl => exact .last ends
  | head here _ ih => exact .more here ih

omit [DecidableEq ι] in
theorem ends_unique {p q q' : σ × V} {d d' : σ} {x x' : ε} (way : Reaches code i p q)
    (ends : code.step i q.1 q.2 = some (d, .inr x)) (way' : Reaches code i p q')
    (ends' : code.step i q'.1 q'.2 = some (d', .inr x')) : d' = d ∧ x' = x := by
  induction way using Relation.ReflTransGen.head_induction_on with
  | refl =>
    rcases way'.cases_head with rfl | ⟨r, here, -⟩
    · rw [ends] at ends'
      cases ends'
      exact ⟨rfl, rfl⟩
    · rw [ends] at here
      cases here
  | @head p r here _ ih =>
    rcases way'.cases_head with rfl | ⟨r', here', rest⟩
    · rw [here] at ends'
      cases ends'
    · rw [here] at here'
      simp only [Option.some.injEq, Prod.mk.injEq, Sum.inl.injEq] at here'
      obtain rfl : r = r' := Prod.ext here'.1 here'.2
      exact ih rest

theorem step_waits (taken : s.sem = 0) (out : s.pc i = .outside) : step code s i k = none := by
  simp only [step, out, taken, Nat.lt_irrefl, if_false]

theorem others_goto {pc : Pc V} (out : ∀ j, j ≠ i → s.pc j = .outside) :
    ∀ j, j ≠ i → (s.goto i pc).pc j = .outside :=
  fun j other => (Function.update_of_ne other ..).trans (out j other)

theorem goto_self (pc : Pc V) : (s.goto i pc).pc i = pc := Function.update_self ..

theorem Held.step (h : Held code b s) (m : LockedSections.step code s i k = some (s', e)) :
    (e = none ∧ Held code b s') ∨ ∃ x b', e = some x ∧ Turn code b x b' ∧ Held code b' s' := by
  cases h with
  | free sem out data =>
    subst data
    simp only [LockedSections.step, out i, sem, Nat.one_pos, if_true] at m
    cases m
    exact .inl ⟨rfl, .inside rfl (goto_self _) (others_goto fun j _ => out j) .refl⟩
  | @inside j k' v sem here out way =>
    by_cases same : i = j
    · subst same
      simp only [LockedSections.step, here] at m
      split at m
      case h_1 => cases m
      case h_2 d v' moved =>
        cases m
        exact .inl ⟨rfl, .inside sem (goto_self _) (others_goto out) (way.tail moved)⟩
      case h_3 d x moved =>
        cases m
        exact .inr ⟨x, d, rfl, ⟨i, k', s.data, v, way, moved⟩,
          .leaving sem (goto_self _) (others_goto out) rfl⟩
    · rw [step_waits sem (out i same)] at m
      cases m
  | @leaving j sem here out data =>
    by_cases same : i = j
    · subst same
      simp only [LockedSections.step, here, sem] at m
      cases m
      refine .inl ⟨rfl, .free rfl (fun j => ?_) data⟩
      by_cases self : j = i
      · rw [self]
        exact goto_self _
      · exact others_goto out j self
    · rw [step_waits sem (out i same)] at m
      cases m

/-- Whatever the interleaving, the sections that are over were turns. -/
theorem run_held {d : σ} {labels : List (Option ε)} (run : Run (Step code) (init d) labels s) :
    ∃ b, Run (Turn code) d labels.reduceOption b ∧ Held code b s := by
  refine run.history (fun labels s => ∃ b, Run (Turn code) d labels.reduceOption b ∧ Held code b s)
    ⟨d, .nil, .free rfl (fun _ => rfl) rfl⟩ ?_
  rintro labels s e s' - ⟨b, turns, held⟩ ⟨i, k, m⟩
  rcases held.step m with ⟨rfl, held'⟩ | ⟨x, b', rfl, turn, held'⟩
  · refine ⟨b, ?_, held'⟩
    simpa [List.reduceOption_append] using turns
  · refine ⟨b', ?_, held'⟩
    simpa [List.reduceOption_append] using turns.snoc turn

omit [DecidableEq ι] in
theorem Held.exclusive (h : Held code b s) {j : ι} (here : s.pc i ≠ .outside)
    (there : s.pc j ≠ .outside) : i = j := by
  cases h with
  | free _ out => exact absurd (out i) here
  | inside _ _ out | leaving _ _ out =>
    exact (of_not_not (mt (out i) here)).trans (of_not_not (mt (out j) there)).symm

omit [DecidableEq ι] in
theorem Held.quiet (h : Held code b s) (out : ∀ i, s.pc i = .outside) : s.data = b := by
  cases h with
  | free _ _ data => exact data
  | inside _ here | leaving _ here =>
    rw [out] at here
    cases here

omit [DecidableEq ι] in
theorem Held.finishes (h : Held code b s) (alone : ∀ i k, Finishes code i b (code.start i k))
    {v : V} (here : s.pc i = .inside v) : Finishes code i s.data v := by
  cases h with
  | free _ out =>
    rw [out] at here
    cases here
  | @inside j k' v' _ there out way =>
    by_cases same : i = j
    · subst same
      obtain rfl : v' = v := by
        rw [there] at here
        cases here
        rfl
      exact (alone i k').of_reaches (p := (b, code.start i k')) way
    · rw [out i same] at here
      cases here
  | @leaving j _ there out =>
    by_cases same : i = j
    · rw [same, there] at here
      cases here
    · rw [out i same] at here
      cases here

/-- Then some thread can move. -/
theorem Held.progress (h : Held code b s) (alone : ∀ i k, Finishes code i b (code.start i k))
    (i : ι) (k : κ) :
    ∃ i k, (LockedSections.step code s i k).isSome := by
  cases h with
  | free sem out =>
      exact ⟨i, k, by
        simp only [LockedSections.step, out i, sem, Nat.one_pos, if_true, Option.isSome_some]⟩
  | @inside j _ _ sem here out way =>
    refine ⟨j, k, ?_⟩
    have goes := Held.finishes (.inside sem here out way) alone here
    cases goes with
    | last ends => simp only [LockedSections.step, here, ends, Option.isSome_some]
    | more goes _ => simp only [LockedSections.step, here, goes, Option.isSome_some]
  | @leaving j _ here => exact ⟨j, k, by simp only [LockedSections.step, here, Option.isSome_some]⟩

end LastPicked.LockedSections
