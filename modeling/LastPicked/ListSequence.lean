import LastPicked.ListModel
import LastPicked.LinkedChain

/-! The linked list of the scheduler is a sequence: the elements in it form a chain from
its head to its tail, and the initialised ones outside of it have no links. -/

namespace LastPicked.ElementList
open CIntegers LabelledRuns LinkedChain

variable {α δ : Type} {s s' : State α δ} {q : Sequence α} {elts before after : List α} {elt a : α}

def State.view (s : State α δ) (a : α) : Option (Node α Unit) :=
  some ⟨(s.elem a).prev, (s.elem a).next, ()⟩

def nodes (elts : List α) : List (α × Unit) := elts.map (·, ())

@[simp] theorem nodes_nil : nodes ([] : List α) = [] := rfl

@[simp] theorem nodes_cons : nodes (elt :: elts) = (elt, ()) :: nodes elts := rfl

@[simp] theorem nodes_append : nodes (before ++ after) = nodes before ++ nodes after :=
  List.map_append

@[simp] theorem nodes_names : (nodes elts).map Prod.fst = elts := by
  rw [nodes, List.map_map]
  exact List.map_id elts

theorem mem_nodes {x : α × Unit} : x ∈ nodes elts ↔ x.1 ∈ elts := by simp [nodes, Prod.ext_iff]

theorem view_congr (same : s'.elem a = s.elem a) : s'.view a = s.view a := by
  rw [State.view, State.view, same]

structure Linked (s : State α δ) (q : Sequence α) : Prop where
  chain : Chain s.view none (nodes q.elems) none
  head : s.list.head = first none (nodes q.elems)
  tail : s.list.tail = final none (nodes q.elems)
  distinct : q.elems.Nodup
  unlinked : ∀ a ∈ q.initialised, a ∉ q.elems → (s.elem a).prev = none ∧ (s.elem a).next = none

theorem sizeLoop_visits {p : Option α} {fuel : Nat} (count : Nat)
    (visits : Visits (fun a => (s.elem a).next) p elts)
    (turns : elts.length ≤ fuel) (small : (count + elts.length : Nat) ≤ intMax) :
    sizeLoop s fuel p count = some ((count + elts.length : Nat) : Int) := by
  induction visits generalizing fuel count with
  | nil => cases fuel <;> rfl
  | cons _ ih =>
    rw [List.length_cons] at turns small
    obtain ⟨fuel, rfl⟩ := Nat.exists_eq_succ_of_ne_zero (Nat.ne_of_gt (Nat.zero_lt_of_lt turns))
    have next : addInt count 1 = some ((count + 1 : Nat) : Int) :=
      addInt_eq_some.mpr ⟨rfl, by unfold intMin; omega, by omega⟩
    have later := ih (count + 1) (Nat.le_of_succ_le_succ turns) (by omega)
    rw [sizeLoop, next, Option.bind_some, later, List.length_cons, Nat.add_right_comm,
      Nat.add_assoc]

theorem sizeLoop_le {p : Option α} {fuel : Nat} {count n : Int} (small : count ≤ intMax)
    (h : sizeLoop s fuel p count = some n) : n ≤ intMax := by
  induction fuel generalizing p count with
  | zero =>
    cases p with
    | none =>
      obtain rfl := Option.some.inj h
      exact small
    | some elt => cases h
  | succ fuel ih =>
    cases p with
    | none =>
      obtain rfl := Option.some.inj h
      exact small
    | some elt =>
      obtain ⟨next, counted, later⟩ := Option.bind_eq_some_iff.mp h
      exact ih (addInt_eq_some.mp counted).2.2 later

theorem Linked.forward (h : Linked s q) :
    Visits (fun a => (s.elem a).next) s.list.head q.elems := by
  have visits := h.chain.visits_next
  rwa [← h.head, nodes_names] at visits

theorem Linked.backward (h : Linked s q) :
    Visits (fun a => (s.elem a).prev) s.list.tail q.elems.reverse := by
  have visits := h.chain.visits_prev
  rwa [← h.tail, nodes_names] at visits

theorem Linked.size_iff (h : Linked s q) :
    (∃ fuel, listSize s fuel = some (q.elems.length : Int)) ↔ (q.elems.length : Int) ≤ intMax := by
  constructor
  · rintro ⟨fuel, counted⟩
    exact sizeLoop_le (by decide) counted
  · intro small
    have counted := sizeLoop_visits 0 h.forward le_rfl (by rwa [Nat.zero_add])
    rw [Nat.zero_add] at counted
    exact ⟨_, counted⟩

theorem first_mem {n : Option α} (h : first n (nodes elts) = some a) (outside : a ∉ elts) :
    n = some a := by
  cases elts with
  | nil => exact h
  | cons head elts =>
    obtain rfl := Option.some.inj h
    exact absurd List.mem_cons_self outside

theorem final_mem {p : Option α} (h : final p (nodes elts) = some a) (outside : a ∉ elts) :
    p = some a := by
  induction elts generalizing p with
  | nil => exact h
  | cons head elts ih =>
    obtain ⟨other, outside⟩ := not_or.mp (mt List.mem_cons.mpr outside)
    exact absurd (Option.some.inj (ih h outside)).symm other

theorem Linked.head_ne (h : Linked s q) (outside : a ∉ q.elems) : s.list.head ≠ some a := by
  rw [h.head]
  intro first
  cases first_mem first outside

theorem Linked.tail_ne (h : Linked s q) (outside : a ∉ q.elems) : s.list.tail ≠ some a := by
  rw [h.tail]
  intro last
  cases final_mem last outside

theorem Linked.init (elem : α → ListElem α δ) : Linked ⟨⟨none, none⟩, elem⟩ ⟨[], []⟩ :=
  ⟨trivial, rfl, rfl, List.nodup_nil, fun _ there => by cases there⟩

variable [DecidableEq α]

@[simp] theorem setPrev_list (p : Option α) : (setPrev s elt p).list = s.list := rfl

@[simp] theorem setNext_list (p : Option α) : (setNext s elt p).list = s.list := rfl

@[simp] theorem setPrev_self (p : Option α) :
    (setPrev s elt p).elem elt = { s.elem elt with prev := p } :=
  Function.update_self ..

@[simp] theorem setNext_self (p : Option α) :
    (setNext s elt p).elem elt = { s.elem elt with next := p } :=
  Function.update_self ..

@[simp] theorem setPrev_other (p : Option α) (other : a ≠ elt) :
    (setPrev s elt p).elem a = s.elem a :=
  Function.update_of_ne other ..

@[simp] theorem setNext_other (p : Option α) (other : a ≠ elt) :
    (setNext s elt p).elem a = s.elem a :=
  Function.update_of_ne other ..

theorem insertHead_other (other : a ≠ elt) (inner : s.list.head ≠ some a) :
    (listInsertHead s elt).elem a = s.elem a := by
  rw [listInsertHead]
  split
  case h_1 => simp [other]
  case h_2 head first =>
    have beside : a ≠ head := fun same => inner (by rw [first, same])
    simp [other, beside]

theorem insertTail_other (other : a ≠ elt) (inner : s.list.tail ≠ some a) :
    (listInsertTail s elt).elem a = s.elem a := by
  rw [listInsertTail]
  split
  case h_1 => simp [other]
  case h_2 tail last =>
    have beside : a ≠ tail := fun same => inner (by rw [last, same])
    simp [other, beside]

theorem setPrev_same {p : Option α} (h : (s.elem elt).prev = p) : setPrev s elt p = s := by
  subst h
  exact congrArg (State.mk s.list) (Function.update_eq_self elt s.elem)

theorem setNext_same {p : Option α} (h : (s.elem elt).next = p) : setNext s elt p = s := by
  subst h
  exact congrArg (State.mk s.list) (Function.update_eq_self elt s.elem)

section Insert

variable (absent : elt ∉ q.elems)

include absent

theorem Linked.insertHead (h : Linked s q) :
    Linked (listInsertHead s elt) (q.after (.insertHead elt : Op α δ)) := by
  refine ⟨?_, ?_, ?_, List.nodup_cons.mpr ⟨absent, h.distinct⟩, ?_⟩
  · obtain ⟨elts, inits⟩ := q
    cases elts with
    | nil =>
      refine ⟨?_, trivial⟩
      rw [State.view, listInsertHead, h.head]
      simp
    | cons head elts =>
      have apart : head ≠ elt := fun same => absent (by simp [same])
      have distinct := List.nodup_cons.mp h.distinct
      refine ⟨?_, h.chain.relinkFirst ?_ fun x there => ?_⟩
      · rw [State.view, listInsertHead, h.head]
        simp [apart.symm]
      · have old := h.chain.1
        simp only [State.view, Option.some.injEq, Node.mk.injEq] at old
        rw [State.view, listInsertHead, h.head]
        simp [apart, old]
      · have inner : x.1 ≠ head := fun same => distinct.1 (same ▸ mem_nodes.mp there)
        have other : x.1 ≠ elt :=
          fun same => absent (same ▸ List.mem_cons_of_mem _ (mem_nodes.mp there))
        refine view_congr (insertHead_other other ?_)
        rw [h.head]
        simpa using inner.symm
  · rw [listInsertHead]
    split <;> rfl
  · obtain ⟨elts, inits⟩ := q
    cases elts with
    | nil =>
      rw [listInsertHead, h.head]
      rfl
    | cons head elts =>
      have tail := h.tail
      rw [listInsertHead, h.head]
      exact tail
  · intro a there outside
    obtain ⟨other, outside⟩ := not_or.mp (mt List.mem_cons.mpr outside)
    rw [insertHead_other other (h.head_ne outside)]
    exact h.unlinked a ((List.mem_cons.mp there).resolve_left other) outside

theorem Linked.insertTail (h : Linked s q) :
    Linked (listInsertTail s elt) (q.after (.insertTail elt : Op α δ)) := by
  refine ⟨?_, ?_, ?_, h.distinct.append (List.nodup_singleton elt) (by simpa using absent), ?_⟩
  · obtain ⟨elts, inits⟩ := q
    obtain rfl | ⟨elts, tail, rfl⟩ := List.eq_nil_or_concat' elts
    · refine ⟨?_, trivial⟩
      rw [State.view, listInsertTail, h.tail]
      simp
    · have last : s.list.tail = some tail := by simp [h.tail]
      have apart : tail ≠ elt := fun same => absent (by simp [same])
      have old := h.chain
      simp only [nodes_append, nodes_cons, nodes_nil] at old
      simp only [Sequence.after, nodes_append, nodes_cons, nodes_nil]
      refine chain_snoc.mpr ⟨old.relinkLast ?_ fun x there => ?_, ?_⟩
      · have old := (chain_snoc.mp old).2
        simp only [State.view, Option.some.injEq, Node.mk.injEq] at old
        rw [State.view, listInsertTail, last]
        simp [apart, old]
      · have inner : tail ≠ x.1 := fun same =>
          List.disjoint_of_nodup_append h.distinct (mem_nodes.mp there) (by simp [same])
        have other : x.1 ≠ elt :=
          fun same => absent (same ▸ List.mem_append_left _ (mem_nodes.mp there))
        refine view_congr (insertTail_other other ?_)
        rw [last]
        simpa using inner
      · rw [State.view, listInsertTail, last]
        simp [apart.symm]
  · obtain ⟨elts, inits⟩ := q
    obtain rfl | ⟨elts, tail, rfl⟩ := List.eq_nil_or_concat' elts
    · rw [listInsertTail, h.tail]
      rfl
    · have head := h.head
      have last : s.list.tail = some tail := by simp [h.tail]
      rw [listInsertTail, last]
      simpa [Sequence.after, first_append] using head
  · rw [listInsertTail]
    split <;> simp [Sequence.after]
  · intro a there outside
    obtain ⟨outside, other⟩ : a ∉ q.elems ∧ a ≠ elt := by simpa [Sequence.after] using outside
    rw [insertTail_other other (h.tail_ne outside)]
    exact h.unlinked a ((List.mem_cons.mp there).resolve_left other) outside

end Insert

theorem Linked.elemInit (absent : elt ∉ q.elems) (datum : δ) (h : Linked s q) :
    Linked (listElemInit s (some elt) datum) (q.after (.elemInit elt datum)) := by
  have same {a : α} (other : a ≠ elt) : (listElemInit s (some elt) datum).elem a = s.elem a :=
    Function.update_of_ne other ..
  refine ⟨?_, h.head, h.tail, h.distinct, ?_⟩
  · refine h.chain.frame fun x there => view_congr (same ?_)
    exact ne_of_mem_of_not_mem (mem_nodes.mp there) absent
  · intro a there outside
    by_cases self : a = elt
    · subst self
      have new : (listElemInit s (some a) datum).elem a = ⟨none, none, datum⟩ :=
        Function.update_self ..
      rw [new]
      exact ⟨rfl, rfl⟩
    · rw [same self]
      exact h.unlinked a ((List.mem_cons.mp there).resolve_left self) outside

section Remove

variable {before after : List α}

theorem passPrev_other (inner : (s.elem elt).prev ≠ some a) :
    (passPrev s elt).elem a = s.elem a := by
  rw [passPrev]
  split
  case h_1 prev front => exact setNext_other _ fun same => inner (by rw [front, same])
  case h_2 => split <;> rfl

theorem passNext_other (inner : (s.elem elt).next ≠ some a) :
    (passNext s elt).elem a = s.elem a := by
  rw [passNext]
  split
  case h_1 next behind => exact setPrev_other _ fun same => inner (by rw [behind, same])
  case h_2 => split <;> rfl

theorem passPrev_chain (chain : Chain s.view none (nodes before) (some elt))
    (distinct : before.Nodup) (head : s.list.head = first (some elt) (nodes before))
    (prev : (s.elem elt).prev = final none (nodes before)) :
    Chain (passPrev s elt).view none (nodes before) (s.elem elt).next ∧
      (passPrev s elt).list = ⟨first (s.elem elt).next (nodes before), s.list.tail⟩ := by
  obtain rfl | ⟨front, p, rfl⟩ := List.eq_nil_or_concat' before
  · refine ⟨trivial, ?_⟩
    rw [passPrev, prev]
    exact congrArg State.list (if_pos head)
  · have last : (s.elem elt).prev = some p := by simp [prev]
    have stored : passPrev s elt = setNext s p (s.elem elt).next := by rw [passPrev, last]
    simp only [nodes_append, nodes_cons, nodes_nil] at chain
    rw [stored]
    constructor
    · simp only [nodes_append, nodes_cons, nodes_nil]
      refine chain.relinkLast ?_ fun x there => view_congr (setNext_other _ ?_)
      · have old := (chain_snoc.mp chain).2
        simp only [State.view, Option.some.injEq, Node.mk.injEq] at old
        simp [State.view, old]
      · exact fun same =>
          List.disjoint_of_nodup_append distinct (mem_nodes.mp there) (by simp [same])
    · have kept : first (some elt) (nodes (front ++ [p])) =
          first (s.elem elt).next (nodes (front ++ [p])) := by
        simp [first_append]
      rw [← kept, ← head]
      rfl

theorem passNext_chain (chain : Chain s.view (some elt) (nodes after) none) (distinct : after.Nodup)
    (tail : s.list.tail = final (some elt) (nodes after))
    (next : (s.elem elt).next = first none (nodes after)) :
    Chain (passNext s elt).view (s.elem elt).prev (nodes after) none ∧
      (passNext s elt).list = ⟨s.list.head, final (s.elem elt).prev (nodes after)⟩ := by
  cases after with
  | nil =>
    refine ⟨trivial, ?_⟩
    rw [passNext, next]
    exact congrArg State.list (if_pos tail)
  | cons n rest =>
    have stored : passNext s elt = setPrev s n (s.elem elt).prev := by rw [passNext, next]; rfl
    rw [stored]
    constructor
    · refine chain.relinkFirst ?_ fun x there => view_congr (setPrev_other _ ?_)
      · have old := chain.1
        simp only [State.view, Option.some.injEq, Node.mk.injEq] at old
        simp [State.view, old]
      · exact fun same => (List.nodup_cons.mp distinct).1 (same ▸ mem_nodes.mp there)
    · rw [nodes_cons, final_cons, ← final_cons (some elt) (n, ()), ← nodes_cons, ← tail]
      rfl

theorem listRemoveElem_unlinked (prev : (s.elem elt).prev = none) (next : (s.elem elt).next = none)
    (head : s.list.head ≠ some elt) (tail : s.list.tail ≠ some elt) : listRemoveElem s elt = s := by
  have front : passPrev s elt = s := by
    rw [passPrev, prev]
    exact if_neg head
  have behind : passNext s elt = s := by
    rw [passNext, next]
    exact if_neg tail
  rw [listRemoveElem, front, behind, setPrev_same prev, setNext_same next]

theorem Linked.removeElem_absent (h : Linked s q) (there : elt ∈ q.initialised)
    (absent : elt ∉ q.elems) :
    listRemoveElem s elt = s :=
  listRemoveElem_unlinked (h.unlinked elt there absent).1 (h.unlinked elt there absent).2
    (h.head_ne absent) (h.tail_ne absent)

/-- The chain around `elt` is closed behind both `if`s, and `elt` has its links still. -/
theorem pass_chain (chain : Chain s.view none (nodes (before ++ elt :: after)) none)
    (head : s.list.head = first none (nodes (before ++ elt :: after)))
    (tail : s.list.tail = final none (nodes (before ++ elt :: after)))
    (distinct : (before ++ elt :: after).Nodup) :
    Chain (passNext (passPrev s elt) elt).view none (nodes (before ++ after)) none ∧
      (passNext (passPrev s elt) elt).list =
        ⟨first none (nodes (before ++ after)), final none (nodes (before ++ after))⟩ ∧
      ∀ a, a ∉ before → a ∉ after → (passNext (passPrev s elt) elt).elem a = s.elem a := by
  simp only [nodes_append, nodes_cons] at chain head tail ⊢
  rw [first_append, first_cons] at head
  rw [final_append, final_cons] at tail
  obtain ⟨front, here, behind⟩ := chain_append.mp chain
  simp only [State.view, Option.some.injEq, Node.mk.injEq, and_true] at here
  obtain ⟨prev, next⟩ := here
  obtain ⟨distinct_before, distinct_behind, apart⟩ := List.nodup_append.mp distinct
  obtain ⟨not_after, distinct_after⟩ := List.nodup_cons.mp distinct_behind
  have not_before : elt ∉ before := fun there => apart elt there elt List.mem_cons_self rfl
  have same₁ {a : α} (outside : a ∉ before) : (passPrev s elt).elem a = s.elem a :=
    passPrev_other fun found => by cases final_mem (prev ▸ found) outside
  have same₂ {a : α} (outside : a ∉ after) :
      (passNext (passPrev s elt) elt).elem a = (passPrev s elt).elem a := by
    refine passNext_other ?_
    rw [same₁ not_before, next]
    exact fun found => by cases first_mem found outside
  obtain ⟨front, list₁⟩ := passPrev_chain front distinct_before head prev
  have behind : Chain (passPrev s elt).view (some elt) (nodes after) none :=
    behind.frame fun x there => view_congr (same₁ fun inside =>
      apart x.1 inside x.1 (List.mem_cons_of_mem _ (mem_nodes.mp there)) rfl)
  obtain ⟨behind, list₂⟩ := passNext_chain behind distinct_after (by rw [list₁]; exact tail)
    (by rw [same₁ not_before, next])
  rw [same₁ not_before, prev] at behind list₂
  rw [next] at front list₁
  refine ⟨chain_append.mpr
    ⟨front.frame fun x there => view_congr (same₂ fun inside => ?_), behind⟩, ?_, ?_⟩
  · exact apart x.1 (mem_nodes.mp there) x.1 (List.mem_cons_of_mem _ inside) rfl
  · rw [list₂, list₁, first_append, final_append]
  · intro a front behind
    rw [same₂ behind, same₁ front]

theorem Linked.removeElem_present (h : Linked s q) (present : elt ∈ q.elems) :
    Linked (listRemoveElem s elt) (q.after (.removeElem elt : Op α δ)) ∧
      ∀ a ∉ q.elems, (listRemoveElem s elt).elem a = s.elem a := by
  obtain ⟨elts, inits⟩ := q
  obtain ⟨before, after, rfl⟩ := List.append_of_mem present
  obtain ⟨chain, list, same⟩ := pass_chain h.chain h.head h.tail h.distinct
  have not_before : elt ∉ before := fun there =>
    List.disjoint_of_nodup_append h.distinct there List.mem_cons_self
  have rest : (before ++ elt :: after).Nodup := h.distinct
  rw [List.nodup_middle, List.nodup_cons] at rest
  have erased : (before ++ elt :: after).erase elt = before ++ after := by
    rw [List.erase_append_right _ not_before, List.erase_cons_head]
  have kept {a : α} (other : a ≠ elt) :
      (listRemoveElem s elt).elem a = (passNext (passPrev s elt) elt).elem a := by
    rw [listRemoveElem, setNext_other _ other, setPrev_other _ other]
  have outside {a : α} (away : a ∉ before ++ elt :: after) :
      (listRemoveElem s elt).elem a = s.elem a := by
    simp only [List.mem_append, List.mem_cons, not_or] at away
    rw [kept away.2.1, same a away.1 away.2.2]
  refine ⟨?_, fun a away => outside away⟩
  rw [Sequence.after, erased]
  refine ⟨chain.frame fun x there => view_congr (kept ?_), ?_, ?_, rest.2, ?_⟩
  · exact ne_of_mem_of_not_mem (mem_nodes.mp there) rest.1
  · exact congrArg ListT.head list
  · exact congrArg ListT.tail list
  · intro a there away
    by_cases self : a = elt
    · subst self
      rw [listRemoveElem, setNext_self, setPrev_self]
      exact ⟨rfl, rfl⟩
    · have away : a ∉ before ++ elt :: after := by
        simp only [List.mem_append, List.mem_cons, not_or] at away ⊢
        exact ⟨away.1, self, away.2⟩
      rw [outside away]
      exact h.unlinked a there away

theorem Linked.removeElem (h : Linked s q) (there : elt ∈ q.initialised) :
    Linked (listRemoveElem s elt) (q.after (.removeElem elt : Op α δ)) := by
  by_cases present : elt ∈ q.elems
  · exact (h.removeElem_present present).1
  · have kept : q.after (.removeElem elt : Op α δ) = q := by
      rw [Sequence.after, List.erase_of_not_mem present]
    rwa [h.removeElem_absent there present, kept]

end Remove

theorem Linked.perform (h : Linked s q) {op : Op α δ} (admitted : q.Admits op) :
    Linked (perform s op) (q.after op) := by
  cases op with
  | elemInit elt datum => exact h.elemInit admitted datum
  | insertHead elt => exact h.insertHead admitted
  | insertTail elt => exact h.insertTail admitted
  | removeElem elt => exact h.removeElem admitted

theorem Linked.others (h : Linked s q) {op : Op α δ} (admitted : q.Admits op)
    (outside : a ∉ q.elems) (other : a ≠ op.elt) :
    (ElementList.perform s op).elem a = s.elem a := by
  cases op with
  | elemInit elt datum => exact Function.update_of_ne other ..
  | insertHead elt => exact insertHead_other other (h.head_ne outside)
  | insertTail elt => exact insertTail_other other (h.tail_ne outside)
  | removeElem elt =>
    by_cases present : elt ∈ q.elems
    · exact (h.removeElem_present present).2 a outside
    · exact congrArg (·.elem a) (h.removeElem_absent admitted present)

theorem Reached.init (elem : α → ListElem α δ) : Reached [] ⟨⟨none, none⟩, elem⟩ ⟨[], []⟩ :=
  ⟨⟨none, none⟩, _, elem, rfl, .nil⟩

theorem Reached.perform {ops : List (Op α δ)} (h : Reached ops s q) {op : Op α δ}
    (admitted : q.Admits op) :
    Reached (ops ++ [op]) (perform s op) (q.after op) := by
  obtain ⟨was, lst, elem, begun, run⟩ := h
  exact ⟨was, lst, elem, begun, run.snoc ⟨admitted, rfl⟩⟩

/-- A step keeps the list linked, and from that a history does. -/
theorem Reached.linked {ops : List (Op α δ)} (h : Reached ops s q) : Linked s q := by
  obtain ⟨was, lst, elem, begun, run⟩ := h
  obtain rfl := Option.some.inj begun
  refine run.invariant (fun w => Linked w.1 w.2) (.init elem) ?_
  rintro w op _ linked ⟨admitted, rfl⟩
  exact linked.perform admitted

/-- The list is the sequence: it is met from both ends, counted, and nothing but it and
the argument of an operation is written. -/
structure IsSequence (s : State α δ) (q : Sequence α) : Prop where
  forward : Visits (fun a => (s.elem a).next) s.list.head q.elems
  backward : Visits (fun a => (s.elem a).prev) s.list.tail q.elems.reverse
  distinct : q.elems.Nodup
  size : ∃ fuel, listSize s fuel = some (q.elems.length : Int)
  absent : ∀ elt ∈ q.initialised, elt ∉ q.elems → listRemoveElem s elt = s
  others : ∀ op : Op α δ, q.Admits op → ∀ a ∉ q.elems, a ≠ op.elt → (perform s op).elem a = s.elem a

/-- After every history, as long as the elements can be counted in an `int`. -/
theorem isSequence_iff {ops : List (Op α δ)} (h : Reached ops s q) :
    IsSequence s q ↔ (q.elems.length : Int) ≤ intMax := by
  have linked := h.linked
  constructor
  · exact fun sequence => linked.size_iff.mp sequence.size
  · intro small
    exact ⟨linked.forward, linked.backward, linked.distinct, linked.size_iff.mpr small,
      fun elt there outside => linked.removeElem_absent there outside,
      fun op admitted a outside other => linked.others admitted outside other⟩

theorem isSequence_removed :
    IsSequence
      (listRemoveElem (listInsertHead (listInsertTail
        (⟨⟨none, none⟩, fun _ => ⟨some 5, some 6, 0⟩⟩ : State Nat Nat) 1) 2) 1)
      ⟨[2], [2, 1]⟩ := by
  have begun := Reached.init (δ := Nat) fun _ : Nat => ⟨some 5, some 6, 0⟩
  have added := begun.perform (show Sequence.Admits _ (.insertTail 1) from List.not_mem_nil)
  have two := added.perform
    (show Sequence.Admits _ (.insertHead 2) by unfold Sequence.Admits; decide)
  have removed :=
    two.perform (show Sequence.Admits _ (.removeElem 1) by unfold Sequence.Admits; decide)
  exact (isSequence_iff removed).mpr (by decide)

def elemAt (i : Nat) : UInt64 := UInt64.ofNat (24 * (i + 1))

theorem elemAt_toNat {i : Nat} (h : i ≤ 2 ^ 32) : (elemAt i).toNat = 24 * (i + 1) :=
  UInt64.toNat_ofNat_of_lt' (by rw [UInt64.size]; omega)

theorem elemAt_injective {i j : Nat} (hi : i ≤ 2 ^ 32) (hj : j ≤ 2 ^ 32) (h : elemAt i = elemAt j) :
    i = j := by
  have same : 24 * (i + 1) = 24 * (j + 1) := by rw [← elemAt_toNat hi, ← elemAt_toNat hj, h]
  omega

theorem reached_many (elem : UInt64 → ListElem UInt64 UInt64) (n : Nat) (few : n ≤ 2 ^ 32) :
    ∃ (ops : List (Op UInt64 UInt64)) (s : State UInt64 UInt64) (inits : List UInt64),
      Reached ops s ⟨(List.range n).map elemAt, inits⟩ := by
  induction n with
  | zero => exact ⟨_, _, _, .init elem⟩
  | succ n ih =>
    obtain ⟨ops, s, inits, before⟩ := ih (Nat.le_of_succ_le few)
    have absent : elemAt n ∉ (List.range n).map elemAt := by
      intro there
      obtain ⟨i, inside, same⟩ := List.mem_map.mp there
      have below := List.mem_range.mp inside
      have equal := elemAt_injective (by omega) (by omega) same
      omega
    have next := before.perform (show Sequence.Admits _ (.insertTail (elemAt n)) from absent)
    rw [List.range_succ, List.map_append]
    exact ⟨_, _, _, next⟩

theorem exists_long {n : Nat} (few : n ≤ 2 ^ 32) (large : intMax < n) :
    ∃ (ops : List (Op UInt64 UInt64)) (s : State UInt64 UInt64) (q : Sequence UInt64),
      Reached ops s q ∧ ¬IsSequence s q := by
  obtain ⟨ops, s, inits, reached⟩ := reached_many (fun _ => ⟨none, none, 0⟩) n few
  refine ⟨ops, s, _, reached, fun sequence => ?_⟩
  have small := reached.linked.size_iff.mp sequence.size
  rw [List.length_map, List.length_range] at small
  omega

theorem isSequence_missed :
    ¬∀ (ops : List (Op UInt64 UInt64)) s q, Reached ops s q → IsSequence s q := by
  intro all
  have large : intMax < (2 ^ 31 : Nat) := by decide
  obtain ⟨ops, s, q, reached, missed⟩ := exists_long (by decide) large
  exact missed (all ops s q reached)

end LastPicked.ElementList
