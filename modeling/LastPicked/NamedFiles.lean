import Mathlib.Data.List.Nodup
import Mathlib.Logic.Function.Basic

/-! Files with names, and cursors on them. The files are kept in the order in which
they were made. A cursor is closed or at a position of a file, where the position behind
the last element counts, so that a store with a cursor outside of its file cannot be built. -/

namespace LastPicked.NamedFiles

variable {ν : Type*} {β : Type*} {κ : Type*}

def overwrite (bytes : List β) (pos : Nat) (data : List β) : List β :=
  bytes.take pos ++ data ++ bytes.drop (pos + data.length)

@[simp] theorem overwrite_length {bytes data : List β} {pos : Nat} (within : pos ≤ bytes.length) :
    (overwrite bytes pos data).length = max bytes.length (pos + data.length) := by
  simp only [overwrite, List.length_append, List.length_take, List.length_drop]
  omega

theorem overwrite_outside {bytes data : List β} {pos t : Nat} (within : pos ≤ bytes.length)
    (out : t < pos ∨ pos + data.length ≤ t) : (overwrite bytes pos data)[t]? = bytes[t]? := by
  have front : (bytes.take pos).length = pos := List.length_take_of_le within
  rw [overwrite, List.append_assoc]
  rcases out with before | behind
  · rw [List.getElem?_append_left (by omega), List.getElem?_take_of_lt before]
  · rw [List.getElem?_append_right (by omega), List.getElem?_append_right (by omega),
      List.getElem?_drop, front]
    congr 1
    omega

theorem overwrite_inside {bytes data : List β} {pos t : Nat} (within : pos ≤ bytes.length)
    (ht : t < data.length) :
    (overwrite bytes pos data)[pos + t]? = data[t]? := by
  have front : (bytes.take pos).length = pos := List.length_take_of_le within
  rw [overwrite, List.append_assoc, List.getElem?_append_right (by omega), front,
    Nat.add_sub_cancel_left, List.getElem?_append_left ht]

structure Store (ν β κ : Type*) where
  files : List (ν × List β)
  cursors : κ → Option (ν × Nat)
  distinct : (files.map Prod.fst).Nodup
  within : ∀ c p, cursors c = some p → ∃ f ∈ files, f.1 = p.1 ∧ p.2 ≤ f.2.length

namespace Store

def Holds (s : Store ν β κ) (name : ν) (pos : Nat) : Prop :=
  ∃ f ∈ s.files, f.1 = name ∧ pos ≤ f.2.length

instance [DecidableEq ν] (s : Store ν β κ) (name : ν) (pos : Nat) : Decidable (s.Holds name pos) :=
  inferInstanceAs (Decidable (∃ f ∈ s.files, f.1 = name ∧ pos ≤ f.2.length))

def names (s : Store ν β κ) : List ν := s.files.map Prod.fst

def empty : Store ν β κ := ⟨[], fun _ => none, .nil, nofun⟩

section
variable {s : Store ν β κ} {name : ν} {pos : Nat}

theorem holds_zero : s.Holds name 0 ↔ name ∈ s.names := by
  simp [Holds, names]

theorem eq_of_mem {f g : ν × List β} (hf : f ∈ s.files) (hg : g ∈ s.files) (same : f.1 = g.1) :
    f = g :=
  List.inj_on_of_nodup_map s.distinct hf hg same

theorem index_unique {j k : Nat} {f g : ν × List β} (hj : s.files[j]? = some f)
    (hk : s.files[k]? = some g) (same : f.1 = g.1) : j = k := by
  have first :
    (s.files.map Prod.fst)[j]? = some f.1 := by rw [List.getElem?_map, hj, Option.map_some]
  have second :
    (s.files.map Prod.fst)[k]? = some f.1 := by rw [List.getElem?_map, hk, Option.map_some, same]
  obtain ⟨bound, -⟩ := List.getElem?_eq_some_iff.mp first
  exact (List.getElem?_inj bound s.distinct).mp (first.trans second.symm)

end

variable [DecidableEq ν]

def contentsOf (s : Store ν β κ) (name : ν) : List β :=
  ((s.files.find? fun f => f.1 = name).map Prod.snd).getD []

theorem contentsOf_of_mem {s : Store ν β κ} {f : ν × List β} (hf : f ∈ s.files) :
    s.contentsOf f.1 = f.2 := by
  unfold contentsOf
  cases found : s.files.find? fun g => g.1 = f.1 with
  | none => simpa using List.find?_eq_none.mp found f hf
  | some g =>
    have same : g.1 = f.1 := by simpa using List.find?_some found
    rw [eq_of_mem (List.mem_of_find?_eq_some found) hf same]
    rfl

theorem holds_iff {s : Store ν β κ} {name : ν} {pos : Nat} :
    s.Holds name pos ↔ name ∈ s.names ∧ pos ≤ (s.contentsOf name).length := by
  constructor
  · rintro ⟨f, hf, rfl, upto⟩
    exact ⟨List.mem_map_of_mem hf, by rwa [contentsOf_of_mem hf]⟩
  · rintro ⟨there, upto⟩
    obtain ⟨f, hf, rfl⟩ := List.mem_map.mp there
    exact ⟨f, hf, rfl, by rwa [contentsOf_of_mem hf] at upto⟩

def slice (s : Store ν β κ) (name : ν) (pos n : Nat) : List β :=
  ((s.contentsOf name).drop pos).take n

theorem holds_slice {s : Store ν β κ} {c : κ} {p : ν × Nat} (opened : s.cursors c = some p)
    (n : Nat) :
    s.Holds p.1 (p.2 + (s.slice p.1 p.2 n).length) := by
  obtain ⟨f, hf, name, upto⟩ := s.within c p opened
  refine ⟨f, hf, name, ?_⟩
  rw [slice, ← name, contentsOf_of_mem hf, List.length_take, List.length_drop]
  omega

def closeAll (s : Store ν β κ) : Store ν β κ := ⟨s.files, fun _ => none, s.distinct, nofun⟩

def create (s : Store ν β κ) (name : ν) (fresh : name ∉ s.names) : Store ν β κ where
  files := s.files ++ [(name, [])]
  cursors := s.cursors
  distinct := by
    rw [List.map_append]
    refine s.distinct.append (List.nodup_singleton name) fun a before new => ?_
    obtain rfl : a = name := List.mem_singleton.mp new
    exact fresh before
  within c p opened := by
    obtain ⟨f, hf, rest⟩ := s.within c p opened
    exact ⟨f, List.mem_append_left _ hf, rest⟩

def delete (s : Store ν β κ) (name : ν) (unused : ∀ c, (s.cursors c).map Prod.fst ≠ some name) :
    Store ν β κ where
  files := s.files.filter fun f => f.1 ≠ name
  cursors := s.cursors
  distinct := s.distinct.sublist (List.filter_sublist.map Prod.fst)
  within c p opened := by
    obtain ⟨f, hf, same, upto⟩ := s.within c p opened
    refine ⟨f, List.mem_filter.mpr ⟨hf, ?_⟩, same, upto⟩
    have other := unused c
    rw [opened] at other
    simpa [same] using other

theorem delete_files {s : Store ν β κ} {name : ν} {k : Nat} {f : ν × List β}
    (hk : s.files[k]? = some f) (named : f.1 = name)
    (unused : ∀ c, (s.cursors c).map Prod.fst ≠ some name) :
    (s.delete name unused).files = s.files.eraseIdx k := by
  obtain ⟨bound, rfl⟩ := List.getElem?_eq_some_iff.mp hk
  have split : s.files = s.files.take k ++ s.files[k] :: s.files.drop (k + 1) := by
    rw [List.getElem_cons_drop, List.take_append_drop]
  have others (j : Nat) (hj : j < s.files.length) (other : j ≠ k) : s.files[j].1 ≠ name :=
    fun same => other (index_unique (List.getElem?_eq_getElem hj) hk (same.trans named.symm))
  have front : (s.files.take k).filter (fun f => f.1 ≠ name) = s.files.take k := by
    refine List.filter_eq_self.mpr fun g hg => ?_
    obtain ⟨j, hj, rfl⟩ := List.getElem_of_mem hg
    rw [List.length_take] at hj
    simpa using others j (by omega) (by omega)
  have back : (s.files.drop (k + 1)).filter (fun f => f.1 ≠ name) = s.files.drop (k + 1) := by
    refine List.filter_eq_self.mpr fun g hg => ?_
    obtain ⟨j, hj, rfl⟩ := List.getElem_of_mem hg
    rw [List.length_drop] at hj
    simpa using others (k + 1 + j) (by omega) (by omega)
  change s.files.filter (fun f => f.1 ≠ name) = _
  rw [List.eraseIdx_eq_take_drop_succ]
  conv_lhs => rw [split]
  rw [List.filter_append, front, List.filter_cons_of_neg (by simpa using named), back]

theorem takeWhile_files {s : Store ν β κ} {k : Nat} {f : ν × List β} (hk : s.files[k]? = some f) :
    s.files.takeWhile (fun g => g.1 ≠ f.1) = s.files.take k := by
  obtain ⟨bound, same⟩ := List.getElem?_eq_some_iff.mp hk
  have split : s.files = s.files.take k ++ f :: s.files.drop (k + 1) := by
    rw [← same, List.getElem_cons_drop, List.take_append_drop]
  have front : ∀ g ∈ s.files.take k, decide (g.1 ≠ f.1) = true := by
    intro g hg
    obtain ⟨j, hj, rfl⟩ := List.getElem_of_mem hg
    rw [List.length_take] at hj
    refine decide_eq_true fun same => ?_
    rw [List.getElem_take] at same
    have twice := index_unique (List.getElem?_eq_getElem (by omega)) hk same
    omega
  conv_lhs => rw [split]
  rw [List.takeWhile_append_of_pos front, List.takeWhile_cons_of_neg (by simp), List.append_nil]

def edit (name : ν) (pos : Nat) (data : List β) (f : ν × List β) : ν × List β :=
  if f.1 = name then (f.1, overwrite f.2 pos data) else f

@[simp] theorem edit_name (name : ν) (pos : Nat) (data : List β) (f : ν × List β) :
    (edit name pos data f).1 = f.1 := by
  unfold edit
  split <;> rfl

theorem edit_longer {s : Store ν β κ} {name : ν} {pos : Nat} {f : ν × List β}
    (there : s.Holds name pos) (hf : f ∈ s.files) (data : List β) :
    f.2.length ≤ (edit name pos data f).2.length := by
  unfold edit
  split
  case isTrue same =>
    obtain ⟨g, hg, named, upto⟩ := there
    obtain rfl := eq_of_mem hf hg (same.trans named.symm)
    rw [overwrite_length upto]
    exact Nat.le_max_left _ _
  case isFalse => exact Nat.le_refl _

variable [DecidableEq κ]

def move (s : Store ν β κ) (c : κ) (name : ν) (pos : Nat) (there : s.Holds name pos) :
    Store ν β κ where
  files := s.files
  cursors := Function.update s.cursors c (some (name, pos))
  distinct := s.distinct
  within e p opened := by
    by_cases same : e = c
    · subst same
      rw [Function.update_self] at opened
      obtain rfl := Option.some.inj opened
      exact there
    · rw [Function.update_of_ne same] at opened
      exact s.within e p opened

def close (s : Store ν β κ) (c : κ) : Store ν β κ where
  files := s.files
  cursors := Function.update s.cursors c none
  distinct := s.distinct
  within e p opened := by
    by_cases same : e = c
    · subst same
      simp at opened
    · rw [Function.update_of_ne same] at opened
      exact s.within e p opened

def write (s : Store ν β κ) (c : κ) (p : ν × Nat) (data : List β) (opened : s.cursors c = some p) :
    Store ν β κ where
  files := s.files.map (edit p.1 p.2 data)
  cursors := Function.update s.cursors c (some (p.1, p.2 + data.length))
  distinct := by
    have same : Prod.fst ∘ edit (β := β) p.1 p.2 data = Prod.fst :=
      funext fun f => edit_name p.1 p.2 data f
    rw [List.map_map, same]
    exact s.distinct
  within e q opened' := by
    have there := s.within c p opened
    by_cases same : e = c
    · subst same
      rw [Function.update_self] at opened'
      obtain rfl := Option.some.inj opened'
      obtain ⟨f, hf, name, upto⟩ := there
      refine ⟨_, List.mem_map_of_mem hf, (edit_name ..).trans name, ?_⟩
      rw [edit, if_pos name, overwrite_length upto]
      exact Nat.le_max_right _ _
    · rw [Function.update_of_ne same] at opened'
      obtain ⟨f, hf, name, upto⟩ := s.within e q opened'
      exact ⟨_, List.mem_map_of_mem hf, (edit_name ..).trans name,
        Nat.le_trans upto (edit_longer there hf data)⟩

end Store

end LastPicked.NamedFiles
