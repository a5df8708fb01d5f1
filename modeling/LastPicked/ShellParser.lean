import LastPicked.CIntegers
import LastPicked.HeapCells
import LastPicked.Tokens

/-! The parser of shell.c: `getCommands`, which cuts a line at its semicolons, and
`splitCommandAndArgs`, which cuts a command at its spaces. Both write into the line
itself and give offsets into it for the pointers. Every allocation succeeds. An
access outside of the line or of a block, and an `int` that overflows, have no
result. -/

namespace LastPicked.Shell
open CIntegers HeapCells Tokens

def semicolon : UInt8 := 59

def space : UInt8 := 32

def textAt (mem : List UInt8) (p : Nat) : Option (List UInt8) :=
  if 0 ∈ mem.drop p then some ((mem.drop p).takeWhile (· ≠ 0)) else none

variable {mem s : List UInt8} {p : Nat}

theorem getElem?_behind (before : List UInt8) (b : UInt8) (after : List UInt8) :
    (before ++ b :: after)[before.length]? = some b := by
  rw [List.getElem?_append_right le_rfl, Nat.sub_self, List.getElem?_cons_zero]

theorem textAt_of_drop {after : List UInt8} (plain : 0 ∉ s)
    (behind : mem.drop p = s ++ 0 :: after) :
    textAt mem p = some s := by
  rw [textAt, behind, if_pos (by simp)]
  refine congrArg some (takeWhile_stop (fun b there => ?_) (by simp) after)
  simpa using ne_of_mem_of_not_mem there plain

theorem textAt_append (plain : 0 ∉ s) (before after : List UInt8) :
    textAt (before ++ (s ++ 0 :: after)) before.length = some s :=
  textAt_of_drop plain List.drop_left

theorem textAt_eq_some : textAt mem p = some s ↔
    0 ∉ s ∧ ∃ before after, mem = before ++ (s ++ 0 :: after) ∧ before.length = p := by
  constructor
  · intro h
    unfold textAt at h
    split at h
    case isFalse => cases h
    case isTrue inside =>
      obtain rfl := Option.some.inj h
      refine ⟨fun there => by simpa using List.mem_takeWhile_imp there, mem.take p, ?_⟩
      have whole :=
        @List.takeWhile_append_dropWhile _ (fun b : UInt8 => decide (b ≠ 0)) (mem.drop p)
      have within : p < mem.length := by
        have some := List.length_pos_of_mem inside
        rw [List.length_drop] at some
        omega
      cases behind : (mem.drop p).dropWhile fun b => decide (b ≠ 0) with
      | nil =>
        rw [List.dropWhile_eq_nil_iff] at behind
        simpa using behind 0 inside
      | cons b after =>
        have stops := List.head?_dropWhile_not (fun b : UInt8 => decide (b ≠ 0)) (mem.drop p)
        rw [behind] at stops whole
        obtain rfl : b = 0 := by simpa using stops
        exact ⟨after, by rw [whole, List.take_append_drop], by rw [List.length_take]; omega⟩
  · rintro ⟨plain, before, after, rfl, rfl⟩
    exact textAt_append plain before after

theorem map_textAt {d : UInt8} {xs : List UInt8} (plain : 0 ∉ xs) (before : List UInt8)
    {after : List UInt8} (nul : 0 ∈ after)
    (ends : inToken d false xs = true → ∃ more, after = 0 :: more) :
    (starts d false before.length xs).map (textAt (before ++ (cut d 0 false xs ++ after))) =
      (tokens d xs).map some := by
  rw [← map_starts plain before ends, List.map_map]
  refine List.map_congr_left fun p there => if_pos ?_
  have range := starts_range false there
  rw [← List.append_assoc,
    List.drop_append_of_le_length (by rw [List.length_append, cut_length]; omega)]
  exact List.mem_append_right _ nul

def strlen (mem : List UInt8) (p : Nat) : Option Nat := (textAt mem p).map List.length

/-- `strtok` with a single delimiter, for the string that is left at `save`: the
offset of the token, or NULL, and where the next call goes on. -/
def strtok (mem : List UInt8) (save : Nat) (delim : UInt8) :
    Option (Option Nat × Nat × List UInt8) := do
  let start := save + ((mem.drop save).takeWhile (· = delim)).length
  let first ← mem[start]?
  if first = 0 then some (none, start, mem)
  else do
    let stop := start + ((mem.drop start).takeWhile fun b => b ≠ delim ∧ b ≠ 0).length
    let last ← mem[stop]?
    if last = 0 then some (some start, stop, mem) else some (some start, stop + 1, mem.set stop 0)

def countLoop (mem : List UInt8) : (k i : Nat) → (count : Int) → Option Int
  | 0, _, count => some count
  | k + 1, i, count => do
      let b ← mem[i]?
      let count ← if b = semicolon then addInt count 1 else some count
      countLoop mem k (i + 1) count

/-- A token is not empty, so the next call goes on behind its start. -/
theorem strtok_progress {mem mem' : List UInt8} {save save' p : Nat} {delim : UInt8}
    (h : strtok mem save delim = some (some p, save', mem')) :
    mem'.length - save' < mem.length - save := by
  obtain ⟨first, found, h⟩ := Option.bind_eq_some_iff.mp h
  dsimp only at h
  split at h
  case isTrue => cases h
  case isFalse nonzero =>
    obtain ⟨last, found_last, h⟩ := Option.bind_eq_some_iff.mp h
    have inside := (List.getElem?_eq_some_iff.mp found).1
    have other : first ≠ delim := by
      rw [← List.getElem?_drop] at found
      simpa using takeWhile_fails found
    have taken : 0 < ((mem.drop (save + ((mem.drop save).takeWhile (· = delim)).length)).takeWhile
        fun b => b ≠ delim ∧ b ≠ 0).length := by
      rw [List.drop_eq_getElem_cons inside, (List.getElem?_eq_some_iff.mp found).2,
        List.takeWhile_cons_of_pos (by simp [other, nonzero])]
      exact Nat.succ_pos _
    split at h
    all_goals
      simp only [Option.some.injEq, Prod.mk.injEq] at h
      obtain ⟨-, rfl, rfl⟩ := h
    case isTrue => omega
    case isFalse =>
      rw [List.length_set]
      omega

def tokenLoop (mem : List UInt8) (save i : Nat) (list : Cells (Option Nat)) :
    Option (Cells (Option Nat) × List UInt8) :=
  match _ : strtok mem save semicolon with
  | none => none
  | some (none, _, mem) => (put list i none).map (·, mem)
  | some (some string, save, mem) => do
      let list ← put list i (some string)
      tokenLoop mem save (i + 1) list
termination_by mem.length - save
decreasing_by exact strtok_progress ‹_›

def getCommands : (input : Option (List UInt8)) → Option (Option (Cells (Option Nat)) × List UInt8)
  | none => some (none, [])
  | some mem => do
      let length ← strlen mem 0
      let size := toInt length
      let count ← countLoop mem size.toNat 0 1
      let cells ← addInt 1 count
      let (list, mem) ← tokenLoop mem 0 0 (malloc (Option Nat) cells.toNat)
      some (some list, mem)

inductive State
  | whitespace
  | character
  deriving DecidableEq

structure Split where
  mem : List UInt8
  state : State
  i : Nat
  numArgs : Nat
  ret : Cells (Option Nat)

def splitTurn (line : Nat) (s : Split) : Option (Option Split) := do
  let c ← s.mem[line + s.i]?
  let i := toUnsigned (s.i + 1)
  if c = semicolon ∨ c = 0 then some none
  else match s.state with
    | .character =>
        if c = space then some (some { s with i })
        else do
          let numArgs := toUnsigned (s.numArgs + 1)
          let ret ← put (realloc s.ret numArgs) (toUnsigned (numArgs + (2 ^ 32 - 1)))
            (some (line + s.i))
          some (some { s with state := .whitespace, i, numArgs, ret })
    | .whitespace =>
        if c ≠ space then some (some { s with i })
        else some (some { s with mem := s.mem.set (line + s.i) 0, state := .character, i })

def splitLoop (line : Nat) : (k : Nat) → Split → Option Split
  | 0, _ => none
  | k + 1, s => do
      match ← splitTurn line s with
      | none => some s
      | some s => splitLoop line k s

/-- The array, or NULL, what is in `numberArgs`, and the line, when `k` turns are
enough. -/
def splitCommandAndArgs (k : Nat) (mem : List UInt8) (line : Option Nat) (numberArgs : Int) :
    Option (Option (Cells (Option Nat)) × Int × List UInt8) :=
  match line with
  | none => some (none, numberArgs, mem)
  | some line => do
      let s ← splitLoop line k ⟨mem, .character, 0, 0, malloc (Option Nat) 1⟩
      let ret ← put (realloc s.ret (toUnsigned (s.numArgs + 1))) s.numArgs none
      some (some ret, toInt s.numArgs, s.mem)

end LastPicked.Shell
