import LastPicked.CIntegers
import LastPicked.HeapCells

/-! The input of the shell: the lines that getStrings.c reads from a file. Every
allocation succeeds. A store outside of a block, and a read of a byte nothing was
stored to, have no result. -/

namespace LastPicked.Shell
open CIntegers HeapCells

def eof : Int := -1

def newline : UInt8 := 10

/-- The loop of `getStringFromFile`, with the bytes of the file that are left.
Behind the last one `fgetc` gives `EOF`. -/
def lineLoop : (file : List UInt8) → (str : Cells UInt8) → (len : Nat) →
    Option (Int × Cells UInt8 × Nat × List UInt8)
  | [], str, len => some (toChar eof, str, len, [])
  | b :: file, str, len =>
      let c := toChar b.toNat
      if c = newline.toNat ∨ c = eof then some (c, str, len, file)
      else do
        let str ← put str len (UInt8.ofInt c)
        let len := toUnsigned (len + 1)
        lineLoop file (realloc str (toUnsigned (len + 1))) len

def getStringFromFile (file : List UInt8) : Option (Option (Cells UInt8) × List UInt8) := do
  let (c, str, len, file) ← lineLoop file (malloc UInt8 1) 0
  let str ← put str len 0
  some (if c = eof ∧ len = 0 then none else some str, file)

theorem toChar_eof : toChar eof = eof := by decide

theorem lineLoop_rest {file rest : List UInt8} {str str' : Cells UInt8} {len len' : Nat} {c : Int}
    (h : lineLoop file str len = some (c, str', len', rest)) :
    rest.length < file.length ∨ file = [] ∧ c = eof ∧ len' = len := by
  induction file generalizing str len with
  | nil =>
    rw [lineLoop, toChar_eof] at h
    cases h
    exact .inr ⟨rfl, rfl, rfl⟩
  | cons b file ih =>
    unfold lineLoop at h
    dsimp only at h
    split at h
    case isTrue =>
      simp only [Option.some.injEq, Prod.mk.injEq] at h
      obtain ⟨-, -, -, rfl⟩ := h
      exact .inl (Nat.lt_succ_self _)
    case isFalse =>
      obtain ⟨str₁, -, h⟩ := Option.bind_eq_some_iff.mp h
      rcases ih h with shorter | ⟨rfl, -⟩
      · exact .inl (shorter.trans (Nat.lt_succ_self _))
      · cases h
        exact .inl (Nat.succ_pos _)

theorem getStringFromFile_rest {file rest : List UInt8} {str : Cells UInt8}
    (h : getStringFromFile file = some (some str, rest)) : rest.length < file.length := by
  obtain ⟨⟨c, str₁, len, rest₁⟩, loop, h⟩ := Option.bind_eq_some_iff.mp h
  obtain ⟨str₂, -, h⟩ := Option.bind_eq_some_iff.mp h
  simp only [Option.some.injEq, Prod.mk.injEq] at h
  obtain ⟨given, rfl⟩ := h
  rcases lineLoop_rest loop with shorter | ⟨-, ended, none⟩
  · exact shorter
  · rw [if_pos ⟨ended, none⟩] at given
    cases given

/-- The lines that the loop over a batch file gets, up to the first NULL, and the
bytes of the file that are left. -/
def readBatch (file : List UInt8) : Option (List (List UInt8) × List UInt8) :=
  match _ : getStringFromFile file with
  | none => none
  | some (none, rest) => some ([], rest)
  | some (some str, rest) => do
      let line ← upTo 0 str
      let (lines, last) ← readBatch rest
      some (line :: lines, last)
termination_by file.length
decreasing_by exact getStringFromFile_rest ‹_›

end LastPicked.Shell
