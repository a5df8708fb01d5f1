import LastPicked.ShellParser

/-! The older shell, myshell.c: a turn of its loop, from the line that `fgets` stored to
what the child gives to `execvp`. An access outside of the line or of `args`, and a string
function that is given NULL, have no result. -/

namespace LastPicked.MyShell
open HeapCells Shell

def maxLine : Nat := 80

def newline : UInt8 := 10

/-- `"exit\n"` -/
def exitLine : List UInt8 := [101, 120, 105, 116, 10]

def ampersand : List UInt8 := [38]

abbrev Args := Cells (Option Nat)

/-- `args[i]`. A slot nothing was stored to has no value. -/
def slot (args : Args) (i : Nat) : Option (Option Nat) := args[i]?.join

def fgets (line buff : List UInt8) : List UInt8 := line ++ 0 :: buff.drop (line.length + 1)

/-- `while ((args[i] = strtok(NULL, " ")) != NULL) i++;` -/
def argsLoop (buff : List UInt8) (save i : Nat) (args : Args) :
    Option (Nat × Args × Nat × List UInt8) :=
  match _ : strtok buff save space with
  | none => none
  | some (none, save, buff) => (put args i none).map (i, ·, save, buff)
  | some (some string, save, buff) => do
      let args ← put args i (some string)
      argsLoop buff save (i + 1) args
termination_by buff.length - save
decreasing_by exact strtok_progress ‹_›

/-- The number of arguments, `args`, and `buff` with NULs written into it. When it is
given NULL, `strtok` goes on with the string it is in. -/
def splitLine (buff : List UInt8) (args : Args) : Option (Nat × Args × List UInt8) := do
  let (first, save, buff) ← strtok buff 0 space
  let args ← put args 0 first
  let (i, args, save, buff) ← argsLoop buff save 1 args
  let last ← slot args (i - 1)
  let (string, _, buff) ← strtok buff (last.getD save) newline
  let args ← put args (i - 1) string
  some (i, args, buff)

def turn (buff : List UInt8) (args : Args) : Option (Option (Nat × Args × List UInt8)) := do
  let line ← textAt buff 0
  if line = exitLine then some none else (splitLine buff args).map some

def processManager (buff : List UInt8) (args : Args) (i : Nat) : Option (Option Nat × Args) := do
  let last ← slot args (i - 1)
  let text ← textAt buff (← last)
  let args ← (if text = ampersand then put args (i - 1) none else some args)
  let file ← slot args 0
  some (file, args)

end LastPicked.MyShell
