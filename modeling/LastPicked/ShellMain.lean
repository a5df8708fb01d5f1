import LastPicked.ChildProcesses
import LastPicked.ShellModel
import LastPicked.ShellParser

/-! `main` of shell.c, from the first line on. What `fork`, `wait` and `waitpid` return is a
parameter, and so is whether `execvp` finds a program; a program that is started leaves the
batch file alone. The splitting of a command has no result when `turns` turns are not enough. -/

namespace LastPicked.Shell
open CIntegers HeapCells ChildProcesses

abbrev Argv := List (List UInt8)

/-- What the shell does: the lines that it reads, the commands that it forks for, and the waits. -/
abbrev Event := ChildProcesses.Event Argv (List UInt8)

/-- `"quit"` -/
def quit : List UInt8 := [113, 117, 105, 116]

def ampersand : List UInt8 := [38]

def argument (mem : List UInt8) (args : Cells (Option Nat)) (k : Nat) : Option (List UInt8) :=
  args[k]?.bind fun cell => cell.bind fun ptr => ptr.bind (textAt mem)

def argv (mem : List UInt8) (args : Cells (Option Nat)) : Option Argv :=
  (upTo none args).bind fun ptrs => ptrs.mapM fun ptr => ptr.bind (textAt mem)

structure Variables where
  mem : List UInt8
  keepRunning : Bool
  events : List Event

variable (os : System Argv (List UInt8)) (execvp : List Event → Argv → Bool) (turns : Nat)

def command (s : Variables) (cmd : Nat) : Option Variables := do
  let (ret, argnum, mem) ← splitCommandAndArgs turns s.mem (some cmd) 0
  match ret with
  | none => some { s with mem }
  | some args =>
    if argnum = 0 then some { s with mem }
    else do
      let name ← argument mem args 0
      if name = quit then some { s with mem, keepRunning := false }
      else do
        let argv ← argv mem args
        let last ← argument mem args (argnum - 1).toNat
        let pid := os.fork s.events
        -- the `exit(1)` behind a failed `execvp` moves the offset of the batch file, which
        -- the child shares with the shell: what is read from there on is not modelled
        if pid ≠ none ∧ execvp s.events argv = false then none
        else do
          let events := s.events ++ [.fork pid argv]
          some { s with mem, events := if last ≠ ampersand then os.waitpid events pid else events }

def commandLoop : (cmds : Cells (Option Nat)) → Variables → (i : Nat) → Option (Variables × Nat)
  | some (some cmd) :: cmds, s, i => do
      let s ← command os execvp turns s cmd
      commandLoop cmds s (i + 1)
  | some none :: _, s, i => some (s, i)
  | none :: _, _, _ => none
  | [], _, _ => none

def runLine (line : List UInt8) (events : List Event) : Option (Bool × List Event) := do
  let (cmds, mem) ← getCommands (some (line ++ [0]))
  match cmds with
  | none => some (false, events)
  | some cmds => do
      let (s, i) ← commandLoop os execvp turns cmds ⟨mem, true, events⟩ 0
      some (s.keepRunning, os.waitLoop i s.events)

/-- `while (keep_running)`, over a batch file or what is typed. -/
def mainLoop (file : List UInt8) (events : List Event) : Option (List Event) :=
  match _ : getStringFromFile file with
  | none => none
  | some (none, _) => some events
  | some (some str, rest) => do
      let line ← upTo 0 str
      let (keepRunning, events) ← runLine os execvp turns line (events ++ [.other line])
      if keepRunning then mainLoop rest events else some events
termination_by file.length
decreasing_by exact getStringFromFile_rest ‹_›

end LastPicked.Shell
