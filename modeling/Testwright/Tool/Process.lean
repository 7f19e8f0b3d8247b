import Testwright.Disk.Basic

/-!
# Running programs

A program is invoked with arguments and ends with a status and two streams of output. How programs
run is a parameter (`Launcher`): it changes the disk, and may refuse to start a program at all.
-/

namespace Testwright

/-- A program and its arguments. -/
structure Invocation where
  program : String
  arguments : List String
  deriving DecidableEq, Repr, Inhabited

/-- How a program ends. -/
inductive ExitStatus where
  | exited (code : Nat)
  | killed (signal : Nat)
  deriving DecidableEq, Repr, Inhabited

namespace ExitStatus

/-- Whether a program ended well. -/
def isSuccess (s : ExitStatus) : Bool := s == exited 0

/-- The signals with their numbers. -/
def signals : List (Nat × String) :=
  [(1, "HUP"), (2, "INT"), (3, "QUIT"), (4, "ILL"), (5, "TRAP"), (6, "ABRT"), (7, "BUS"),
    (8, "FPE"), (9, "KILL"), (10, "USR1"), (11, "SEGV"), (12, "USR2"), (13, "PIPE"),
    (14, "ALRM"), (15, "TERM"), (16, "STKFLT"), (17, "CHLD"), (18, "CONT"), (19, "STOP"),
    (20, "TSTP"), (21, "TTIN"), (22, "TTOU"), (23, "URG"), (24, "XCPU"), (25, "XFSZ"),
    (26, "VTALRM"), (27, "PROF"), (28, "WINCH"), (29, "IO"), (30, "PWR"), (31, "SYS")]

/-- The status in words. -/
def text : ExitStatus → String
  | exited code => "exit status: " ++ toString code
  | killed signal =>
    let name := match signals.find? fun s => s.1 == signal with
      | some (_, name) => " (SIG" ++ name ++ ")"
      | none => ""
    "signal: " ++ toString signal ++ name

/-- The status as a number, as a shell knows it. -/
def code : ExitStatus → Nat
  | exited code => code
  | killed signal => 128 + signal

end ExitStatus

/-- What a program leaves behind. -/
structure Output where
  status : ExitStatus := .exited 0
  stdout : Bytes := []
  stderr : Bytes := []
  deriving DecidableEq, Repr, Inhabited

namespace Output

/-- A stream as a text without blanks around it. -/
def trimmed (stream : Bytes) : String := onChars Text.trim (Utf8.lenient stream)

/-- Both streams as one text, errors first. -/
def diagnostics (o : Output) : String :=
  let out := trimmed o.stdout
  let err := trimmed o.stderr
  if out.isEmpty then err else if err.isEmpty then out else err ++ "\n" ++ out

end Output

/-- How programs run: what a program leaves behind, or why it does not start. -/
abbrev Launcher := Invocation → Disk → Except DiskError Output × Disk

end Testwright
