import Xv6.Lib.Run
import Xv6.Sh.Parse

/-! How the shell runs a command (`runcmd` in `sh.c`): processes with their descriptors, between whose system calls other
    processes may run. `pipe`, `fork` and `open` succeed, and `wait` returns at any time, so that there are more runs here
    than the kernel has. -/

namespace Xv6.Sh
open Lib

/-- What a descriptor stands for: a file that was open from the start, one that was opened for a redirection, or an end
    of a pipe. -/
inductive File
  | std (n : Nat)
  | opened (r : Redir)
  | pipeEnd (pipe : Nat) (write : Bool)
  deriving DecidableEq

/-- `proc->ofile`. -/
abbrev Ofile := Nat → Option File

def fdalloc (ofile : Ofile) (f : File) : Option (Nat × Ofile) :=
  ((List.range nofile).find? fun fd => (ofile fd).isNone).map fun fd => (fd, Function.update ofile fd (some f))

/-- `sys_dup`, without the result. -/
def dup (ofile : Ofile) (fd : Nat) : Ofile :=
  match ofile fd with
  | none => ofile
  | some f =>
    match fdalloc ofile f with
    | none => ofile
    | some (_, ofile) => ofile

/-- As what a command is run. The pipe is the one that was made for the `pipecmd` it belongs to. -/
inductive Role
  | plain
  | left (pipe : Nat)
  | right (pipe : Nat)
  deriving DecidableEq

/-- What a process has still to do. `pipe` goes on with the descriptors that it gets and, to tell pipes apart, with the
    number of the pipe. -/
inductive Code
  | runcmd (cmd : Cmd) (role : Role)
  | close (fd : Nat) (next : Code)
  | dup (fd : Nat) (next : Code)
  | openFile (r : Redir) (next : Code)
  | pipe (next : Nat → Nat → Nat → Code)
  | fork (child parent : Code)
  | wait (next : Code)
  | exec (argv : List (Nat × Nat))
  | exit

/-- The body of `runcmd`. An `execcmd` without arguments exits, and so does one whose `exec` fails. -/
def runcmd : Cmd → Code
  | .exec argv => .exec argv
  | .redir cmd r => .close r.fd (.openFile r (.runcmd cmd .plain))
  | .list left right => .fork (.runcmd left .plain) (.wait (.runcmd right .plain))
  | .pipe left right =>
    .pipe fun p0 p1 pipe =>
      .fork (.close 1 (.dup p1 (.close p0 (.close p1 (.runcmd left (.left pipe))))))
        (.fork (.close 0 (.dup p0 (.close p0 (.close p1 (.runcmd right (.right pipe))))))
          (.close p0 (.close p1 (.wait (.wait .exit)))))
  | .back cmd => .fork (.runcmd cmd .plain) .exit

/-- A process; `kids` counts the children that it has had. -/
structure Proc where
  code : Code
  ofile : Ofile
  kids : Nat

/-- The name of a process: the first process is `[]`, and child `n` of `q` is `n :: q`. -/
abbrev Pid := List Nat

/-- The processes, the number of pipes so far, and for each of them the process that has made it and the children which
    this process had before. -/
structure State where
  proc : Pid → Option Proc
  pipes : Nat
  maker : Nat → Option (Pid × Nat)

namespace State

def set (s : State) (q : Pid) (p : Option Proc) : State := { s with proc := Function.update s.proc q p }

/-- Process `q` makes a step. -/
def step (s : State) (q : Pid) : Option State :=
  (s.proc q).bind fun p =>
    match p.code with
    | .runcmd cmd _ => some (s.set q (some { p with code := Sh.runcmd cmd }))
    | .close fd next => some (s.set q (some { p with code := next, ofile := Function.update p.ofile fd none }))
    | .dup fd next => some (s.set q (some { p with code := next, ofile := Sh.dup p.ofile fd }))
    | .openFile r next =>
      (fdalloc p.ofile (.opened r)).map fun a => s.set q (some { p with code := next, ofile := a.2 })
    | .pipe next =>
      (fdalloc p.ofile (.pipeEnd s.pipes false)).bind fun a =>
        (fdalloc a.2 (.pipeEnd s.pipes true)).map fun b =>
          { s.set q (some { p with code := next a.1 b.1 s.pipes, ofile := b.2 }) with
            pipes := s.pipes + 1
            maker := Function.update s.maker s.pipes (some (q, p.kids)) }
    | .fork child parent =>
      some ((s.set q (some { p with code := parent, kids := p.kids + 1 })).set (p.kids :: q) (some ⟨child, p.ofile, 0⟩))
    | .wait next => some (s.set q (some { p with code := next }))
    -- The program that was executed, or the shell if there is none, exits.
    | .exec _ => some (s.set q (some { p with code := .exit }))
    | .exit => some (s.set q none)

/-- A process with descriptors 0, 1 and 2 runs a command. -/
def start (cmd : Cmd) : State :=
  ⟨fun q => if q = [] then some ⟨.runcmd cmd .plain, fun fd => if fd < 3 then some (.std fd) else none, 0⟩ else none,
    0, fun _ => none⟩

end State

end Xv6.Sh
