import Xv6.Fs.Calls
import Xv6.Lib.Run

/-! Processes that write to one open file. A step is what a process does up to the end of a section under the lock of
    the inode. -/

namespace Xv6.Fs
open Lib

def Op.unlocks : Op → Bool
  | .iunlock _ => true
  | _ => false

/-- What is left of the call of each process; `calls` records what it has been called with. -/
structure Writers where
  fs : State
  prog : Pid → P Int
  calls : Pid → List (List Byte)

namespace Writers

inductive Event
  | call (p : Pid) (addr : List Byte)
  | run (p : Pid)

def step (f : FileIx) (m : Writers) : Event → Option Writers
  | .call p addr =>
    match m.prog p with
    | .ret _ => some { m with
        prog := Function.update m.prog p (filewrite f addr (-1))
        calls := Function.update m.calls p (m.calls p ++ [addr]) }
    | .call _ _ => none
  | .run p =>
    match (m.prog p).runUntil (act p) Op.unlocks m.fs with
    | .done q fs => some { m with fs, prog := Function.update m.prog p q }
    | .panic _ | .blocked => none

/-- No call has been made. -/
def start (s : State) : Writers := ⟨s, fun _ => .ret 0, fun _ => []⟩

end Writers

end Xv6.Fs
