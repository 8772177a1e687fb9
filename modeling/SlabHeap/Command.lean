import SlabHeap.Command.Arguments
import SlabHeap.Command.Fork

namespace SlabHeap.Command

/-! The command as a whole: from its arguments to what it prints and its exit code. Where the system puts
its slabs is a parameter throughout. -/

/-- What a run of the command leaves behind. -/
structure Report where
  code : UInt8
  out : String := ""
  err : String := ""
  deriving DecidableEq, Repr

/-- The answer to `--version`. -/
def versionLine : String := "heapctl 0.1.0\n"

/-- Runs a job on a fresh machine. -/
def perform {α : Type} (placement : Placement) (settings : Settings) (job : Context → Step α)
    (report : α → Report) : Report :=
  match (withHeap settings job).run (.fresh placement) with
  | .ok (.ok result) _ => report result
  | .ok (.error refusal) _ => { code := 1, err := s!"Error: {refusal.message}\n" }
  | .error fault _ => { code := 101, err := s!"{fault.message}\n" }

/-- Reports on a fork; a copy that is not self-contained is a failure. -/
def reportFork (report : ForkReport) : Report :=
  if report.selfContained then { code := 0, out := report.render }
  else { code := 2, out := report.render, err := "fork is not self-contained\n" }

def runRequest (placement : Placement) : Request → Report
  | .version => { code := 0, out := versionLine }
  | .run settings (.churn rounds listLength keepEvery) =>
      perform placement settings (churn rounds listLength keepEvery) fun report =>
        { code := 0, out := report.render }
  | .run settings (.fork nodes keepOwnership) =>
      perform placement settings (fork nodes keepOwnership) reportFork

/-- Shown when the arguments cannot be read. -/
def usage : String :=
  "Usage: heapctl [--initial-size N] [--max-size N] [--strict-growth] <churn|fork> [OPTIONS]\n"

/-- Runs the command. -/
def run (placement : Placement) (arguments : List String) : Report :=
  match readRequest? arguments with
  | some request => runRequest placement request
  | none => { code := 2, err := usage }

end SlabHeap.Command
