import SlabHeap.Settings
import SlabHeap.Text.Decimal

namespace SlabHeap.Command

/-! The command line: options of the heap, the name of a job, options of the job.

A number follows its option, either as the next argument or behind an equals sign. No option may be
given twice, and each belongs to one side of the job's name. Instead of the job's name the version
may be asked for; what follows the letter of the short form is not looked at.
-/

/-- What the command is asked to do with a heap. -/
inductive Job where
  /-- Build and drop lists of pairs; every `keepEvery`-th list stays. -/
  | churn (rounds listLength keepEvery : Nat)
  /-- Build a ring, fork the heap and check the copy. -/
  | fork (nodes : Nat) (keepOwnership : Bool)
  deriving DecidableEq, Repr

inductive Request where
  | version
  | run (settings : Settings) (job : Job)

/-- The options read so far, by name. -/
structure Given where
  numbers : List (String × Nat) := []
  switches : List String := []

namespace Given

def number (given : Given) (name : String) (default : Nat) : Nat :=
  (given.numbers.lookup name).getD default

def addNumber? (given : Given) (name value : String) : Option Given := do
  let number ← Text.readDecimal? value.toList
  if (given.numbers.lookup name).isSome then none
  else some { given with numbers := (name, number) :: given.numbers }

def addSwitch? (given : Given) (name : String) : Option Given :=
  if given.switches.contains name then none
  else some { given with switches := name :: given.switches }

end Given

/-- The names that options may have. -/
structure Grammar where
  numbers : List String
  switches : List String

/-- The options of every job. -/
def heapGrammar : Grammar :=
  { numbers := ["--initial-size", "--max-size"], switches := ["--strict-growth"] }

def churnGrammar : Grammar :=
  { numbers := ["--rounds", "--list-len", "--keep-every"], switches := [] }

def forkGrammar : Grammar := { numbers := ["--nodes"], switches := ["--keep-ownership"] }

/-- The parts of an argument around its first equals sign. -/
def splitValue? (argument : String) : Option (String × String) :=
  let characters := argument.toList
  let name := characters.takeWhile (· ≠ '=')
  match characters.dropWhile (· ≠ '=') with
  | [] => none
  | _ :: value => some (String.ofList name, String.ofList value)

/-- Reads options up to the first argument that is none. The answer holds them and the arguments
from there on; a malformed option yields no answer. -/
def readOptions (grammar : Grammar) (given : Given) : List String → Option (Given × List String)
  | [] => some (given, [])
  | argument :: rest =>
      match splitValue? argument with
      | some (name, value) =>
          if grammar.numbers.contains name then do
            readOptions grammar (← given.addNumber? name value) rest
          else some (given, argument :: rest)
      | none =>
          if grammar.switches.contains argument then do
            readOptions grammar (← given.addSwitch? argument) rest
          else if grammar.numbers.contains argument then
            match rest with
            | [] => none
            | value :: rest => do
                readOptions grammar (← given.addNumber? argument value) rest
          else some (given, argument :: rest)

/-- Reads the options of a job, behind which nothing may follow but the end of options. -/
def readLast? (grammar : Grammar) (arguments : List String) : Option Given :=
  match readOptions grammar {} arguments with
  | some (given, []) | some (given, ["--"]) => some given
  | _ => none

/-- The settings that the options of the heap ask for. -/
def settingsOf (given : Given) : Settings :=
  { initialSize := given.number "--initial-size" 65536
    maxSize := given.number "--max-size" 0
    growPolicy := if given.switches.contains "--strict-growth" then .both else .either }

/-- Reads a job from its name and its options. -/
def readJob? (name : String) (arguments : List String) : Option Job :=
  match name with
  | "churn" => do
      let given ← readLast? churnGrammar arguments
      return .churn (given.number "--rounds" 100) (given.number "--list-len" 1000)
        (given.number "--keep-every" 10)
  | "fork" => do
      let given ← readLast? forkGrammar arguments
      return .fork (given.number "--nodes" 256) (given.switches.contains "--keep-ownership")
  | _ => none

/-- Reads the arguments of the command. -/
def readRequest? (arguments : List String) : Option Request := do
  let (given, rest) ← readOptions heapGrammar {} arguments
  match rest with
  | [] => none
  | name :: rest =>
      if name = "--version" ∨ ['-', 'V'].isPrefixOf name.toList then return .version
      else return .run (settingsOf given) (← readJob? name rest)

end SlabHeap.Command
