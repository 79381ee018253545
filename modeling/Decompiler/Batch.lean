import Decompiler.DebugTable.Attribute
import Decompiler.Passes
import Decompiler.Text.Number

/-!
# Batches of methods

Many methods are processed independently of each other. Each one runs under guard: a fault in it is
reported for it alone, and a method that takes too long is given up.
-/

namespace Decompiler

/-- Why a method could not be processed. -/
inductive MethodError where
  /-- Its descriptor could not be read. -/
  | descriptor (e : DescriptorError)
  /-- A debug attribute could not be read. -/
  | attribute (e : AttributeError)
  /-- Its variables could not be merged. -/
  | merge (e : MergeFailure)
  /-- It broke down. -/
  | crashed (message : String)
  /-- It was given up after some milliseconds. -/
  | timedOut (ms : Nat)
  deriving DecidableEq, Repr

/-- The text of the error. -/
def MethodError.message : MethodError → String
  | .descriptor e => "Failed to parse method descriptor: " ++ e.message
  | .attribute e => "While reading the local variable table: " ++ e.message
  | .merge e => "While merging variables: " ++ e.message
  | .crashed message => "Panicked: " ++ message
  | .timedOut ms => "Gave up after " ++ millisText ms

/-! ## Jobs -/

/-- How a job comes to its end. -/
inductive JobEnd (α : Type) where
  /-- It returns a result. -/
  | returns (result : Except MethodError α)
  /-- It breaks down, with or without a message. -/
  | breaks (message : Option String)
  /-- It never ends. -/
  | never

/-- What is seen of a job by the one who waits for it. -/
inductive Outcome (α : Type) where
  /-- It has ended in time. -/
  | finished (result : Except MethodError α)
  /-- It was given up. -/
  | timedOut

/-- Waits for a job under guard. A breakdown is turned into an error, and a job that does not end is
given up. -/
def JobEnd.wait {α : Type} : JobEnd α → Outcome α
  | .returns result => .finished result
  | .breaks message => .finished (.error (.crashed (message.getD "unknown panic payload")))
  | .never => .timedOut

/-- The result of a job that is waited for at most `ms` milliseconds. -/
def Outcome.result {α : Type} (ms : Nat) : Outcome α → Except MethodError α
  | .finished result => result
  | .timedOut => .error (.timedOut ms)

/-- Whether a job can run under a name: no character of it is zero. -/
def isJobName (name : String) : Bool := !name.toList.contains '\x00'

/-- Runs a job under a name, apart from the one who waits for it. -/
def JobEnd.runAs {α : Type} (name : String) (job : JobEnd α) : Checked (Outcome α) :=
  if isJobName name then return job.wait else throw .zeroInName

/-- A fault breaks a job down. -/
def JobEnd.ofChecked {α : Type} : Checked (Except MethodError α) → JobEnd α
  | .ok result => .returns result
  | .error fault => .breaks (some fault.message)

/-! ## Methods of a class file -/

/-- The body of a debug attribute. -/
structure Attribute where
  /-- Its bytes. -/
  bytes : List UInt8
  /-- Whether it is a type table. -/
  isTypeTable : Bool

/-- A method as structuring leaves it. -/
structure RawMethod where
  /-- Its name. -/
  name : String
  /-- Its descriptor. -/
  descriptor : String
  /-- The class of its receiver; none for a static method. -/
  thisClass : Option String
  /-- Its body. -/
  graph : Graph
  /-- Its debug attributes. -/
  attributes : List Attribute

/-- The value tables in front of the type tables, each in their order: a stable sort by kind. -/
def valueTablesFirst (l : List Attribute) : List Attribute :=
  l.mergeSort fun a b => !a.isTypeTable || b.isTypeTable

/-- Folds the debug tables of some attributes together, in order. -/
def foldAttributes (strings : Nat → Option String) (key : MergeKey) :
    Option DebugTable → List Attribute → Except AttributeError (Option DebugTable)
  | table, [] => return table
  | table, a :: rest => do
    let parsed ← DebugTable.parse strings a.isTypeTable a.bytes
    let table := match table with
      | some table => table.merge parsed key
      | none => parsed
    foldAttributes strings key (some table) rest

/-- What is known about the variables of a method from its descriptor and its debug attributes. The
value tables come first, so that type tables only add signatures. -/
def RawMethod.registry (input : RawMethod) (read : DescriptorReader)
    (strings : Nat → Option String) (key : MergeKey) : Checked (Except MethodError Registry) := do
  let made ← Registry.ofDescriptor read input.descriptor.toUTF8.toList input.thisClass
  return do
    let vars ← made.mapError MethodError.descriptor
    let table ← (foldAttributes strings key none (valueTablesFirst input.attributes)).mapError
      MethodError.attribute
    return { vars with debugTable := table }

/-- Runs every pass over a method as a job. -/
def Method.job (m : Method) (options : Options) : JobEnd Method :=
  .ofChecked do
    let (m, result) ← m.decompile options .keepAll
    return (result.mapError MethodError.merge).map fun _ => m

/-- Processes one method. Only a method with a time limit runs under its name, and only if its
variables could be made out. -/
def RawMethod.decompile (input : RawMethod) (read : DescriptorReader)
    (strings : Nat → Option String) (options : Options) : Checked (Except MethodError Method) := do
  match ← input.registry read strings options.mergeKey with
  | .error e => return .error e
  | .ok vars =>
    let job := Method.job ⟨input.graph, vars⟩ options
    match options.timeout with
    | none => return job.wait.result 0
    | some ms => return (← job.runAs input.name).result ms

/-- Processes many methods, each on its own, and reports on all of them in order. What goes wrong
in a job is reported for its method; that a job cannot be started ends the whole batch. -/
def decompileAll (inputs : List RawMethod) (read : DescriptorReader)
    (strings : Nat → Option String) (options : Options) :
    Checked (List (String × Except MethodError Method)) :=
  inputs.mapM fun input => do return (input.name, ← input.decompile read strings options)

end Decompiler
