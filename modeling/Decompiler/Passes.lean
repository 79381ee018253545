import Decompiler.Loops.Recognition
import Decompiler.Monitors
import Decompiler.Variables.Declare
import Decompiler.Variables.DebugEntries
import Decompiler.Variables.Scopes

/-!
# All passes over a method

The forms of loops are recognised, dead copies of monitors dropped, versions of variables merged,
and variables declared and named, in this order. An error in merging keeps what was done before it.
-/

namespace Decompiler.Method

/-- Runs a pass when the one before it has succeeded. -/
def andThen {α β : Type} (result : Method × Except MergeFailure α)
    (next : Method → Checked (Method × Except MergeFailure β)) :
    Checked (Method × Except MergeFailure β) :=
  match result with
  | (m, .error e) => return (m, .error e)
  | (m, .ok _) => next m

/-- Declares, merges across scopes and names the variables of a planned method. Returns what the
hook was given. -/
def settlePlanned (m : Method) (plan : Plan) (namer : Namer) (useDebugNames : Bool) :
    Checked (Method × Except MergeFailure (List (Local × String))) := do
  let m ← m.declareAll plan
  andThen (← m.mergeScoped) fun m => do
    let m := if useDebugNames then { m with vars := m.vars.useDebugNames } else m
    let (m, types) ← m.settleEntries namer useDebugNames
    return (m, .ok types)

/-- Declares and names the variables of a method. -/
def settle (m : Method) (namer : Namer) (useDebugNames : Bool) :
    Checked (Method × Except MergeFailure (List (Local × String))) := do
  let (m, plan) ← m.plan
  m.settlePlanned plan namer useDebugNames

/-- Runs every pass. -/
def decompile (m : Method) (options : Options) (namer : Namer) :
    Checked (Method × Except MergeFailure (List (Local × String))) := do
  let (graph, _) ← if options.recogniseLoops then m.graph.recogniseLoops options
    else pure (m.graph, 0)
  let (graph, _) ← graph.cleanMonitors
  andThen (← mergeVersions { m with graph := graph }) fun m =>
    m.settle namer options.useDebugNames

end Decompiler.Method
