import MeteredVm.Frame.Command
import MeteredVm.Operation

/-!
# MeteredVm.Script

Operations given by data: a fixed price, a fixed halt condition and a list of frame commands as
the effect. A command that fails ends the effect with an internal failure.
-/

namespace MeteredVm

/-- The internal failure that a failed command stands for inside an operation. -/
def Fault.toFatal : Fault → Fatal
  | halt reason => .unchecked reason
  | fatal failure => failure
  | gasOverflow => .gasAccountingOverflow

structure Script extends Signature where
  /-- `none` when the price is not an amount of gas. -/
  cost : Option Gas
  haltReason : Option HaltReason
  commands : List Command

namespace Script

def execute (commands : List Command) : Action Unit := fun m =>
  match Command.performAll commands m.frame with
  | .ok _ f => .ok () (m.withFrame f)
  | .error fault f => .error fault.toFatal (m.withFrame f)

def toOperation (s : Script) : Operation :=
  { s.toSignature with
    cost := fun _ _ => s.cost
    haltCondition := fun _ _ => s.haltReason
    execute := execute s.commands }

end Script

end MeteredVm
