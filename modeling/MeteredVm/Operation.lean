import MeteredVm.Machine
import MeteredVm.Signature

/-!
# MeteredVm.Operation

An operation: its signature, its price, its own halt condition and its effect.

`Operation.check` decides whether an operation may run. It asks in a fixed order, and the first
refusal wins: stack overflow, stack underflow, a cost that is no amount of gas, more gas than is
left, and last the operation's own condition.
-/

namespace MeteredVm

structure Operation extends Signature where
  /-- The gas charged; `none` when it is not an amount of gas. -/
  cost : Frame → World → Option Gas
  /-- What forbids the operation beyond the checks on stack and gas. -/
  haltCondition : Frame → World → Option HaltReason := fun _ _ => none
  execute : Action Unit

structure Verdict where
  halt : Option HaltReason
  /-- The cost, when it was computed and is an amount of gas. -/
  cost : Option Gas
  deriving DecidableEq

namespace Operation

/-- The check of the stack height, before and after. The limit is read as a signed number. -/
def stackHalt (s : Signature) (stack : Stack) : Option HaltReason :=
  if stack.limit.toInt64.toInt < stack.height + s.stackChange then some .stackOverflow
  else if stack.height < s.consumed then some .stackUnderflow
  else none

/-- The check of the cost against the gas left. -/
def gasHalt (cost : Option Gas) (gas : Gas) : Option HaltReason :=
  match cost with
  | none => some .costOverflow
  | some cost => if gas < cost then some .outOfGas else none

/-- Whether the operation may run. On a stack underflow its cost is not asked for. -/
def check (op : Operation) (f : Frame) (w : World) : Verdict :=
  match stackHalt op.toSignature f.stack with
  | some .stackUnderflow => ⟨some .stackUnderflow, none⟩
  | some reason => ⟨some reason, op.cost f w⟩
  | none =>
    let cost := op.cost f w
    match gasHalt cost f.gas with
    | some reason => ⟨some reason, cost⟩
    | none => ⟨op.haltCondition f w, cost⟩

/-- The operation that stands for bytes without an entry. It always halts. -/
def invalid : Operation :=
  { opcode := 0xfe
    name := "INVALID"
    consumed := 0
    produced := 0
    provenance := .placeholder
    cost := fun _ _ => some 0
    haltCondition := fun _ _ => some .badInstruction
    execute := Action.fail (.unchecked .badInstruction) }

/-- The same operation, standing behind the end of the code. -/
def atEndOfCode (op : Operation) : Operation := { op with provenance := .endOfCode }

end Operation

end MeteredVm
