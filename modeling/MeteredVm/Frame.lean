import MeteredVm.Message
import MeteredVm.Memory
import MeteredVm.Stack
import MeteredVm.Signature

/-!
# MeteredVm.Frame

The state of one message call.

A frame starts executing at offset 0. It leaves that state for good when it succeeds, reverts,
fails or halts; `Frame.suspend` and `Frame.resume` leave it and come back around a nested call.

* `Frame.setStatus` — refuses to enter or leave an exceptional halt.
* `Frame.halt` — the way into an exceptional halt; the first reason is kept.
* `Frame.resume` — folds the outcome of a nested call back in. A failed resumption keeps what
  it had done up to the failure.
-/

namespace MeteredVm

inductive Status where
  | executing
  | suspended
  | succeeded
  | halted
  | reverted
  | failed
  deriving DecidableEq, Repr

namespace Status

def all : List Status := [executing, suspended, succeeded, halted, reverted, failed]

def name : Status → String
  | executing => "CodeExecuting"
  | suspended => "CodeSuspended"
  | succeeded => "CodeSuccess"
  | halted => "ExceptionalHalt"
  | reverted => "Revert"
  | failed => "CompletedFailed"

def ofName? (s : String) : Option Status := all.find? (·.name == s)

def isTerminal : Status → Bool
  | executing => false
  | suspended => false
  | _ => true

end Status

structure Limits where
  stack : UInt64 := 1024
  returnStack : UInt64 := 1023
  /-- In bytes. -/
  memory : UInt64 := 32 * 1024 * 1024
  deriving DecidableEq

/-- The sum of two refunds. Refunds are signed 64-bit numbers and stop at the ends of the range. -/
def addRefund (a b : Int) : Int :=
  max Int64.minValue.toInt (min Int64.maxValue.toInt (a + b))

structure Frame extends Message where
  stack : Stack
  returnStack : ReturnStack
  memory : Memory
  gas : Gas
  pc : Nat := 0
  status : Status := .executing
  /-- The operation looked at last. -/
  operation : Option Signature := none
  /-- What was charged for the operation executed last. -/
  cost : Option Gas := none
  haltReason : Option HaltReason := none
  output : Bytes := #[]
  /-- The output of the latest nested call. -/
  returnData : Bytes := #[]
  /-- In the order in which they were added. -/
  logs : List Log := []
  refund : Int := 0
  /-- The nested call that the frame waits for. -/
  pending : Option MessageRequest := none

namespace Frame

def start (message : Message) (limits : Limits) : Frame :=
  { toMessage := message
    stack := Stack.empty limits.stack
    returnStack := ReturnStack.empty limits.returnStack
    memory := Memory.empty limits.memory
    gas := message.initialGas }

/-- Moves to `status`, unless that would enter or leave an exceptional halt. -/
def setStatus (f : Frame) (status : Status) : Except Fatal Frame :=
  if f.status = .halted ∨ status = .halted then .error .invalidTransition
  else .ok { f with status := status }

/-- Enters an exceptional halt. The first reason is kept and the output is dropped. -/
def halt (f : Frame) (reason : HaltReason) : Frame :=
  { f with
    haltReason := some (f.haltReason.getD reason)
    status := .halted
    output := #[] }

/-- Takes `amount` out of the gas left, if there is that much. -/
def charge (f : Frame) (amount : Gas) : Option Frame :=
  (f.gas.sub? amount).map fun g => { f with gas := g }

/-- Puts `amount` back, if the sum is an amount of gas. -/
def credit (f : Frame) (amount : Gas) : Option Frame :=
  (f.gas.add? amount).map fun g => { f with gas := g }

def addLog (f : Frame) (log : Log) : Frame := { f with logs := f.logs ++ [log] }

def addRefund (f : Frame) (amount : Int) : Frame :=
  { f with refund := MeteredVm.addRefund f.refund amount }

def suspend (f : Frame) (request : MessageRequest) : Frame :=
  { f with pending := some request, status := .suspended }

/-- What a successful call adds to its caller: its logs and its refund. -/
def adopt (f : Frame) (outcome : ChildOutcome) : Frame :=
  if outcome.success then
    { f with
      logs := f.logs ++ outcome.logs
      refund := MeteredVm.addRefund f.refund outcome.refund }
  else f

/--
Continues after a nested call: its gas is added, the start of its output goes to the memory
window, a flag for its success is pushed, its logs and refund are adopted and its output becomes
the return data. Execution goes on behind the calling operation.
-/
def resume (offset len : Nat) (outcome : ChildOutcome) : EStateM Fatal Frame Unit := fun f =>
  if f.status ≠ .suspended then .error .unhandledSuspension f
  else
    let f := { f with status := .executing }
    match f.credit outcome.gas with
    | none => .error .gasAccountingOverflow f
    | some f =>
      let f := { f with memory := f.memory.write offset (outcome.output.extract 0 len) }
      match f.stack.push (Word.ofBool outcome.success) with
      | .error reason => .error (.unchecked reason) f
      | .ok stack =>
        let f := adopt { f with stack := stack } outcome
        .ok () { f with returnData := outcome.output, pc := f.pc + 1 }

end Frame

end MeteredVm
