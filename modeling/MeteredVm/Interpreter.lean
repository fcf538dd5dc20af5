import MeteredVm.InstructionSet

/-!
# MeteredVm.Interpreter

Running a frame operation by operation.

* `Interpreter.operationAt` — the operation at an offset. A byte without an entry stands for the
  invalid operation, and behind the last byte there is a stop.
* `Interpreter.step` — one operation: the checks, the charge, the effect, the program counter.
* `Interpreter.run` — steps until the frame leaves the executing state, for at most a given
  number of steps. Running out of steps is kept apart from every result.
-/

namespace MeteredVm

structure Interpreter where
  instructionSet : InstructionSet
  tariff : Tariff

def Frame.snapshot (f : Frame) (s : Signature) (cost : Option Gas) : Snapshot :=
  { depth := f.depth
    pc := f.pc
    operation := s.name
    opcode := s.opcode
    cost
    gas := f.gas
    stack := f.stack.items
    memorySize := f.memory.size }

/-- Moves past an operation, unless it moved the frame itself or ended its execution. -/
def Frame.advance (f : Frame) (s : Signature) : Frame :=
  if f.status = .executing ∧ s.jumps = false then { f with pc := f.pc + s.size } else f

/-- How a step ended, read off the frame after it. -/
def Frame.stepResult (f : Frame) : Step :=
  match f.status, f.haltReason with
  | .executing, _ => .proceed
  | .halted, some reason => .halt reason
  | status, _ => .terminal status

namespace Action

def charge (cost : Gas) : Action Unit := fun m =>
  match m.frame.charge cost with
  | some f => .ok () (m.withFrame f)
  | none => .error (.unchecked .outOfGas) m

end Action

/-- Charges an operation, executes it and moves past it. -/
def Operation.apply (op : Operation) (cost : Option Gas) : Action Step := do
  let cost ← Action.require .costUnavailable cost
  Action.modifyFrame ({ · with cost := some cost })
  Action.charge cost
  op.execute
  Action.modifyFrame (·.advance op.toSignature)
  return (← Action.frame).stepResult

inductive Run where
  /-- The frame left the executing state, or the run was broken off. -/
  | ended (result : Except ExitError Unit) (m : Machine)
  /-- The number of steps did not suffice. -/
  | outOfSteps (m : Machine)

namespace Interpreter

def ofRules (c : Rules) : Interpreter := ⟨InstructionSet.ofRules c, c.tariff⟩

/-- The stop behind the end of the code. -/
def endOfCode (vm : Interpreter) : Operation :=
  (Instruction.stop.toOperation vm.tariff.fees).atEndOfCode

/-- The operation of a byte under a version. -/
def resolve (vm : Interpreter) (opcode : Opcode) (version : Nat) : Operation :=
  (vm.instructionSet.get? opcode version).getD Operation.invalid

def operationAt (vm : Interpreter) (code : Code) (pc : Nat) : Operation :=
  match code.opcodeAt? pc with
  | some opcode => vm.resolve opcode code.version
  | none => vm.endOfCode

/-- The operations met from `pc` on when each is followed by the one behind it. -/
def walkFrom (vm : Interpreter) (code : Code) : Nat → Nat → List (Nat × Operation)
  | 0, _ => []
  | fuel + 1, pc =>
    if pc < code.size then
      let op := vm.operationAt code pc
      (pc, op) :: walkFrom vm code fuel (pc + op.size)
    else []

/-- The operations of the code in order; there are at most as many as bytes. -/
def walk (vm : Interpreter) (code : Code) : List (Nat × Operation) :=
  vm.walkFrom code code.size 0

/-- Ends the frame because a check refused the operation. -/
def refuse (op : Operation) (reason : HaltReason) (m : Machine) : Machine :=
  let f := m.frame
  let m := m.record (.refused f.depth f.pc op.name reason)
  (m.withFrame (f.halt reason)).record (.stepped (.halt reason))

/-- Marks the frame as failed. A halted frame stays halted, and then that is the failure. -/
def breakOff (op : Operation) (failure : Fatal) (m : Machine) : EStateM.Result Fatal Machine Step :=
  let m := m.record (.broke op.name m.frame.pc failure)
  match m.frame.setStatus .failed with
  | .ok f => .error failure (m.withFrame f)
  | .error other => .error other m

def step (vm : Interpreter) : Action Step := fun m =>
  if m.frame.status ≠ .executing then .error .notExecuting m
  else
    let op := vm.operationAt m.frame.code m.frame.pc
    let m := m.withFrame { m.frame with operation := some op.toSignature }
    let verdict := op.check m.frame m.world
    let m := m.record (.checked (m.frame.snapshot op.toSignature verdict.cost))
    match verdict.halt with
    | some reason => .ok (.halt reason) (refuse op reason m)
    | none =>
      match op.apply verdict.cost m with
      | .ok step m => .ok step (m.record (.stepped step))
      | .error failure m => breakOff op failure m

def run (vm : Interpreter) : Nat → Machine → Run
  | 0, m => .outOfSteps m
  | steps + 1, m =>
    match vm.step m with
    | .ok .proceed m => run vm steps m
    | .ok (.halt reason) m => .ended (.error (.exception reason)) m
    | .ok (.terminal _) m => .ended (.ok ()) m
    | .error failure m => .ended (.error (.fatal failure)) m

/--
More steps than any amount of gas pays for: an instruction under any rules that lets the
frame go on costs at least one, and there is less than `2 ^ 64` of it.
-/
def stepBound : Nat := 0x1_0000_0000_0000_0000

def runToHalt (vm : Interpreter) (m : Machine) : Run := vm.run stepBound m

def describe (vm : Interpreter) : String :=
  Text.record "Evm" [("registry", vm.instructionSet.describe), ("calculator", vm.tariff.describe)]

end Interpreter

end MeteredVm
