import MeteredVm.Instruction
import MeteredVm.World

/-!
# MeteredVm.Instruction.Cost

What an instruction costs and what forbids it, before it runs.

* `Instruction.ranges` — the memory ranges that the instruction will touch.
* `Instruction.cost` — its price; operands that the stack does not hold read as zero.
* `Instruction.haltCondition` — its own halt condition: every instruction that touches memory
  keeps to the memory limit, writers refuse a static frame, jumps need a landing mark.
* `Call.baseCost` — the price of a nested call without the gas for the child.
-/

namespace MeteredVm

/-- Operand `n` of a frame, counted from the top; zero when missing. -/
def Frame.operand (f : Frame) (n : Nat) : Word := f.stack.operand n

abbrev OperandRange := Word × Word

namespace Call

/-- The position of the input offset among the operands. -/
def inputIndex (kind : CallKind) : Nat := if kind.hasValue then 3 else 2

def value (kind : CallKind) (f : Frame) : Word := if kind.hasValue then f.operand 2 else 0

def inputRange (kind : CallKind) (f : Frame) : OperandRange :=
  (f.operand (inputIndex kind), f.operand (inputIndex kind + 1))

def outputRange (kind : CallKind) (f : Frame) : OperandRange :=
  (f.operand (inputIndex kind + 2), f.operand (inputIndex kind + 3))

/-- Whether the account called is charged for as new. Only a plain call can bring one about. -/
def recipientIsNew (fees : FeeSchedule) (kind : CallKind) (f : Frame) (w : World) : Bool :=
  kind.hasValue &&
    let target := Word.toAddress (f.operand 1)
    if fees.emptyExists then !w.exists? target else w.isEmpty target

/-- The price of memory growth: the greater one of input and output. -/
def memoryCost (kind : CallKind) (f : Frame) : Option Gas := do
  let input := inputRange kind f
  let output := outputRange kind f
  let inputCost ← Fees.expansion f.memory.words input.1 input.2
  let outputCost ← Fees.expansion f.memory.words output.1 output.2
  some (inputCost.max outputCost)

/-- The price of the call without the gas for the child. -/
def baseCost (fees : FeeSchedule) (kind : CallKind) (f : Frame) (w : World) : Option Gas := do
  fees.call (← memoryCost kind f) (value kind f != 0) (recipientIsNew fees kind f w)

/-- The price of the call with the gas for the child. -/
def cost (fees : FeeSchedule) (kind : CallKind) (f : Frame) (w : World) : Option Gas := do
  let base ← baseCost fees kind f w
  base.add? (← fees.childGas (f.gas.saturatingSub base) (f.operand 0))

end Call

namespace Instruction

/-- The memory ranges that an instruction will touch. -/
def ranges (f : Frame) : Instruction → List OperandRange
  | ret | revert | keccak | log _ => [(f.operand 0, f.operand 1)]
  | copy _ => [(f.operand 0, f.operand 2)]
  | memoryLoad | memoryStore => [(f.operand 0, 32)]
  | memoryStoreByte => [(f.operand 0, 1)]
  | call kind => [Call.inputRange kind f, Call.outputRange kind f]
  | _ => []

def binaryCost (fees : FeeSchedule) (f : Frame) : BinaryOp → Option Gas
  | .mul | .div | .sdiv | .mod | .smod | .signExtend => some Fees.lowTier
  | .exp => fees.exp (f.operand 1)
  | _ => some Fees.veryLowTier

def lookupCost (fees : FeeSchedule) : Lookup → Gas
  | .balance => fees.balance
  | .callData => Fees.veryLowTier
  | .blockHash => Fees.blockHash
  | .storage => fees.load

def cost (fees : FeeSchedule) (f : Frame) (w : World) : Instruction → Option Gas
  | stop => some Fees.zeroTier
  | ret | revert => do
    Fees.zeroTier.add? (← Fees.expansion f.memory.words (f.operand 0) (f.operand 1))
  | unary _ => some Fees.veryLowTier
  | binary op => binaryCost fees f op
  | ternary _ => some Fees.midTier
  | read .selfBalance => some Fees.selfBalance
  | read _ => some Fees.baseTier
  | lookup what => some (lookupCost fees what)
  | copy _ => Fees.copy f.memory.words (f.operand 0) (f.operand 2)
  | keccak => Fees.keccak f.memory.words (f.operand 0) (f.operand 1)
  | pop => some Fees.baseTier
  | push _ | dup _ | swap _ => some Fees.veryLowTier
  | memoryLoad | memoryStore => Fees.memoryAccess f.memory.words (f.operand 0) 32
  | memoryStoreByte => Fees.memoryAccess f.memory.words (f.operand 0) 1
  | storageStore =>
    let key := f.operand 0
    some (fees.store (w.settledStorage f.address key) (w.storage f.address key) (f.operand 1))
  | jump => some Fees.midTier
  | jumpIf => some Fees.highTier
  | jumpDest => some Fees.jumpDest
  | beginSub => some Fees.beginSub
  | jumpSub => some Fees.jumpSub
  | returnSub => some Fees.returnSub
  | log n => Fees.log f.memory.words (f.operand 0) (f.operand 1) n
  | call kind => Call.cost fees kind f w

/-- A halt if one of the ranges goes past the memory limit. -/
def memoryHalt (f : Frame) (touched : List OperandRange) : Option HaltReason :=
  if touched.any fun r => f.memory.exceedsLimit r.1 r.2 then some .memoryOutOfBounds else none

/-- A halt unless `destination` is marked for jumps. -/
def jumpHalt (f : Frame) (destination : Word) : Option HaltReason :=
  match destination.toSize? with
  | some pc => if f.code.isJumpDest pc then none else some .badJumpDestination
  | none => some .badJumpDestination

/-- A halt unless the operand is marked for subroutine calls and there is room to return. -/
def jumpSubHalt (f : Frame) : Option HaltReason :=
  match (f.operand 0).toSize? with
  | some pc =>
    if f.code.isBeginSub pc then
      if f.returnStack.isFull then some .returnStackOverflow else none
    else some .badJumpDestination
  | none => some .badJumpDestination

/-- A storage write is refused when too little gas is left, and then in a static frame. -/
def storeHalt (fees : FeeSchedule) (f : Frame) : Option HaltReason :=
  if fees.storeSentry?.any (f.gas ≤ ·) then some .outOfGas
  else if f.isStatic then some .illegalStateChange
  else none

/-- What a writer adds to the memory check: a static frame refuses it first. -/
def writeHalt (f : Frame) (writes : Bool) (touched : List OperandRange) : Option HaltReason :=
  if f.isStatic && writes then some .illegalStateChange else memoryHalt f touched

/-- The halt condition of an instruction beyond the checks on stack and gas. -/
def haltCondition (fees : FeeSchedule) (f : Frame) : Instruction → Option HaltReason
  | storageStore => storeHalt fees f
  | jump => jumpHalt f (f.operand 0)
  | jumpIf => if f.operand 1 = 0 then none else jumpHalt f (f.operand 0)
  | jumpSub => jumpSubHalt f
  | returnSub => if f.returnStack.items.isEmpty then some .returnStackUnderflow else none
  | copy .returnData =>
    if (f.operand 1).toNat + (f.operand 2).toNat ≤ f.returnData.size then
      memoryHalt f (ranges f (copy .returnData))
    else some .returnDataOutOfBounds
  | log n => writeHalt f true (ranges f (log n))
  | call kind => writeHalt f (Call.value kind f != 0) (ranges f (call kind))
  | i => memoryHalt f (ranges f i)

end Instruction

end MeteredVm
