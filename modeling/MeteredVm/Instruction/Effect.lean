import MeteredVm.Instruction.Cost
import MeteredVm.Keccak
import MeteredVm.Operation

/-!
# MeteredVm.Instruction.Effect

What an instruction does once it is paid for, and the instruction as an operation.

Operands are popped one after the other from the top, so an instruction that finds too few of
them has already taken those that were there.

* `Instruction.execute` — the effect.
* `Call.execute` — a nested call only describes the child and suspends the frame.
* `Instruction.toOperation` — signature, price, halt condition and effect together.
-/

namespace MeteredVm

/-- How far back block hashes are known. -/
def blockHashWindow : Nat := 256

def Reading.value (f : Frame) (w : World) : Reading → Word
  | address => Word.ofAddress f.address
  | origin => Word.ofAddress f.origin
  | caller => Word.ofAddress f.caller
  | callValue => f.value
  | callDataSize => Word.ofNat f.input.size
  | codeSize => Word.ofNat f.code.size
  | gasPrice => f.gasPrice
  | returnDataSize => Word.ofNat f.returnData.size
  | coinbase => Word.ofAddress f.block.coinbase
  | timestamp => f.block.timestamp
  | number => f.block.number
  | difficulty => f.block.difficulty
  | gasLimit => f.block.gasLimit
  | chainId => f.block.chainId
  | selfBalance => w.balance f.address
  | baseFee => f.block.baseFee
  | pc => Word.ofNat f.pc
  | memorySize => Word.ofNat f.memory.size
  | gas => f.gas.toWord

/-- The hash of an earlier block, zero outside the window behind the current one. -/
def recentBlockHash (f : Frame) (w : World) (number : Word) : Word :=
  if number < f.block.number ∧ f.block.number.toNat - number.toNat ≤ blockHashWindow then
    w.blockHash number
  else 0

def Lookup.value (f : Frame) (w : World) : Lookup → Word → Word
  | balance, a => w.balance (Word.toAddress a)
  | callData, i => f.input.wordAt i
  | blockHash, n => recentBlockHash f w n
  | storage, key => w.storage f.address key

def CopySource.data (f : Frame) : CopySource → Bytes
  | callData => f.input
  | code => f.code.bytes
  | returnData => f.returnData

namespace Call

/-- The child that a call of each kind asks for. -/
def request (kind : CallKind) (f : Frame) (target : Address) (value : Word) (gas : Gas)
    (input : Bytes) (outputOffset outputLength : Nat) : MessageRequest :=
  match kind with
  | .call =>
    { kind, gas, input, outputOffset, outputLength
      address := target
      codeAddress := target
      caller := f.address
      transferValue := value
      apparentValue := value
      isStatic := f.isStatic }
  | .delegateCall =>
    { kind, gas, input, outputOffset, outputLength
      address := f.address
      codeAddress := target
      caller := f.caller
      transferValue := 0
      apparentValue := f.value
      isStatic := f.isStatic }
  | .staticCall =>
    { kind, gas, input, outputOffset, outputLength
      address := target
      codeAddress := target
      caller := f.address
      transferValue := 0
      apparentValue := 0
      isStatic := true }

/-- What was charged on top of the call's own price is the child's share. -/
def share (fees : FeeSchedule) (kind : CallKind) (f : Frame) (w : World) : Option Gas := do
  (← f.cost).sub? (← baseCost fees kind f w)

/--
Describes the child and suspends the frame. Output and input memory become active, and a child
that receives value gets the stipend on top of its share.
-/
def execute (fees : FeeSchedule) (kind : CallKind) : Action Unit := do
  let share ← Action.require .costUnavailable (share fees kind (← Action.frame) (← Action.world))
  let _ ← Action.pop
  let target ← Action.pop
  let value ← if kind.hasValue then Action.pop else pure 0
  let inputOffset ← Action.pop
  let inputLength ← Action.pop
  let outputOffset ← Action.pop
  let outputLength ← Action.pop
  let (inputOffset, inputLength) ← Action.range inputOffset inputLength
  let (outputOffset, outputLength) ← Action.range outputOffset outputLength
  Action.expand outputOffset outputLength
  let input ← Action.load inputOffset inputLength
  let gas ← Action.require .gasAccountingOverflow
    (if value = 0 then some share else share.add? Fees.stipend)
  let request := request kind (← Action.frame) target.toAddress value gas input outputOffset
    outputLength
  Action.record (.requested kind request.codeAddress gas)
  Action.modifyFrame (·.suspend request)

end Call

namespace Instruction

/-- Ends the frame in `status` with the memory range of the two operands as its output. -/
def finish (status : Status) : Action Unit := do
  let offset ← Action.pop
  let len ← Action.pop
  let (offset, len) ← Action.range offset len
  let output ← Action.load offset len
  Action.modifyFrame ({ · with output := output })
  Action.setStatus status

def executeCopy (source : CopySource) : Action Unit := do
  let data := source.data (← Action.frame)
  let memoryOffset ← Action.pop
  let dataOffset ← Action.pop
  let len ← Action.pop
  let (memoryOffset, len) ← Action.range memoryOffset len
  Action.modifyFrame fun f => { f with memory := f.memory.copy memoryOffset data dataOffset len }

def executeKeccak : Action Unit := do
  let offset ← Action.pop
  let len ← Action.pop
  let (offset, len) ← Action.range offset len
  Action.push (Keccak.hash (← Action.load offset len)).toWord

def executeStorageStore (fees : FeeSchedule) : Action Unit := do
  let key ← Action.pop
  let new ← Action.pop
  let f ← Action.frame
  let w ← Action.world
  let refund := fees.storeRefund (w.settledStorage f.address key) (w.storage f.address key) new
  Action.modifyFrame (·.addRefund refund)
  Action.modifyWorld (·.setStorage f.address key new)

/-- Pops `n` topics, the first of them first. -/
def popTopics : Nat → Action (List Word)
  | 0 => pure []
  | n + 1 => do
    let topic ← Action.pop
    let rest ← popTopics n
    pure (topic :: rest)

def executeLog (topics : Nat) : Action Unit := do
  let offset ← Action.pop
  let len ← Action.pop
  let (offset, len) ← Action.range offset len
  let topics ← popTopics topics
  let data ← Action.load offset len
  Action.modifyFrame fun f => f.addLog { address := f.address, topics, data }

def execute (fees : FeeSchedule) : Instruction → Action Unit
  | stop => do
    Action.modifyFrame ({ · with output := #[] })
    Action.setStatus .succeeded
  | ret => finish .succeeded
  | revert => finish .reverted
  | unary op => do
    let a ← Action.pop
    Action.push (op.eval a)
  | binary op => do
    let a ← Action.pop
    let b ← Action.pop
    Action.push (op.eval a b)
  | ternary op => do
    let a ← Action.pop
    let b ← Action.pop
    let c ← Action.pop
    Action.push (op.eval a b c)
  | read what => do
    Action.push (what.value (← Action.frame) (← Action.world))
  | lookup what => do
    let a ← Action.pop
    Action.push (what.value (← Action.frame) (← Action.world) a)
  | copy source => executeCopy source
  | keccak => executeKeccak
  | pop => do
    let _ ← Action.pop
  | push n => do
    let f ← Action.frame
    Action.push (f.code.immediate f.pc (n + 1))
  | dup n => Action.updateStack (·.dup n)
  | swap n => Action.updateStack (·.swap (n + 1))
  | memoryLoad => do
    let offset ← Action.size (← Action.pop)
    Action.push (← Action.loadWord offset)
  | memoryStore => do
    let offset ← Action.size (← Action.pop)
    let value ← Action.pop
    Action.store offset value.toBytes
  | memoryStoreByte => do
    let offset ← Action.size (← Action.pop)
    let value ← Action.pop
    Action.store offset #[UInt8.ofNat value.toNat]
  | storageStore => executeStorageStore fees
  | jump => do
    Action.setPc (← Action.size (← Action.pop))
  | jumpIf => do
    let destination ← Action.pop
    let condition ← Action.pop
    if condition = 0 then Action.setPc ((← Action.frame).pc + 1)
    else Action.setPc (← Action.size destination)
  | jumpDest => pure ()
  | beginSub => pure ()
  | jumpSub => do
    let location ← Action.size (← Action.pop)
    Action.pushReturn ((← Action.frame).pc + 1)
    Action.setPc (location + 1)
  | returnSub => do
    Action.setPc (← Action.popReturn)
  | log topics => executeLog topics
  | call kind => Call.execute fees kind

/-- The instruction as an operation, priced by `fees`. -/
def toOperation (fees : FeeSchedule) (i : Instruction) : Operation :=
  { i.signature with
    cost := fun f w => i.cost fees f w
    haltCondition := fun f _ => i.haltCondition fees f
    execute := i.execute fees }

end Instruction

end MeteredVm
