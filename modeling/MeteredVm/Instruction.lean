import MeteredVm.Rules
import MeteredVm.Signature
import MeteredVm.Signed

/-!
# MeteredVm.Instruction

The instruction set.

Instructions are grouped by what they do to the frame, so that a fact about a whole group is
proved once: `unary`, `binary` and `ternary` only compute on operands, `read` only pushes a fact
about the frame, `lookup` replaces one operand by what it refers to, `copy` moves data to memory.

* `Instruction.signature` — opcode, mnemonic, stack shape and size.
* `Instruction.enabled` — whether the rules have the instruction.
* `Instruction.all` — every instruction.
-/

namespace MeteredVm

inductive UnaryOp where
  | isZero
  | not
  deriving DecidableEq, Repr

/-- Functions of two words; the first is the top of the stack. -/
inductive BinaryOp where
  | add
  | mul
  | sub
  | div
  | sdiv
  | mod
  | smod
  | exp
  | signExtend
  | lt
  | gt
  | slt
  | sgt
  | eq
  | and
  | or
  | xor
  | byte
  | shl
  | shr
  | sar
  deriving DecidableEq, Repr

inductive TernaryOp where
  | addMod
  | mulMod
  deriving DecidableEq, Repr

/-- Facts about the frame, its message and its block. -/
inductive Reading where
  | address
  | origin
  | caller
  | callValue
  | callDataSize
  | codeSize
  | gasPrice
  | returnDataSize
  | coinbase
  | timestamp
  | number
  | difficulty
  | gasLimit
  | chainId
  | selfBalance
  | baseFee
  | pc
  | memorySize
  | gas
  deriving DecidableEq, Repr

/-- What one operand may refer to. -/
inductive Lookup where
  | balance
  | callData
  | blockHash
  | storage
  deriving DecidableEq, Repr

/-- Data that can be copied to memory. -/
inductive CopySource where
  | callData
  | code
  | returnData
  deriving DecidableEq, Repr

/-- Counts in `push`, `dup`, `swap` are one less than the mnemonic says. -/
inductive Instruction where
  | stop
  | ret
  | revert
  | unary (op : UnaryOp)
  | binary (op : BinaryOp)
  | ternary (op : TernaryOp)
  | read (what : Reading)
  | lookup (what : Lookup)
  | copy (source : CopySource)
  | keccak
  | pop
  | push (n : Fin 32)
  | dup (n : Fin 16)
  | swap (n : Fin 16)
  | memoryLoad
  | memoryStore
  | memoryStoreByte
  | storageStore
  | jump
  | jumpIf
  | jumpDest
  | beginSub
  | jumpSub
  | returnSub
  | log (topics : Fin 5)
  | call (kind : CallKind)
  deriving DecidableEq, Repr

namespace UnaryOp

def all : List UnaryOp := [isZero, not]

def opcode : UnaryOp → Opcode
  | isZero => 0x15
  | not => 0x19

def name : UnaryOp → String
  | isZero => "ISZERO"
  | not => "NOT"

def eval : UnaryOp → Word → Word
  | isZero, a => Word.ofBool (a == 0)
  | not, a => ~~~a

end UnaryOp

namespace BinaryOp

def all : List BinaryOp :=
  [add, mul, sub, div, sdiv, mod, smod, exp, signExtend, lt, gt, slt, sgt, eq, and, or, xor, byte,
    shl, shr, sar]

def opcode : BinaryOp → Opcode
  | add => 0x01
  | mul => 0x02
  | sub => 0x03
  | div => 0x04
  | sdiv => 0x05
  | mod => 0x06
  | smod => 0x07
  | exp => 0x0a
  | signExtend => 0x0b
  | lt => 0x10
  | gt => 0x11
  | slt => 0x12
  | sgt => 0x13
  | eq => 0x14
  | and => 0x16
  | or => 0x17
  | xor => 0x18
  | byte => 0x1a
  | shl => 0x1b
  | shr => 0x1c
  | sar => 0x1d

def name : BinaryOp → String
  | add => "ADD"
  | mul => "MUL"
  | sub => "SUB"
  | div => "DIV"
  | sdiv => "SDIV"
  | mod => "MOD"
  | smod => "SMOD"
  | exp => "EXP"
  | signExtend => "SIGNEXTEND"
  | lt => "LT"
  | gt => "GT"
  | slt => "SLT"
  | sgt => "SGT"
  | eq => "EQ"
  | and => "AND"
  | or => "OR"
  | xor => "XOR"
  | byte => "BYTE"
  | shl => "SHL"
  | shr => "SHR"
  | sar => "SAR"

def eval : BinaryOp → Word → Word → Word
  | add, a, b => a + b
  | mul, a, b => a * b
  | sub, a, b => a - b
  | div, a, b => Word.div a b
  | sdiv, a, b => Word.sdiv a b
  | mod, a, b => Word.mod a b
  | smod, a, b => Word.smod a b
  | exp, a, b => Word.pow a b
  | signExtend, a, b => Word.signExtend a b
  | lt, a, b => Word.ofBool (decide (a < b))
  | gt, a, b => Word.ofBool (decide (b < a))
  | slt, a, b => Word.ofBool (Word.slt a b)
  | sgt, a, b => Word.ofBool (Word.sgt a b)
  | eq, a, b => Word.ofBool (a == b)
  | and, a, b => a &&& b
  | or, a, b => a ||| b
  | xor, a, b => a ^^^ b
  | byte, a, b => Word.byte a b
  | shl, a, b => Word.shiftLeft a b
  | shr, a, b => Word.shiftRight a b
  | sar, a, b => Word.sar a b

end BinaryOp

namespace TernaryOp

def all : List TernaryOp := [addMod, mulMod]

def opcode : TernaryOp → Opcode
  | addMod => 0x08
  | mulMod => 0x09

def name : TernaryOp → String
  | addMod => "ADDMOD"
  | mulMod => "MULMOD"

def eval : TernaryOp → Word → Word → Word → Word
  | addMod, a, b, c => Word.addMod a b c
  | mulMod, a, b, c => Word.mulMod a b c

end TernaryOp

namespace Reading

def all : List Reading :=
  [address, origin, caller, callValue, callDataSize, codeSize, gasPrice, returnDataSize, coinbase,
    timestamp, number, difficulty, gasLimit, chainId, selfBalance, baseFee, pc, memorySize, gas]

def opcode : Reading → Opcode
  | address => 0x30
  | origin => 0x32
  | caller => 0x33
  | callValue => 0x34
  | callDataSize => 0x36
  | codeSize => 0x38
  | gasPrice => 0x3a
  | returnDataSize => 0x3d
  | coinbase => 0x41
  | timestamp => 0x42
  | number => 0x43
  | difficulty => 0x44
  | gasLimit => 0x45
  | chainId => 0x46
  | selfBalance => 0x47
  | baseFee => 0x48
  | pc => 0x58
  | memorySize => 0x59
  | gas => 0x5a

def name : Reading → String
  | address => "ADDRESS"
  | origin => "ORIGIN"
  | caller => "CALLER"
  | callValue => "CALLVALUE"
  | callDataSize => "CALLDATASIZE"
  | codeSize => "CODESIZE"
  | gasPrice => "GASPRICE"
  | returnDataSize => "RETURNDATASIZE"
  | coinbase => "COINBASE"
  | timestamp => "TIMESTAMP"
  | number => "NUMBER"
  | difficulty => "DIFFICULTY"
  | gasLimit => "GASLIMIT"
  | chainId => "CHAINID"
  | selfBalance => "SELFBALANCE"
  | baseFee => "BASEFEE"
  | pc => "PC"
  | memorySize => "MSIZE"
  | gas => "GAS"

def enabled (c : Rules) : Reading → Bool
  | returnDataSize => c.returnData
  | chainId => c.chainId
  | selfBalance => c.selfBalance
  | baseFee => c.baseFee
  | _ => true

end Reading

namespace Lookup

def all : List Lookup := [balance, callData, blockHash, storage]

def opcode : Lookup → Opcode
  | balance => 0x31
  | callData => 0x35
  | blockHash => 0x40
  | storage => 0x54

def name : Lookup → String
  | balance => "BALANCE"
  | callData => "CALLDATALOAD"
  | blockHash => "BLOCKHASH"
  | storage => "SLOAD"

end Lookup

namespace CopySource

def all : List CopySource := [callData, code, returnData]

def opcode : CopySource → Opcode
  | callData => 0x37
  | code => 0x39
  | returnData => 0x3e

def name : CopySource → String
  | callData => "CALLDATACOPY"
  | code => "CODECOPY"
  | returnData => "RETURNDATACOPY"

end CopySource

namespace CallKind

def opcode : CallKind → Opcode
  | call => 0xf1
  | delegateCall => 0xf4
  | staticCall => 0xfa

def mnemonic : CallKind → String
  | call => "CALL"
  | delegateCall => "DELEGATECALL"
  | staticCall => "STATICCALL"

/-- Only a plain call has a value operand. -/
def hasValue : CallKind → Bool
  | call => true
  | _ => false

end CallKind

namespace Instruction

/-- An entry that takes `consumed` items, leaves `produced` and is one byte long. -/
def plain (opcode : Opcode) (name : String) (consumed produced : Nat) : Signature :=
  { opcode, name, consumed, produced }

def signature : Instruction → Signature
  | stop => plain 0x00 "STOP" 0 0
  | ret => plain 0xf3 "RETURN" 2 0
  | revert => plain 0xfd "REVERT" 2 0
  | unary op => plain op.opcode op.name 1 1
  | binary op => plain op.opcode op.name 2 1
  | ternary op => plain op.opcode op.name 3 1
  | read what => plain what.opcode what.name 0 1
  | lookup what => plain what.opcode what.name 1 1
  | copy source => plain source.opcode source.name 3 0
  | keccak => plain 0x20 "SHA3" 2 1
  | pop => plain 0x50 "POP" 1 0
  | push n =>
    { plain (UInt8.ofNat (0x60 + n)) ("PUSH" ++ toString (n.val + 1)) 0 1 with size := n + 2 }
  | dup n => plain (UInt8.ofNat (0x80 + n)) ("DUP" ++ toString (n.val + 1)) (n + 1) (n + 2)
  | swap n => plain (UInt8.ofNat (0x90 + n)) ("SWAP" ++ toString (n.val + 1)) (n + 2) (n + 2)
  | memoryLoad => plain 0x51 "MLOAD" 1 1
  | memoryStore => plain 0x52 "MSTORE" 2 0
  | memoryStoreByte => plain 0x53 "MSTORE8" 2 0
  | storageStore => plain 0x55 "SSTORE" 2 0
  | jump => { plain 0x56 "JUMP" 1 0 with jumps := true }
  | jumpIf => { plain 0x57 "JUMPI" 2 0 with jumps := true }
  | jumpDest => plain Opcode.jumpDest "JUMPDEST" 0 0
  | beginSub => plain Opcode.beginSub "BEGINSUB" 0 0
  | jumpSub => { plain 0x5e "JUMPSUB" 1 0 with jumps := true }
  | returnSub => { plain 0x5d "RETURNSUB" 0 0 with jumps := true }
  | log n => plain (UInt8.ofNat (0xa0 + n)) ("LOG" ++ toString n.val) (n + 2) 0
  | call kind => plain kind.opcode kind.mnemonic (if kind.hasValue then 7 else 6) 1

def enabled (c : Rules) : Instruction → Bool
  | revert => c.revert
  | binary .shl => c.shifts
  | binary .shr => c.shifts
  | binary .sar => c.shifts
  | read what => what.enabled c
  | copy .returnData => c.returnData
  | call .delegateCall => c.delegateCall
  | call .staticCall => c.staticCall
  | beginSub => c.subroutines
  | jumpSub => c.subroutines
  | returnSub => c.subroutines
  | _ => true

def all : List Instruction :=
  [stop, ret, revert, keccak, pop, memoryLoad, memoryStore, memoryStoreByte, storageStore, jump,
    jumpIf, jumpDest, beginSub, jumpSub, returnSub]
  ++ UnaryOp.all.map unary ++ BinaryOp.all.map binary ++ TernaryOp.all.map ternary
  ++ Reading.all.map read ++ Lookup.all.map lookup ++ CopySource.all.map copy
  ++ (List.finRange 32).map push ++ (List.finRange 16).map dup ++ (List.finRange 16).map swap
  ++ (List.finRange 5).map log ++ CallKind.all.map call

end Instruction

end MeteredVm
