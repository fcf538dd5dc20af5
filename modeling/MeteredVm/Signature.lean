import MeteredVm.Opcode
import MeteredVm.Text.Record

/-!
# MeteredVm.Signature

The fixed data of an operation: its opcode and mnemonic, how many stack items it takes and
leaves, and how far it moves the program counter.
-/

namespace MeteredVm

inductive Provenance where
  | table
  /-- The operation that stands for bytes without an entry. -/
  | placeholder
  /-- The operation behind the last byte of the code. -/
  | endOfCode
  deriving DecidableEq, Repr

structure Signature where
  opcode : Opcode
  name : String
  consumed : Nat
  produced : Nat
  /-- The encoded length, immediate data included. -/
  size : Nat := 1
  /-- Whether the operation sets the program counter itself. -/
  jumps : Bool := false
  provenance : Provenance := .table
  deriving DecidableEq, Repr

namespace Signature

/-- The net change of the stack height; counts are read as signed 64-bit numbers. -/
def stackChange (s : Signature) : Int :=
  (Int64.ofNat s.produced).toInt - (Int64.ofNat s.consumed).toInt

/-- Whether the operation does not exist in the code. -/
def isVirtual (s : Signature) : Bool := s.provenance == .endOfCode

def describeEntry (s : Signature) : String :=
  Text.record "Instruction"
    [("opcode", s.opcode.describe), ("name", Text.quoted s.name),
     ("consumed", toString s.consumed), ("produced", toString s.produced),
     ("size", toString s.size)]

def describe (s : Signature) : String :=
  match s.provenance with
  | .table => s.describeEntry
  | .placeholder => "InvalidOperation"
  | .endOfCode => Text.record "VirtualOperation" [("delegate", s.describeEntry)]

end Signature

end MeteredVm
