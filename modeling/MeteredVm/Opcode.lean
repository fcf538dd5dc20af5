import MeteredVm.Text.Hex

/-!
# MeteredVm.Opcode

The first byte of an encoded operation. The bytes `0x60` to `0x7f` are followed by one to
thirty-two bytes of immediate data; all others stand alone.
-/

namespace MeteredVm

abbrev Opcode := UInt8

namespace Opcode

/-- The landing mark of jumps. -/
def jumpDest : Opcode := 0x5b

/-- The landing mark of subroutine calls. -/
def beginSub : Opcode := 0x5c

/-- The number of immediate bytes of a push. -/
def pushLength? (b : Opcode) : Option Nat :=
  if 0x60 ≤ b ∧ b ≤ 0x7f then some (b.toNat - 0x60 + 1) else none

/-- The number of bytes that follow the opcode and belong to it. -/
def immediateLength (b : Opcode) : Nat := (pushLength? b).getD 0

def describe (b : Opcode) : String := "Opcode(0x" ++ Hex.padded 2 b.toNat ++ ")"

end Opcode

end MeteredVm
