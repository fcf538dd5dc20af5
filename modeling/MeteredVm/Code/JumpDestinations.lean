import MeteredVm.Bytes
import MeteredVm.Opcode

/-!
# MeteredVm.Code.JumpDestinations

The positions of a code that may be jumped to, found by one linear scan.

The scan goes from each opcode to the one behind its immediate data, so immediate data is never a
destination. The landing marks of jumps and those of subroutine calls are recorded apart, each in a
bitmap of 64 positions to a word.

* `Bitmap.set`, `Bitmap.get` — the bit of a position.
* `JumpDestinations.analyze` — the scan.
-/

namespace MeteredVm

structure Bitmap (len : Nat) where
  words : Vector UInt64 ((len + 63) / 64)

namespace Bitmap

variable {len : Nat}

def zeros (len : Nat) : Bitmap len := ⟨Vector.replicate _ 0⟩

/-- The bit of a position in its word. -/
def mask (position : Nat) : UInt64 := 1 <<< UInt64.ofNat (position % 64)

theorem index_lt (position : Fin len) : position.val / 64 < (len + 63) / 64 := by omega

def set (bits : Bitmap len) (position : Fin len) : Bitmap len :=
  let i := position.val / 64
  have h : i < (len + 63) / 64 := index_lt position
  ⟨bits.words.set i (bits.words[i] ||| mask position)⟩

/-- Whether the bit of a position is set. Behind the last word there are none. -/
def get (bits : Bitmap len) (position : Nat) : Bool :=
  bits.words[position / 64]?.any fun word => word &&& mask position != 0

end Bitmap

structure JumpDestinations (len : Nat) where
  jumpDests : Bitmap len
  beginSubs : Bitmap len

namespace JumpDestinations

def empty (len : Nat) : JumpDestinations len := ⟨.zeros len, .zeros len⟩

def mark {len : Nat} (d : JumpDestinations len) (position : Fin len) (b : Opcode) :
    JumpDestinations len :=
  if b = Opcode.jumpDest then { d with jumpDests := d.jumpDests.set position }
  else if b = Opcode.beginSub then { d with beginSubs := d.beginSubs.set position }
  else d

/-- Records what is found from `position` on. -/
def scan (code : Bytes) (position : Nat) (d : JumpDestinations code.size) :
    JumpDestinations code.size :=
  if h : position < code.size then
    let b := code[position]
    scan code (position + 1 + Opcode.immediateLength b) (d.mark ⟨position, h⟩ b)
  else d
termination_by code.size - position

def analyze (code : Bytes) : JumpDestinations code.size := scan code 0 (empty code.size)

end JumpDestinations

end MeteredVm
