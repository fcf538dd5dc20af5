import MeteredVm.Code.JumpDestinations

/-!
# MeteredVm.Code

Byte code with the analysis of its jump destinations, which is made once.
-/

namespace MeteredVm

structure Code where
  bytes : Bytes
  version : Nat
  destinations : JumpDestinations bytes.size
  analyzed : destinations = .analyze bytes

namespace Code

def ofBytes (bytes : Bytes) (version : Nat) : Code := ⟨bytes, version, .analyze bytes, rfl⟩

def empty : Code := ofBytes #[] 0

instance : Inhabited Code := ⟨empty⟩

def size (c : Code) : Nat := c.bytes.size

def isEmpty (c : Code) : Bool := c.bytes.isEmpty

/-- The byte at `pc`, `none` past the end. -/
def opcodeAt? (c : Code) (pc : Nat) : Option Opcode := c.bytes[pc]?

def isJumpDest (c : Code) (pc : Nat) : Bool := c.destinations.jumpDests.get pc

def isBeginSub (c : Code) (pc : Nat) : Bool := c.destinations.beginSubs.get pc

/--
The word whose low `len` bytes are those after `pc`. Where the code ends early, they are the high
ones among these, and zeros stand in for the missing ones.
-/
def immediate (c : Code) (pc len : Nat) : Word :=
  let data := c.bytes.extract (pc + 1) (pc + 1 + len)
  Bytes.toWord (Array.replicate (32 - len) 0 ++ data ++ Array.replicate (len - data.size) 0)

end Code

end MeteredVm
