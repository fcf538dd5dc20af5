import MeteredVm.Journal
import MeteredVm.World

/-!
# MeteredVm.Machine

What a running operation can read and change, and the steps from which operations are built.

An `Action` that fails keeps every change made before the failure.
-/

namespace MeteredVm

structure Machine where
  frame : Frame
  world : World
  journal : Journal := []

/-- A change of the machine that may fail and then keeps what it had done. -/
abbrev Action := EStateM Fatal Machine

namespace Machine

@[inline] def record (m : Machine) (e : Event) : Machine := { m with journal := e :: m.journal }

@[inline] def withFrame (m : Machine) (f : Frame) : Machine := { m with frame := f }

end Machine

namespace Action

def fail (failure : Fatal) : Action α := fun m => .error failure m

/-- The value, or a failure if there is none. -/
def require (failure : Fatal) (value : Option α) : Action α := fun m =>
  match value with
  | some a => .ok a m
  | none => .error failure m

def frame : Action Frame := fun m => .ok m.frame m

def world : Action World := fun m => .ok m.world m

def record (e : Event) : Action Unit := fun m => .ok () (m.record e)

def modifyFrame (change : Frame → Frame) : Action Unit := fun m =>
  .ok () (m.withFrame (change m.frame))

def modifyWorld (change : World → World) : Action Unit := fun m =>
  .ok () { m with world := change m.world }

/-- Replaces the operand stack; a halt that this meets was not ruled out by the checks. -/
def updateStack (change : Stack → Except HaltReason Stack) : Action Unit := fun m =>
  match change m.frame.stack with
  | .ok stack => .ok () (m.withFrame { m.frame with stack := stack })
  | .error reason => .error (.unchecked reason) m

def push (w : Word) : Action Unit := updateStack (·.push w)

def pop : Action Word := fun m =>
  match m.frame.stack.pop with
  | .ok (w, stack) => .ok w (m.withFrame { m.frame with stack := stack })
  | .error reason => .error (.unchecked reason) m

def pushReturn (pc : Nat) : Action Unit := fun m =>
  match m.frame.returnStack.push pc with
  | .ok stack => .ok () (m.withFrame { m.frame with returnStack := stack })
  | .error reason => .error (.unchecked reason) m

def popReturn : Action Nat := fun m =>
  match m.frame.returnStack.pop with
  | .ok (pc, stack) => .ok pc (m.withFrame { m.frame with returnStack := stack })
  | .error reason => .error (.unchecked reason) m

def setPc (pc : Nat) : Action Unit := modifyFrame ({ · with pc := pc })

/-- An operand as a position or length. -/
def size (w : Word) : Action Nat := require (.unchecked .memoryOutOfBounds) w.toSize?

/-- Operands as a memory range. An empty range lies at offset 0, whatever was asked for. -/
def range (offset len : Word) : Action (Nat × Nat) :=
  if len = 0 then pure (0, 0)
  else do
    let offset ← size offset
    let len ← size len
    pure (offset, len)

def expand (offset len : Nat) : Action Unit :=
  modifyFrame fun f => { f with memory := f.memory.expand offset len }

/-- The bytes of a memory range, which becomes active. -/
def load (offset len : Nat) : Action Bytes := fun m =>
  .ok (m.frame.memory.read offset len)
    (m.withFrame { m.frame with memory := m.frame.memory.expand offset len })

/-- The word at a memory offset, whose range becomes active. -/
def loadWord (offset : Nat) : Action Word := fun m =>
  .ok (m.frame.memory.readWord offset)
    (m.withFrame { m.frame with memory := m.frame.memory.expand offset 32 })

def store (offset : Nat) (bytes : Bytes) : Action Unit :=
  modifyFrame fun f => { f with memory := f.memory.write offset bytes }

def setStatus (status : Status) : Action Unit := fun m =>
  match m.frame.setStatus status with
  | .ok f => .ok () (m.withFrame f)
  | .error failure => .error failure m

end Action

end MeteredVm
