import MeteredVm.Word
import MeteredVm.Exit

/-!
# MeteredVm.Stack

The operand stack: a list whose head is the top, and a limit on its height. Items are counted
from the top, which is item 0. A refused operation leaves the stack as it was.
-/

namespace MeteredVm

structure Stack where
  items : List Word
  limit : UInt64
  deriving DecidableEq, Repr

namespace Stack

def empty (limit : UInt64) : Stack := ⟨[], limit⟩

def height (s : Stack) : Nat := s.items.length

def push (s : Stack) (w : Word) : Except HaltReason Stack :=
  if s.height + 1 > s.limit.toNat then .error .stackOverflow
  else .ok { s with items := w :: s.items }

def pop (s : Stack) : Except HaltReason (Word × Stack) :=
  match s.items with
  | [] => .error .stackUnderflow
  | w :: rest => .ok (w, { s with items := rest })

def peek (s : Stack) (n : Nat) : Except HaltReason Word :=
  match s.items[n]? with
  | some w => .ok w
  | none => .error .stackUnderflow

/-- Item `n`, zero when the stack does not reach that far. -/
def operand (s : Stack) (n : Nat) : Word := s.items.getD n 0

def set (s : Stack) (n : Nat) (w : Word) : Except HaltReason Stack :=
  if n < s.height then .ok { s with items := s.items.set n w } else .error .stackUnderflow

def dup (s : Stack) (n : Nat) : Except HaltReason Stack := do
  s.push (← s.peek n)

def swap (s : Stack) (n : Nat) : Except HaltReason Stack := do
  let top ← s.peek 0
  let other ← s.peek n
  (← s.set 0 other).set n top

end Stack

/-- Return addresses of subroutine calls, the innermost first, and a limit on their number. -/
structure ReturnStack where
  items : List Nat
  limit : UInt64
  deriving DecidableEq, Repr

namespace ReturnStack

def empty (limit : UInt64) : ReturnStack := ⟨[], limit⟩

def height (s : ReturnStack) : Nat := s.items.length

def isFull (s : ReturnStack) : Bool := decide (s.limit.toNat ≤ s.height)

def push (s : ReturnStack) (pc : Nat) : Except HaltReason ReturnStack :=
  if s.isFull then .error .returnStackOverflow else .ok { s with items := pc :: s.items }

def pop (s : ReturnStack) : Except HaltReason (Nat × ReturnStack) :=
  match s.items with
  | [] => .error .returnStackUnderflow
  | pc :: rest => .ok (pc, { s with items := rest })

end ReturnStack

end MeteredVm
