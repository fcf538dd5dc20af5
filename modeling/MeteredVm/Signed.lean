import MeteredVm.Word

/-!
# MeteredVm.Signed

Signed words as a sign and a magnitude.

* `Signed.ofWord` and `Signed.toWord` read and write two's complement.
* `Signed.compare`, `Signed.div` and `Signed.rem` follow the signs; division truncates and
  the remainder has the sign of the dividend.
* `Word.sdiv`, `Word.smod`, `Word.slt`, `Word.sgt` and `Word.sar` are the signed operations of
  the instruction set.

A value need not be in normal form: only zero with sign `zero` counts as zero for `div`.
-/

namespace MeteredVm

inductive Sign where
  | plus
  | minus
  | zero
  deriving DecidableEq, Repr

structure Signed where
  sign : Sign
  magnitude : Word
  deriving DecidableEq, Repr

namespace Signed

/-- All bits but the sign bit. -/
def magnitudeMask : Word := BitVec.allOnes 256 >>> 1

def zero : Signed := ⟨.zero, 0⟩

/-- The least signed word, `-2 ^ 255`. -/
def minValue : Signed := ⟨.minus, magnitudeMask + 1⟩

def ofWord (w : Word) : Signed :=
  if w = 0 then zero
  else if w &&& magnitudeMask = w then ⟨.plus, w⟩
  else ⟨.minus, ~~~w + 1⟩

def toWord : Signed → Word
  | ⟨.zero, _⟩ => 0
  | ⟨.plus, m⟩ => m
  | ⟨.minus, m⟩ => ~~~m + 1

/-- Orders by sign first; among negative values the larger magnitude is the smaller. -/
def compare : Signed → Signed → Ordering
  | ⟨.zero, _⟩, ⟨.zero, _⟩ => .eq
  | ⟨.zero, _⟩, ⟨.plus, _⟩ => .lt
  | ⟨.zero, _⟩, ⟨.minus, _⟩ => .gt
  | ⟨.minus, a⟩, ⟨.minus, b⟩ => (Ord.compare a.toNat b.toNat).swap
  | ⟨.minus, _⟩, _ => .lt
  | ⟨.plus, a⟩, ⟨.plus, b⟩ => Ord.compare a.toNat b.toNat
  | ⟨.plus, _⟩, _ => .gt

/--
The quotient truncated toward zero, and zero for a zero divisor. The least value divided by a
magnitude of one stays as it is, because its magnitude has no positive counterpart.
-/
def div (a b : Signed) : Signed :=
  if b = zero then zero
  else if a = minValue ∧ b.magnitude = 1 then minValue
  else
    let q := (a.magnitude / b.magnitude) &&& magnitudeMask
    if q = 0 then zero
    else match a.sign, b.sign with
      | .plus, .plus => ⟨.plus, q⟩
      | .minus, .minus => ⟨.plus, q⟩
      | _, _ => ⟨.minus, q⟩

/-- The remainder with the sign of the dividend, and zero for a zero divisor. -/
def rem (a b : Signed) : Signed :=
  if b.magnitude = 0 then zero
  else
    let r := (a.magnitude % b.magnitude) &&& magnitudeMask
    if r = 0 then zero else ⟨a.sign, r⟩

end Signed

namespace Word

def sdiv (a b : Word) : Word := ((Signed.ofWord a).div (Signed.ofWord b)).toWord

def smod (a b : Word) : Word :=
  if b = 0 then 0 else ((Signed.ofWord a).rem (Signed.ofWord b)).toWord

def slt (a b : Word) : Bool := (Signed.ofWord a).compare (Signed.ofWord b) == .lt

def sgt (a b : Word) : Bool := (Signed.ofWord a).compare (Signed.ofWord b) == .gt

/--
Arithmetic shift right, rounding down. A shift by 256 or more leaves only the sign: zero or
minus one.
-/
def sar (n w : Word) : Word :=
  match Signed.ofWord w with
  | ⟨.minus, m⟩ =>
    if n < 256 then (Signed.mk .minus (((m - 1) >>> n.toNat) + 1)).toWord
    else (Signed.mk .minus 1).toWord
  | ⟨_, m⟩ => if n < 256 then m >>> n.toNat else 0

end Word

end MeteredVm
