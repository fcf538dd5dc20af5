/-!
# MeteredVm.Word

The words the machine computes with.

* `Word` — 256 bits, the cells of the operand stack and of storage.
* `Address` — 160 bits, the name of an account; a word is cut to its low bits to name one.
* `DoubleWord` — 512 bits, for what is exact before it is reduced to a word.
* `Word.toSize?` — the reading of a word as a position or length, which must fit in 64 bits.
* the unsigned arithmetic of the instruction set; what is signed is in `MeteredVm.Signed`.
-/

namespace MeteredVm

abbrev Word := BitVec 256

abbrev Address := BitVec 160

/-- A number of 512 bits, in which any sum and any product of two words is exact. -/
abbrev DoubleWord := BitVec 512

/-- Sizes and positions are below this bound, `2 ^ 64`. -/
abbrev sizeBound : Nat := 0x1_0000_0000_0000_0000

/-- The sum of two sizes, if it is a size. -/
def addSize? (a b : Nat) : Option Nat := if a + b < sizeBound then some (a + b) else none

namespace Word

/-- The account a word names: its low 160 bits. -/
def toAddress (w : Word) : Address := w.setWidth 160

def ofAddress (a : Address) : Word := a.setWidth 256

def ofBool (b : Bool) : Word := if b then 1 else 0

def ofNat (n : Nat) : Word := BitVec.ofNat 256 n

/-- A word as a position or length, if it fits in 64 bits. -/
def toSize? (w : Word) : Option Nat :=
  if w.toNat < sizeBound then some w.toNat else none

/-- The sum of two words, if it is a word. -/
def add? (a b : Word) : Option Word :=
  if a.uaddOverflow b then none else some (a + b)

theorem add?_eq_some {a b c : Word} : add? a b = some c ↔ c.toNat = a.toNat + b.toNat := by
  unfold add?
  by_cases h : a.uaddOverflow b = true
  · rw [if_pos h]
    have hover := of_decide_eq_true h
    have hlt := c.isLt
    constructor
    · intro hnone
      cases hnone
    · intro hsum
      omega
  · have hsum := BitVec.toNat_add_of_not_uaddOverflow h
    rw [if_neg h, Option.some.injEq, ← hsum, ← BitVec.toNat_inj, eq_comm]

/-- The sum of two words, or the largest word. -/
def saturatingAdd (a b : Word) : Word :=
  (add? a b).getD (BitVec.allOnes 256)

/-- The number of 32-byte words that hold `w` bytes. -/
def wordCount (w : Word) : Nat := w.toNat / 32 + if w.toNat % 32 = 0 then 0 else 1

/-- The least number of bytes that can hold `w`; zero needs none. -/
def byteLength (w : Word) : Nat :=
  if w = 0 then 0 else w.toNat.log2 / 8 + 1

/-- The quotient; zero when the divisor is zero. -/
def div (a b : Word) : Word := if b = 0 then 0 else a / b

/-- The remainder; zero when the divisor is zero. -/
def mod (a b : Word) : Word := if b = 0 then 0 else a % b

def widen (w : Word) : DoubleWord := w.setWidth 512

/-- The word of the same value, if there is one: the high half is zero. -/
def narrow? (d : DoubleWord) : Option Word :=
  if d >>> 256 = 0 then some (d.setWidth 256) else none

/-- `(a + b) mod n` with the exact sum; zero when `n` is zero. -/
def addMod (a b n : Word) : Word :=
  if n = 0 then 0 else (narrow? ((widen a + widen b) % widen n)).getD 0

/-- `(a * b) mod n` with the exact product; zero when `n` is zero. -/
def mulMod (a b n : Word) : Word :=
  if n = 0 then 0 else (narrow? ((widen a * widen b) % widen n)).getD 0

/-- Square and multiply: `acc * base ^ e`, one round for each bit of `e`. -/
def powLoop (base : Word) (e : Nat) (acc : Word) : Word :=
  if e = 0 then acc
  else powLoop (base * base) (e / 2) (if e % 2 = 1 then acc * base else acc)
termination_by e

/-- The power modulo `2 ^ 256`; the zeroth power of zero is one. -/
def pow (base e : Word) : Word := powLoop base e.toNat 1

/--
Spreads the top bit of the low `k + 1` bytes of `w` over all higher bits. From `k = 31` on
there are no higher bits and `w` is returned.
-/
def signExtend (k w : Word) : Word :=
  if k < 32 then
    let top := 8 * k.toNat + 7
    let mask : Word := (1 <<< top) - 1
    if w.getLsbD top then w ||| ~~~mask else w &&& mask
  else w

/-- Byte `i` of `w`, counted from the most significant; zero past the last. -/
def byte (i w : Word) : Word :=
  if i < 32 then (w >>> (8 * (31 - i.toNat))) &&& 0xff else 0

/-- Shift left; a shift by 256 or more leaves nothing. -/
def shiftLeft (n w : Word) : Word :=
  if n < 256 then w <<< n.toNat else 0

/-- Logical shift right; a shift by 256 or more leaves nothing. -/
def shiftRight (n w : Word) : Word :=
  if n < 256 then w >>> n.toNat else 0

end Word

end MeteredVm
