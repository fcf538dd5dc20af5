import Mathlib.Data.Nat.ModEq
import MeteredVm.Proofs.TwosComplement

/-!
# MeteredVm.Proofs.ModularArithmetic

Powers, and sums and products under a modulus.

A power is multiplied up in words, where every product is cut to 256 bits. What has been multiplied
up, times the base to the exponent that is left, stays the same modulo `2 ^ 256` from one round to
the next. A sum or product under a modulus is not cut before it is reduced: it is formed in 512
bits, where it is exact, and its remainder is a word again.

* `Word.powLoop_modEq`: the invariant of the rounds. `Word.toNat_pow`: the power.
* `Word.toNat_reduce`: the remainder of 512 bits as a word.
  `Word.toNat_addMod`, `Word.toNat_mulMod`: exact sum and product, reduced.
* `Instruction.modular_results`: what the three instructions push.
-/

namespace MeteredVm

namespace Word

variable (a b n : Word)

theorem toNat_mul_modEq : (a * b).toNat ≡ a.toNat * b.toNat [MOD 2 ^ 256] := by
  rw [BitVec.toNat_mul]
  exact Nat.mod_modEq ..

/-- The low bit of the exponent, which a round takes off. -/
theorem toNat_multiplied_modEq (base acc : Word) (e : Nat) :
    (if e % 2 = 1 then acc * base else acc).toNat ≡
      acc.toNat * base.toNat ^ (e % 2) [MOD 2 ^ 256] := by
  rcases Nat.mod_two_eq_zero_or_one e with heven | hodd
  · rw [heven, if_neg (by decide), Nat.pow_zero, Nat.mul_one]
  · rw [hodd, if_pos rfl, Nat.pow_one]
    exact toNat_mul_modEq acc base

/-- The base is squared while the exponent is halved. -/
theorem powLoop_modEq (base : Word) (e : Nat) (acc : Word) :
    (powLoop base e acc).toNat ≡ acc.toNat * base.toNat ^ e [MOD 2 ^ 256] := by
  fun_induction powLoop base e acc with
  | case1 base acc => rw [Nat.pow_zero, Nat.mul_one]
  | case2 base e acc _ ih =>
    -- the low bit of `e` goes to the accumulator, twice the rest is spent on squaring the base
    have hsquared : (base * base).toNat ^ (e / 2) ≡ (base.toNat ^ 2) ^ (e / 2) [MOD 2 ^ 256] := by
      rw [Nat.pow_two]
      exact (toNat_mul_modEq base base).pow _
    calc (powLoop (base * base) (e / 2) (if e % 2 = 1 then acc * base else acc)).toNat
        ≡ (if e % 2 = 1 then acc * base else acc).toNat * (base * base).toNat ^ (e / 2)
          [MOD 2 ^ 256] := ih
      _ ≡ acc.toNat * base.toNat ^ (e % 2) * (base.toNat ^ 2) ^ (e / 2) [MOD 2 ^ 256] :=
        (toNat_multiplied_modEq base acc e).mul hsquared
      _ = acc.toNat * base.toNat ^ e := by
        rw [← Nat.pow_mul, Nat.mul_assoc, ← Nat.pow_add, Nat.mod_add_div]

theorem toNat_pow : (pow a b).toNat = a.toNat ^ b.toNat % 2 ^ 256 := by
  have hloop := powLoop_modEq a b.toNat 1
  rw [show (1 : Word).toNat = 1 from rfl, Nat.one_mul] at hloop
  rw [pow, ← hloop, Nat.mod_eq_of_lt (BitVec.isLt _)]

theorem toNat_widen : (widen a).toNat = a.toNat := BitVec.toNat_setWidth_of_le (by decide)

theorem toNat_setWidth_add {w v : Nat} (x y : BitVec w) (h : w < v) :
    (x.setWidth v + y.setWidth v).toNat = x.toNat + y.toNat := by
  have hwide : 2 ^ (w + 1) ≤ 2 ^ v := Nat.pow_le_pow_right (by decide) h
  have hx := x.isLt
  have hy := y.isLt
  rw [BitVec.toNat_add, BitVec.toNat_setWidth_of_le (Nat.le_of_lt h),
    BitVec.toNat_setWidth_of_le (Nat.le_of_lt h), Nat.mod_eq_of_lt (by omega)]

theorem toNat_setWidth_mul {w v : Nat} (x y : BitVec w) (h : w + w ≤ v) :
    (x.setWidth v * y.setWidth v).toNat = x.toNat * y.toNat := by
  have hwide : 2 ^ w * 2 ^ w ≤ 2 ^ v := by
    rw [← Nat.pow_add]
    exact Nat.pow_le_pow_right (by decide) h
  have hlt : x.toNat * y.toNat < 2 ^ v := Nat.lt_of_lt_of_le (Nat.mul_lt_mul'' x.isLt y.isLt) hwide
  rw [BitVec.toNat_mul, BitVec.toNat_setWidth_of_le (by omega),
    BitVec.toNat_setWidth_of_le (by omega), Nat.mod_eq_of_lt hlt]

theorem toNat_narrow {d : DoubleWord} (h : d.toNat < 2 ^ 256) :
    ((narrow? d).getD 0).toNat = d.toNat := by
  have hhigh : d >>> 256 = 0 := by
    apply BitVec.eq_of_toNat_eq
    rw [BitVec.toNat_ushiftRight, Nat.shiftRight_eq_div_pow, Nat.div_eq_of_lt h]
    exact BitVec.toNat_zero.symm
  rw [narrow?, if_pos hhigh, Option.getD_some, BitVec.toNat_setWidth]
  exact Nat.mod_eq_of_lt h

/-- A remainder is smaller than its divisor, so it fits where the divisor did. -/
theorem toNat_reduce {n : Word} (d : DoubleWord) (hn : n ≠ 0) :
    ((narrow? (d % widen n)).getD 0).toNat = d.toNat % n.toNat := by
  have hpos : 0 < n.toNat := Nat.pos_of_ne_zero fun h => hn (BitVec.eq_of_toNat_eq h)
  have hrem : (d % widen n).toNat = d.toNat % n.toNat := by rw [BitVec.toNat_umod, toNat_widen]
  have hfits : (d % widen n).toNat < 2 ^ 256 := by
    rw [hrem]
    exact Nat.lt_trans (Nat.mod_lt _ hpos) n.isLt
  rw [toNat_narrow hfits, hrem]

theorem toNat_addMod :
    (addMod a b n).toNat = if n = 0 then 0 else (a.toNat + b.toNat) % n.toNat := by
  unfold addMod
  by_cases hn : n = 0
  · rw [if_pos hn, if_pos hn]
    rfl
  · rw [if_neg hn, if_neg hn, toNat_reduce _ hn]
    exact congrArg (· % n.toNat) (toNat_setWidth_add a b (by decide))

theorem toNat_mulMod :
    (mulMod a b n).toNat = if n = 0 then 0 else a.toNat * b.toNat % n.toNat := by
  unfold mulMod
  by_cases hn : n = 0
  · rw [if_pos hn, if_pos hn]
    rfl
  · rw [if_neg hn, if_neg hn, toNat_reduce _ hn]
    exact congrArg (· % n.toNat) (toNat_setWidth_mul a b (by decide))

end Word

namespace Instruction

/-- Takes its operands off the stack and leaves the word of this value. -/
def Leaves (fees : FeeSchedule) (m : Machine) (i : Instruction) (value : Nat) : Prop :=
  ∃ result, i.Answers fees m result ∧ result.toNat = value

section

variable {fees : FeeSchedule} {m : Machine} {a b n : Word} {rest : List Word}

theorem ternary_answers (op : TernaryOp) (h : m.frame.stack.items = a :: b :: n :: rest)
    (hr : rest.length < m.frame.stack.limit.toNat) :
    (ternary op).Answers fees m (op.eval a b n) := by
  have hheight : m.frame.stack.height = rest.length + 3 := congrArg List.length h
  have ha : m.frame.operand 0 = a := Frame.operand_eq h 0
  have hb : m.frame.operand 1 = b := Frame.operand_eq h 1
  have hn : m.frame.operand 2 = n := Frame.operand_eq h 2
  have hrun : (ternary op).execute fees m = .ok () ((ternary op).machineAfter fees m) :=
    execute_ternary op (by omega) (by omega)
  rw [machineAfter, frameAfter, ha, hb, hn] at hrun
  exact hrun

/--
The first operand is the top of the stack: the base, or the left side of a sum or product. The
exponent lies below the base, and the modulus below the two sides. A power is reduced modulo
`2 ^ 256`, and the power to the exponent zero is one; a sum or product is not reduced before it is
divided, and it is zero for the modulus zero.
-/
theorem modular_results (fees : FeeSchedule) (h : m.frame.stack.items = a :: b :: rest)
    (hr : rest.length < m.frame.stack.limit.toNat) :
    (binary .exp).Leaves fees m (a.toNat ^ b.toNat % 2 ^ 256) ∧
      (b = 0 → (binary .exp).Leaves fees m 1) ∧
      ∀ n below, rest = n :: below →
        (ternary .addMod).Leaves fees m
          (if n = 0 then 0 else (a.toNat + b.toNat) % n.toNat) ∧
        (ternary .mulMod).Leaves fees m
          (if n = 0 then 0 else a.toNat * b.toNat % n.toNat) := by
  have hpow : (binary .exp).Leaves fees m (a.toNat ^ b.toNat % 2 ^ 256) :=
    ⟨_, binary_answers .exp h hr, Word.toNat_pow a b⟩
  refine ⟨hpow, fun hb => ?_, fun n below hrest => ?_⟩
  · subst hb
    exact hpow
  · subst hrest
    have hbelow : below.length < m.frame.stack.limit.toNat := Nat.lt_of_succ_lt hr
    exact ⟨⟨_, ternary_answers .addMod h hbelow, Word.toNat_addMod a b n⟩,
      ⟨_, ternary_answers .mulMod h hbelow, Word.toNat_mulMod a b n⟩⟩

end

/-- The power that leaves nothing, that of zero to zero, and a sum and a product above `2 ^ 256`. -/
theorem modular_results_holding :
    let fees := Rules.london.tariff.fees
    (binary .exp).Leaves fees (holding 2 256) 0 ∧
      (binary .exp).Leaves fees (holding 0 0) 1 ∧
      (ternary .addMod).Leaves fees (holding (-1) 2) ((2 ^ 256 + 1) % 11) ∧
      (ternary .mulMod).Leaves fees (holding (-1) (-1)) ((2 ^ 256 - 1) ^ 2 % 11) := by
  intro fees
  obtain ⟨hpow, -, -⟩ := modular_results fees (m := holding 2 256) rfl (by decide)
  obtain ⟨-, hone, -⟩ := modular_results fees (m := holding 0 0) rfl (by decide)
  obtain ⟨-, -, hsum⟩ := modular_results fees (m := holding (-1) 2) rfl (by decide)
  obtain ⟨-, -, hproduct⟩ := modular_results fees (m := holding (-1) (-1)) rfl (by decide)
  exact ⟨hpow, hone rfl, (hsum 11 [] rfl).1, (hproduct 11 [] rfl).2⟩

end Instruction

end MeteredVm
