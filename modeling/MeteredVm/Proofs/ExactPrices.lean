import Mathlib.Algebra.Group.Nat.Defs
import MeteredVm.Instruction.Cost

/-!
# MeteredVm.Proofs.ExactPrices

Prices that depend on operands are exact, and refused only if they have to be.

Each price is a chain of checked steps, in an order of its own, and every step may refuse. As no
step makes a number smaller, an earlier refusal is one that the last check would have made as well.
So a whole chain is one check of the exact sum: of the part that the operation costs by itself, and
of what the growth of memory costs.

* `Gas.ofNat?_bind`: a check before a step that makes nothing smaller is a part of the check after
  it. `Fees.bind_add`: own part and growth, added last.
* `ExactPrice`: what it means for a price to be exact. `ExactPrice.of_eq`: one check of the sum is.
* `FeeSchedule.prices_exact`: the prices of powers, memory accesses, copies, hashes, logs and calls.
-/

namespace MeteredVm

namespace Gas

theorem toNat_ofNat (n : Nat) (h : n < 0x1_0000_0000_0000_0000) :
    (OfNat.ofNat n : Gas).toNat = n := Nat.mod_eq_of_lt h

theorem ofNat?_of_lt {n : Nat} (h : n < 0x1_0000_0000_0000_0000) : ofNat? n = some ⟨n, h⟩ :=
  dif_pos h

/-- A check before a step that makes nothing smaller is a part of the check after it. -/
theorem ofNat?_bind {f : Nat → Nat} {n : Nat} (h : n ≤ f n) :
    ((ofNat? n).bind fun g => ofNat? (f g.toNat)) = ofNat? (f n) := by
  by_cases hn : n < 0x1_0000_0000_0000_0000
  · rw [ofNat?_of_lt hn]
    rfl
  · have hle := Nat.not_lt.mp hn
    rw [ofNat?_eq_none.mpr hle, ofNat?_eq_none.mpr (Nat.le_trans hle h)]
    rfl

theorem ofNat?_bind_add? (a : Gas) (n : Nat) : (ofNat? n).bind a.add? = ofNat? (a.toNat + n) :=
  ofNat?_bind (Nat.le_add_left n a.toNat)

theorem ofNat?_bind_mul? {a : Gas} (h : 1 ≤ a.toNat) (n : Nat) :
    (ofNat? n).bind a.mul? = ofNat? (a.toNat * n) :=
  ofNat?_bind (Nat.le_mul_of_pos_left n h)

theorem ite_add? (due : Bool) (base price : Gas) : (if due then base.add? price else some base) =
    ofNat? (base.toNat + if due then price.toNat else 0) := by
  cases due with
  | true => rfl
  | false => exact (ofNat?_of_lt base.isLt).symm

end Gas

theorem Word.wordCount_le_iff (w : Word) (k : Nat) : w.wordCount ≤ k ↔ w.toNat ≤ 32 * k := by
  unfold wordCount
  split <;> omega

theorem Word.byteLength_le_iff (w : Word) (k : Nat) : w.byteLength ≤ k ↔ w.toNat < 256 ^ k := by
  unfold byteLength
  by_cases hw : w = 0
  · rw [if_pos hw, hw]
    exact iff_of_true (Nat.zero_le k) (Nat.pow_pos (by decide))
  · have hpos : w.toNat ≠ 0 := fun h => hw (BitVec.eq_of_toNat_eq h)
    rw [if_neg hw, Nat.succ_le_iff, Nat.div_lt_iff_lt_mul (by decide), Nat.log2_lt hpos,
      Nat.mul_comm, Nat.pow_mul]

/--
`price` is `own` and what the growth of memory costs, as integers. It is refused if the growth is,
or if their sum is no amount of gas, and for no other reason.
-/
structure ExactPrice (price growth : Option Gas) (own : Nat) : Prop where
  amount (c : Gas) : price = some c ↔ ∃ g, growth = some g ∧ c.toNat = own + g.toNat
  overflow : price = none ↔ growth = none ∨ ∃ g, growth = some g ∧ 2 ^ 64 ≤ own + g.toNat

theorem ExactPrice.of_eq {price growth : Option Gas} {own : Nat}
    (h : price = growth.bind fun g => Gas.ofNat? (own + g.toNat)) :
    ExactPrice price growth own := by
  subst h
  constructor
  · intro c
    rw [Option.bind_eq_some_iff]
    simp only [Gas.ofNat?_eq_some]
  · rw [Option.bind_eq_none_iff]
    simp only [Gas.ofNat?_eq_none]
    cases growth with
    | none => simp
    | some g => simp

namespace Fees

theorem bind_add (own : Nat) (growth : Option Gas) :
    ((Gas.ofNat? own).bind fun c => growth.bind c.add?) =
      growth.bind fun g => Gas.ofNat? (own + g.toNat) := by
  cases growth with
  | none => exact Option.bind_fun_none _
  | some g => exact Gas.ofNat?_bind (f := (· + g.toNat)) (Nat.le_add_right own g.toNat)

section

variable (active : Nat) (offset len : Word)

theorem perWord_add {base price : Gas} (h : 1 ≤ price.toNat) (growth : Option Gas) :
    ((perWord price len).bind fun d => (base.add? d).bind fun c => growth.bind c.add?) =
      growth.bind fun g => Gas.ofNat? (base.toNat + price.toNat * len.wordCount + g.toNat) := by
  have hwords : perWord price len = Gas.ofNat? (price.toNat * len.wordCount) :=
    Gas.ofNat?_bind_mul? h len.wordCount
  rw [← Option.bind_assoc, hwords, Gas.ofNat?_bind_add?, bind_add]

theorem memoryAccess_exact :
    ExactPrice (memoryAccess active offset len) (expansion active offset len) 3 :=
  .of_eq rfl

theorem copy_exact : ExactPrice (copy active offset len) (expansion active offset len)
    (3 + 3 * len.wordCount) :=
  .of_eq (perWord_add len (by decide : 1 ≤ Gas.toNat 3) _)

theorem keccak_exact : ExactPrice (keccak active offset len) (expansion active offset len)
    (30 + 6 * len.wordCount) :=
  .of_eq (perWord_add len (by decide : 1 ≤ Gas.toNat 6) _)

theorem log_exact (topics : Nat) : ExactPrice (log active offset len topics)
    (expansion active offset len) (375 + 8 * len.toNat + 375 * topics) := by
  have hdata : (Gas.ofWord? len).bind (Gas.mul? 8) = Gas.ofNat? (8 * len.toNat) :=
    Gas.ofNat?_bind_mul? (by decide) len.toNat
  have hbase : (Gas.ofNat? (8 * len.toNat)).bind (Gas.add? 375) =
      Gas.ofNat? (375 + 8 * len.toNat) :=
    Gas.ofNat?_bind_add? 375 (8 * len.toNat)
  have hmarked : ((Gas.ofNat? (375 + 8 * len.toNat)).bind fun c =>
      (Gas.ofNat? (375 * topics)).bind c.add?) =
        Gas.ofNat? (375 + 8 * len.toNat + 375 * topics) :=
    (bind_add ..).trans (Gas.ofNat?_bind (Nat.le_add_left ..))
  refine .of_eq ?_
  calc log active offset len topics
      = (((Gas.ofWord? len).bind (Gas.mul? 8)).bind (Gas.add? 375)).bind fun c =>
          ((Gas.ofNat? (375 * topics)).bind c.add?).bind fun c =>
            (expansion active offset len).bind c.add? := by
        simp only [Option.bind_assoc]
        rfl
    _ = (Gas.ofNat? (375 + 8 * len.toNat + 375 * topics)).bind fun c =>
          (expansion active offset len).bind c.add? := by
        rw [hdata, hbase, ← Option.bind_assoc, hmarked]
    _ = _ := bind_add ..

end

end Fees

namespace FeeSchedule

variable (s : FeeSchedule) (power : Word)

theorem exp_eq : s.exp power = Gas.ofNat? (10 + s.exponentByte.toNat * power.byteLength) := by
  have hlen : power.byteLength < 0x1_0000_0000_0000_0000 :=
    Nat.lt_of_le_of_lt ((power.byteLength_le_iff 32).mpr power.isLt) (by decide)
  rw [exp, Gas.ofNat?_of_lt hlen, Nat.add_comm]
  exact Gas.ofNat?_bind (f := (· + 10)) (Nat.le_add_right ..)

def callOwn (transfersValue isNew : Bool) : Nat :=
  s.callBase.toNat + (if transfersValue then 9000 else 0) +
    (if isNew && (transfersValue || s.emptyExists) then 25000 else 0)

theorem call_eq (memoryCost : Gas) (transfersValue isNew : Bool) :
    s.call memoryCost transfersValue isNew =
      Gas.ofNat? (s.callOwn transfersValue isNew + memoryCost.toNat) := by
  have hvalue : Fees.callValue.toNat = 9000 := Gas.toNat_ofNat 9000 (by decide)
  have hnew : Fees.newAccount.toNat = 25000 := Gas.toNat_ofNat 25000 (by decide)
  have hcall : s.call memoryCost transfersValue isNew =
      ((s.callBase.add? memoryCost).bind fun c =>
        if transfersValue then c.add? Fees.callValue else some c).bind fun c =>
          if isNew && (transfersValue || s.emptyExists) then c.add? Fees.newAccount
          else some c := by
    rw [Option.bind_assoc]
    refine Option.bind_congr fun c _ => ?_
    cases transfersValue with
    | true =>
      rw [if_pos rfl, if_pos rfl]
      rfl
    | false => rfl
  simp only [hcall, Gas.ite_add?, hvalue, hnew, callOwn]
  generalize (if transfersValue = true then 9000 else 0) = value
  generalize (if (isNew && (transfersValue || s.emptyExists)) = true then 25000 else 0) = new
  have hvalued : ((s.callBase.add? memoryCost).bind fun c => Gas.ofNat? (c.toNat + value)) =
      Gas.ofNat? (s.callBase.toNat + memoryCost.toNat + value) :=
    Gas.ofNat?_bind (f := (· + value)) (Nat.le_add_right ..)
  rw [hvalued]
  refine (Gas.ofNat?_bind (f := (· + new)) (Nat.le_add_right ..)).trans (congrArg Gas.ofNat? ?_)
  omega

/--
All of this holds for any schedule. That a power always has a price does not: it takes a price for
a byte like that of the named tariffs.
-/
theorem prices_exact (active : Nat) (offset len : Word) (topics : Nat) (memoryCost : Gas)
    (transfersValue isNew : Bool) (kind : CallKind) (f : Frame) (w : World) :
    let growth := Fees.expansion active offset len
    ExactPrice (s.exp power) (some 0) (10 + s.exponentByte.toNat * power.byteLength) ∧
      (∀ k, power.byteLength ≤ k ↔ power.toNat < 256 ^ k) ∧
      (∀ k, len.wordCount ≤ k ↔ len.toNat ≤ 32 * k) ∧
      (∀ t : Tariff, ∃ c, t.fees.exp power = some c) ∧
      ExactPrice (Fees.memoryAccess active offset len) growth 3 ∧
      ExactPrice (Fees.copy active offset len) growth (3 + 3 * len.wordCount) ∧
      ExactPrice (Fees.keccak active offset len) growth (30 + 6 * len.wordCount) ∧
      ExactPrice (Fees.log active offset len topics) growth (375 + 8 * len.toNat + 375 * topics) ∧
      ExactPrice (s.call memoryCost transfersValue isNew) (some memoryCost)
        (s.callBase.toNat + (if transfersValue then 9000 else 0) +
          (if isNew && (transfersValue || s.emptyExists) then 25000 else 0)) ∧
      ExactPrice (Call.baseCost s kind f w) (Call.memoryCost kind f)
        (s.callOwn (Call.value kind f != 0) (Call.recipientIsNew s kind f w)) := by
  refine ⟨.of_eq (exp_eq s power), power.byteLength_le_iff, len.wordCount_le_iff, fun t => ?_,
    Fees.memoryAccess_exact active offset len, Fees.copy_exact active offset len,
    Fees.keccak_exact active offset len, Fees.log_exact active offset len topics,
    .of_eq (call_eq s memoryCost transfersValue isNew),
    .of_eq (Option.bind_congr fun g _ => call_eq ..)⟩
  have hlen := (power.byteLength_le_iff 32).mpr power.isLt
  have hbyte : t.fees.exponentByte.toNat ≤ 50 := by cases t <;> decide
  have hprice := Nat.mul_le_mul hbyte hlen
  exact ⟨_, (exp_eq t.fees power).trans (Gas.ofNat?_of_lt (by omega))⟩

end FeeSchedule

end MeteredVm
