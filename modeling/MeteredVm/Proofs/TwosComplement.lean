import Mathlib.Algebra.Ring.Int.Defs
import MeteredVm.Proofs.Effects

/-!
# MeteredVm.Proofs.TwosComplement

The signed operations compute with the integers that two's complement gives to words.

A word is read as a sign and a magnitude, and every operation is done on these: bits above the
magnitude are masked off, the least value has cases of its own, and a shift of a negative value
goes through its predecessor. What carries all of it is the relation between the pair and the
integer, for each sign one case. The results are then `BitVec.ofInt 256` of the integer that the
operation is named for.

* `Signed.Reads`: what reading a word of a given integer comes to. `Signed.reads_ofWord`.
* `Signed.value_div`, `Signed.value_rem`, `Signed.compare_eq`: quotient, remainder and order of
  such pairs are those of the integers.
* `Word.sdiv_eq`, `Word.smod_eq`, `Word.slt_eq`, `Word.sgt_eq`, `Word.sar_eq` and
  `Word.signExtend_eq`: the same on words.
* `Instruction.signed_results`: what the six instructions push.
-/

namespace MeteredVm

namespace Signed

/-- The integer that a sign and a magnitude stand for. -/
def value : Signed → Int
  | ⟨.zero, _⟩ => 0
  | ⟨.plus, m⟩ => m.toNat
  | ⟨.minus, m⟩ => -m.toNat

/-- What reading a word of the signed value `i` comes to. -/
inductive Reads : Signed → Int → Prop where
  | zero : Reads .zero 0
  | plus (m : Word) : 0 < m.toNat → m.toNat < 2 ^ 255 → Reads ⟨.plus, m⟩ m.toNat
  | minus (m : Word) : 0 < m.toNat → m.toNat ≤ 2 ^ 255 → Reads ⟨.minus, m⟩ (-m.toNat)

theorem toWord_eq (s : Signed) : s.toWord = BitVec.ofInt 256 s.value := by
  obtain ⟨sign, m⟩ := s
  cases sign with
  | zero => rfl
  | plus => simp [toWord, value]
  | minus =>
    show ~~~m + 1 = BitVec.ofInt 256 (-m.toNat)
    rw [BitVec.ofInt_neg, BitVec.ofInt_natCast, BitVec.ofNat_toNat, BitVec.setWidth_eq]
    exact (BitVec.neg_eq_not_add m).symm

theorem toNat_and_mask (w : Word) : (w &&& magnitudeMask).toNat = w.toNat % 2 ^ 255 := by
  have hmask : magnitudeMask.toNat = 2 ^ 255 - 1 := by decide
  rw [BitVec.toNat_and, hmask, Nat.and_two_pow_sub_one_eq_mod]

theorem and_mask_eq_iff (w : Word) : w &&& magnitudeMask = w ↔ w.toNat < 2 ^ 255 := by
  rw [← BitVec.toNat_inj, toNat_and_mask]
  omega

theorem reads_ofWord (w : Word) : (ofWord w).Reads w.toInt := by
  have hlt := w.isLt
  unfold ofWord
  by_cases hzero : w = 0
  · rw [if_pos hzero, hzero]
    exact .zero
  · have hpos : 0 < w.toNat := Nat.pos_of_ne_zero fun h => hzero (BitVec.eq_of_toNat_eq h)
    rw [if_neg hzero]
    by_cases hmask : w &&& magnitudeMask = w
    · rw [if_pos hmask]
      rw [and_mask_eq_iff] at hmask
      have hvalue : w.toInt = w.toNat := by
        rw [BitVec.toInt_eq_toNat_cond, if_pos (by omega)]
      rw [hvalue]
      exact .plus w hpos hmask
    · rw [if_neg hmask]
      rw [and_mask_eq_iff] at hmask
      have hneg : (~~~w + 1).toNat = 2 ^ 256 - w.toNat := by
        have h := BitVec.toNat_neg w
        rw [BitVec.neg_eq_not_add] at h
        refine h.trans (Nat.mod_eq_of_lt ?_)
        omega
      have hvalue : w.toInt = -((~~~w + 1).toNat : Int) := by
        rw [BitVec.toInt_eq_toNat_cond, if_neg (by omega), hneg]
        omega
      rw [hvalue]
      exact .minus _ (by omega) (by omega)

theorem value_ite_zero (sign : Sign) (m : Word) :
    (if m = 0 then zero else ⟨sign, m⟩ : Signed).value = value ⟨sign, m⟩ := by
  by_cases h : m = 0
  · rw [if_pos h, h]
    cases sign <;> rfl
  · rw [if_neg h]

/-- Two operands of one sign have a positive quotient. -/
def quotientSign : Sign → Sign → Sign
  | .plus, .plus => .plus
  | .minus, .minus => .plus
  | _, _ => .minus

section

variable {x y : Signed} {i j : Int}

/-- Only the least value has a magnitude without a positive counterpart. -/
theorem Reads.magnitude_lt (hx : x.Reads i) (h : x ≠ minValue) : x.magnitude.toNat < 2 ^ 255 := by
  cases hx with
  | zero => decide
  | plus m _ hlt => exact hlt
  | minus m _ hle =>
    refine Nat.lt_of_le_of_ne hle fun hm => h ?_
    have hmin : m = magnitudeMask + 1 := BitVec.eq_of_toNat_eq (hm.trans (by decide))
    rw [hmin]
    rfl

theorem Reads.magnitude_le (hx : x.Reads i) : x.magnitude.toNat ≤ 2 ^ 255 := by
  by_cases h : x = minValue
  · subst h
    decide
  · exact Nat.le_of_lt (hx.magnitude_lt h)

theorem Reads.eq_zero (hx : x.Reads i) (h : x.magnitude = 0) : i = 0 := by
  cases hx with
  | zero => rfl
  | plus m hpos _ => exact absurd (congrArg BitVec.toNat h) (Nat.ne_of_gt hpos)
  | minus m hpos _ => exact absurd (congrArg BitVec.toNat h) (Nat.ne_of_gt hpos)

/-- Outside of the one division that overflows, no bit of the quotient is masked. -/
theorem toNat_quotient (hx : x.Reads i) (h : ¬(x = minValue ∧ y.magnitude = 1)) :
    ((x.magnitude / y.magnitude) &&& magnitudeMask).toNat =
      x.magnitude.toNat / y.magnitude.toNat := by
  rw [toNat_and_mask, BitVec.toNat_udiv]
  refine Nat.mod_eq_of_lt ?_
  by_cases hmin : x = minValue
  · have hone : y.magnitude.toNat ≠ 1 := fun hy => h ⟨hmin, BitVec.eq_of_toNat_eq hy⟩
    have hle := hx.magnitude_le
    obtain hzero | htwo : y.magnitude.toNat = 0 ∨ 2 ≤ y.magnitude.toNat := by omega
    · rw [hzero, Nat.div_zero]
      decide
    · have hhalf := Nat.div_le_div hle htwo (by decide)
      omega
  · exact Nat.lt_of_le_of_lt (Nat.div_le_self ..) (hx.magnitude_lt hmin)

theorem value_div_eq (hy : y ≠ zero) (h : ¬(x = minValue ∧ y.magnitude = 1)) :
    (x.div y).value =
      value ⟨quotientSign x.sign y.sign, (x.magnitude / y.magnitude) &&& magnitudeMask⟩ := by
  rw [div, if_neg hy, if_neg h]
  refine Eq.trans ?_ (value_ite_zero ..)
  cases x.sign <;> cases y.sign <;> rfl

theorem value_div (hx : x.Reads i) (hy : y.Reads j) (h : ¬(x = minValue ∧ y.magnitude = 1)) :
    (x.div y).value = i.tdiv j := by
  have hquot := toNat_quotient hx h
  cases hy with
  | zero =>
    rw [div, if_pos rfl, Int.tdiv_zero]
    rfl
  | plus n hpos hlt =>
    rw [value_div_eq (by simp [zero]) h]
    cases hx with
    | zero => simp [value, quotientSign, zero]
    | plus m _ _ => exact congrArg Int.ofNat hquot
    | minus m _ _ =>
      rw [Int.neg_tdiv, ← Int.ofNat_tdiv]
      exact congrArg (fun q : Nat => -(q : Int)) hquot
  | minus n hpos hle =>
    rw [value_div_eq (by simp [zero]) h]
    cases hx with
    | zero => simp [value, quotientSign, zero]
    | plus m _ _ =>
      rw [Int.tdiv_neg, ← Int.ofNat_tdiv]
      exact congrArg (fun q : Nat => -(q : Int)) hquot
    | minus m _ _ =>
      rw [Int.neg_tdiv_neg]
      exact congrArg Int.ofNat hquot

/-- The one division that overflows gives the least value back, whose sign it cannot change. -/
theorem toWord_div (hx : x.Reads i) (hy : y.Reads j) :
    (x.div y).toWord = BitVec.ofInt 256 (i.tdiv j) := by
  by_cases h : x = minValue ∧ y.magnitude = 1
  · obtain ⟨rfl, hone⟩ := h
    cases hx with
    | minus m _ _ =>
      cases hy with
      | zero => rfl
      | plus n _ _ =>
        subst hone
        decide
      | minus n _ _ =>
        subst hone
        decide
  · rw [toWord_eq, value_div hx hy h]

theorem toNat_remainder (hy : y.Reads j) (h : y.magnitude ≠ 0) :
    ((x.magnitude % y.magnitude) &&& magnitudeMask).toNat =
      x.magnitude.toNat % y.magnitude.toNat := by
  rw [toNat_and_mask, BitVec.toNat_umod]
  have hpos : 0 < y.magnitude.toNat := Nat.pos_of_ne_zero fun hy0 => h (BitVec.eq_of_toNat_eq hy0)
  exact Nat.mod_eq_of_lt (Nat.lt_of_lt_of_le (Nat.mod_lt _ hpos) hy.magnitude_le)

theorem value_rem (hx : x.Reads i) (hy : y.Reads j) (h : y.magnitude ≠ 0) :
    (x.rem y).value = i.tmod j := by
  have hrem := toNat_remainder (x := x) hy h
  rw [rem, if_neg h]
  dsimp only
  rw [value_ite_zero]
  have hsign : i.tmod j = i.tmod y.magnitude.toNat := by
    cases hy with
    | zero => exact absurd rfl h
    | plus n _ _ => rfl
    | minus n _ _ => exact Int.tmod_neg ..
  rw [hsign]
  cases hx with
  | zero => simp [value, zero]
  | plus m _ _ => exact congrArg Int.ofNat hrem
  | minus m _ _ =>
    rw [Int.neg_tmod, ← Int.ofNat_tmod]
    exact congrArg (fun r : Nat => -(r : Int)) hrem

/-- Signs and magnitudes are ordered like their values. -/
theorem compare_eq (hx : x.Reads i) (hy : y.Reads j) : x.compare y = Ord.compare i j := by
  cases hx with
  | zero =>
    cases hy with
    | zero => rfl
    | plus n hn _ => exact (Int.compare_eq_lt.mpr (by omega)).symm
    | minus n hn _ => exact (Int.compare_eq_gt.mpr (by omega)).symm
  | plus m hm _ =>
    cases hy with
    | zero => exact (Int.compare_eq_gt.mpr (by omega)).symm
    | plus n hn _ =>
      show Ord.compare m.toNat n.toNat = _
      rw [Nat.compare_eq_ite_lt, Int.compare_eq_ite_lt]
      simp only [Int.ofNat_lt]
    | minus n hn _ => exact (Int.compare_eq_gt.mpr (by omega)).symm
  | minus m hm _ =>
    cases hy with
    | zero => exact (Int.compare_eq_lt.mpr (by omega)).symm
    | plus n hn _ => exact (Int.compare_eq_lt.mpr (by omega)).symm
    | minus n hn _ =>
      show (Ord.compare m.toNat n.toNat).swap = _
      rw [Nat.compare_swap, Nat.compare_eq_ite_lt, Int.compare_eq_ite_lt]
      simp only [Int.neg_lt_neg_iff, Int.ofNat_lt]

end

end Signed

namespace Word

variable (a b n : Word)

theorem sdiv_eq : sdiv a b = BitVec.ofInt 256 (a.toInt.tdiv b.toInt) :=
  Signed.toWord_div (Signed.reads_ofWord a) (Signed.reads_ofWord b)

theorem smod_eq : smod a b = if b = 0 then 0 else BitVec.ofInt 256 (a.toInt.tmod b.toInt) := by
  unfold smod
  by_cases hb : b = 0
  · rw [if_pos hb, if_pos hb]
  · have hmagnitude : (Signed.ofWord b).magnitude ≠ 0 := fun h =>
      hb (BitVec.eq_of_toInt_eq ((Signed.reads_ofWord b).eq_zero h))
    rw [if_neg hb, if_neg hb, Signed.toWord_eq,
      Signed.value_rem (Signed.reads_ofWord a) (Signed.reads_ofWord b) hmagnitude]

theorem sdiv_mul_add_smod {a b : Word} (hb : b ≠ 0) : sdiv a b * b + smod a b = a := by
  have hdivide := congrArg (BitVec.ofInt 256) (Int.tdiv_mul_add_tmod a.toInt b.toInt)
  rw [BitVec.ofInt_add, BitVec.ofInt_mul, BitVec.ofInt_toInt, BitVec.ofInt_toInt] at hdivide
  rw [sdiv_eq, smod_eq, if_neg hb, hdivide]

theorem slt_eq : slt a b = decide (a.toInt < b.toInt) := by
  rw [slt, Signed.compare_eq (Signed.reads_ofWord a) (Signed.reads_ofWord b), Bool.eq_iff_iff,
    beq_iff_eq, decide_eq_true_iff, Int.compare_eq_lt]

theorem sgt_eq : sgt a b = decide (b.toInt < a.toInt) := by
  rw [sgt, Signed.compare_eq (Signed.reads_ofWord a) (Signed.reads_ofWord b), Bool.eq_iff_iff,
    beq_iff_eq, decide_eq_true_iff, Int.compare_eq_gt]

/-- By 256 or more no bit is left, and the quotient is zero as well. -/
theorem toNat_shiftRight : (shiftRight n a).toNat = a.toNat / 2 ^ n.toNat := by
  unfold shiftRight
  by_cases hn : n < 256
  · rw [if_pos hn, BitVec.toNat_ushiftRight, Nat.shiftRight_eq_div_pow]
  · have hlt : a.toNat < 2 ^ n.toNat :=
      Nat.lt_of_lt_of_le a.isLt (Nat.pow_le_pow_right (by decide) (BitVec.not_lt.mp hn))
    rw [if_neg hn, Nat.div_eq_of_lt hlt]
    rfl

/-- A magnitude that is shifted through its predecessor. The successor is a magnitude again. -/
theorem toNat_shiftRight_pred {m : Word} (hpos : 0 < m.toNat) (hle : m.toNat ≤ 2 ^ 255) :
    (shiftRight n (m - 1) + 1).toNat = (m.toNat - 1) / 2 ^ n.toNat + 1 := by
  have hpred : (m - 1).toNat = m.toNat - 1 := BitVec.toNat_sub_of_le (BitVec.le_def.mpr hpos)
  have hdiv := Nat.div_le_self (m.toNat - 1) (2 ^ n.toNat)
  rw [BitVec.toNat_add, toNat_shiftRight, hpred]
  exact Nat.mod_eq_of_lt (show _ + 1 < _ by omega)

theorem neg_ediv {m k : Nat} (hm : 0 < m) (hk : 0 < k) :
    -(m : Int) / k = -(((m - 1) / k + 1 : Nat) : Int) := by
  cases m with
  | zero => exact absurd hm (Nat.lt_irrefl 0)
  | succ p => exact Int.negSucc_ediv p (Int.natCast_pos.mpr hk)

/-- A shift right rounds down, also when nothing but the sign is left. -/
theorem sar_eq : sar n a = BitVec.ofInt 256 (a.toInt.fdiv (2 ^ n.toNat)) := by
  have hread := Signed.reads_ofWord a
  unfold sar
  generalize Signed.ofWord a = s at hread
  generalize a.toInt = i at hread
  have hfloor : i.fdiv (2 ^ n.toNat) = i / (2 ^ n.toNat : Nat) := by
    rw [Int.fdiv_eq_ediv_of_nonneg _ (Int.pow_nonneg (by decide)), Int.natCast_pow]
    rfl
  rw [hfloor]
  cases hread with
  | zero =>
    refine BitVec.eq_of_toNat_eq ((toNat_shiftRight 0 n).trans ?_)
    rw [Int.zero_ediv]
    exact Nat.zero_div _
  | plus m _ _ =>
    refine BitVec.eq_of_toNat_eq ((toNat_shiftRight m n).trans ?_)
    rw [← Int.natCast_ediv, BitVec.ofInt_natCast, BitVec.toNat_ofNat]
    exact (Nat.mod_eq_of_lt (Nat.lt_of_le_of_lt (Nat.div_le_self ..) m.isLt)).symm
  | minus m hpos hle =>
    -- From a shift of 256 on the two branches of `sar` are again one shift.
    have hshift : (if n < 256 then (Signed.mk .minus (((m - 1) >>> n.toNat) + 1)).toWord
        else (Signed.mk .minus 1).toWord) =
          (Signed.mk .minus (shiftRight n (m - 1) + 1)).toWord := by
      unfold shiftRight
      split <;> rfl
    rw [neg_ediv hpos (Nat.pow_pos (by decide)), ← toNat_shiftRight_pred n hpos hle]
    exact hshift.trans (Signed.toWord_eq _)

theorem getLsbD_mask {top : Nat} (h : top < 256) (i : Nat) :
    (((1 <<< top : Nat) : Word) - 1).getLsbD i = decide (i < top) := by
  have hbit : ((1 <<< top : Nat) : Word).toNat = 2 ^ top := by
    rw [Nat.one_shiftLeft]
    exact Nat.mod_eq_of_lt (Nat.pow_lt_pow_right (by decide) h)
  have hmask : (((1 <<< top : Nat) : Word) - 1).toNat = 2 ^ top - 1 := by
    rw [BitVec.toNat_sub_of_le (BitVec.le_def.mpr (hbit ▸ Nat.one_le_two_pow)), hbit]
    rfl
  rw [BitVec.getLsbD, hmask, Nat.testBit_two_pow_sub_one]

theorem spread_eq {top : Nat} {mask : Word}
    (hmask : ∀ i, mask.getLsbD i = decide (i < top)) :
    (if a.getLsbD top then a ||| ~~~mask else a &&& mask) =
      (a.setWidth (top + 1)).signExtend 256 := by
  refine BitVec.eq_of_getLsbD_eq fun i hi => ?_
  rw [BitVec.getLsbD_signExtend, BitVec.getLsbD_setWidth, BitVec.msb_setWidth'', decide_eq_true hi,
    Bool.true_and]
  cases hsign : a.getLsbD top with
  | true =>
    rw [if_pos rfl, BitVec.getLsbD_or, BitVec.getLsbD_not, hmask, decide_eq_true hi, Bool.true_and]
    obtain hlow | rfl | hhigh := Nat.lt_trichotomy i top
    · simp [hlow, Nat.lt_succ_of_lt hlow]
    · simp [hsign]
    · simp [Nat.lt_asymm hhigh, Nat.not_lt.mpr hhigh]
  | false =>
    rw [if_neg Bool.false_ne_true, BitVec.getLsbD_and, hmask]
    obtain hlow | rfl | hhigh := Nat.lt_trichotomy i top
    · simp [hlow, Nat.lt_succ_of_lt hlow]
    · simp [hsign]
    · simp [Nat.lt_asymm hhigh, Nat.not_lt.mpr hhigh]

theorem signExtend_eq (k : Word) : signExtend k a =
    if k.toNat < 32 then BitVec.ofInt 256 (a.setWidth (8 * (k.toNat + 1))).toInt else a := by
  unfold signExtend
  by_cases hk : k < 32
  · have hlt : k.toNat < 32 := hk
    rw [if_pos hk, if_pos hlt]
    exact spread_eq a (getLsbD_mask (by omega))
  · have hge : ¬k.toNat < 32 := hk
    rw [if_neg hk, if_neg hge]

end Word

theorem Frame.operand_eq {f : Frame} {items : List Word} (h : f.stack.items = items) (n : Nat) :
    f.operand n = items.getD n 0 := by
  rw [operand, Stack.operand, h]

namespace Instruction

/-- Takes its operands off the stack and leaves `result`; nothing else of the machine changes. -/
def Answers (fees : FeeSchedule) (m : Machine) (i : Instruction) (result : Word) : Prop :=
  i.execute fees m = .ok () (m.withFrame (m.frame.replaceTop i.signature.consumed [result]))

section

variable {fees : FeeSchedule} {m : Machine} {a b : Word} {rest : List Word}

theorem binary_answers (op : BinaryOp) (h : m.frame.stack.items = a :: b :: rest)
    (hr : rest.length < m.frame.stack.limit.toNat) :
    (binary op).Answers fees m (op.eval a b) := by
  have hheight : m.frame.stack.height = rest.length + 2 := congrArg List.length h
  have ha : m.frame.operand 0 = a := Frame.operand_eq h 0
  have hb : m.frame.operand 1 = b := Frame.operand_eq h 1
  have hrun : (binary op).execute fees m = .ok () ((binary op).machineAfter fees m) :=
    execute_binary op (by omega) (by omega)
  rw [machineAfter, frameAfter, ha, hb] at hrun
  exact hrun

/--
The first operand is the top of the stack: dividend, left side of a comparison, distance of a
shift or last byte to extend.
-/
theorem signed_results (fees : FeeSchedule) (h : m.frame.stack.items = a :: b :: rest)
    (hr : rest.length < m.frame.stack.limit.toNat) :
    (binary .sdiv).Answers fees m
        (if b = 0 then 0 else BitVec.ofInt 256 (a.toInt.tdiv b.toInt)) ∧
      (binary .smod).Answers fees m
        (if b = 0 then 0 else BitVec.ofInt 256 (a.toInt.tmod b.toInt)) ∧
      (b ≠ 0 → BinaryOp.sdiv.eval a b * b + BinaryOp.smod.eval a b = a) ∧
      (a.toInt = -2 ^ 255 → b.toInt = -1 → BinaryOp.sdiv.eval a b = a) ∧
      (binary .slt).Answers fees m (Word.ofBool (a.toInt < b.toInt)) ∧
      (binary .sgt).Answers fees m (Word.ofBool (b.toInt < a.toInt)) ∧
      (binary .sar).Answers fees m (BitVec.ofInt 256 (b.toInt.fdiv (2 ^ a.toNat))) ∧
      (binary .signExtend).Answers fees m
        (if a.toNat < 32 then BitVec.ofInt 256 (b.setWidth (8 * (a.toNat + 1))).toInt else b) := by
  have hanswer (op : BinaryOp) {result : Word} (hresult : op.eval a b = result) :
      (binary op).Answers fees m result := hresult ▸ binary_answers op h hr
  refine ⟨hanswer .sdiv ?_, hanswer .smod (Word.smod_eq a b), Word.sdiv_mul_add_smod, ?_,
    hanswer .slt (congrArg Word.ofBool (Word.slt_eq a b)),
    hanswer .sgt (congrArg Word.ofBool (Word.sgt_eq a b)), hanswer .sar (Word.sar_eq b a),
    hanswer .signExtend (Word.signExtend_eq b a)⟩
  · refine (Word.sdiv_eq a b).trans ?_
    split
    · rename_i hb
      rw [hb]
      exact congrArg (BitVec.ofInt 256) (Int.tdiv_zero _)
    · rfl
  · intro hmin hone
    refine (Word.sdiv_eq a b).trans (BitVec.eq_of_toInt_eq ?_)
    rw [hmin, hone]
    decide

end

def holding (a b : Word) : Machine :=
  { frame := { Frame.start { code := Code.ofBytes #[] 0, initialGas := 0 } {} with
      stack := ⟨[a, b, 11], 3⟩ }
    world := { base := {} } }

/-- The division that overflows, a shift that rounds down and a sign in the second byte. -/
theorem signed_results_holding :
    let fees := Rules.london.tariff.fees
    (binary .sdiv).Answers fees (holding (1 <<< 255) (-1)) (1 <<< 255) ∧
      (binary .smod).Answers fees (holding (1 <<< 255) (-1)) 0 ∧
      (binary .slt).Answers fees (holding (1 <<< 255) (-1)) 1 ∧
      (binary .sar).Answers fees (holding 2 (-7)) (-2) ∧
      (binary .signExtend).Answers fees (holding 1 0x128000) (-0x8000) := by
  intro fees
  obtain ⟨hdiv, hrem, -, -, hlt, -⟩ :=
    signed_results fees (m := holding (1 <<< 255) (-1)) rfl (by decide)
  obtain ⟨-, -, -, -, -, -, hsar, -⟩ :=
    signed_results fees (m := holding 2 (-7)) rfl (by decide)
  obtain ⟨-, -, -, -, -, -, -, hext⟩ :=
    signed_results fees (m := holding 1 0x128000) rfl (by decide)
  exact ⟨hdiv, hrem, hlt, hsar, hext⟩

end Instruction

end MeteredVm
