import Mathlib.Data.Nat.Bitwise
import MeteredVm.Code

/-!
# MeteredVm.Proofs.Landings

The analysis of a code finds its landing marks.

Positions share the words of a bitmap, 64 to a word. Two positions have the same bit only if they
lie in the same word and at the same place in it, and then they are the same; so what is set at one
position is found at this one and at no other. The scan stands at boundaries only, and between a
boundary and the next there is none, so it misses none.

* `Bitmap.get_set`: each position has a bit of its own.
* `Code.Boundary`: the offsets where instructions start, told by the walk from offset 0.
  `Code.Boundary.next_le`: it leaves none out.
* `JumpDestinations.get_scan`: what the scan has recorded at the end.
* `Code.isJumpDest_iff` and `Code.isBeginSub_iff`: the destinations are the boundaries with the
  right byte.
-/

namespace MeteredVm

namespace Bitmap

variable {len : Nat}

theorem toNat_mask (p : Nat) : (mask p).toNat = 2 ^ (p % 64) := by
  have hbit : p % 64 < 64 := Nat.mod_lt _ (by decide)
  have hpow : 2 ^ (p % 64) < 2 ^ 64 := Nat.pow_lt_pow_right (by decide) hbit
  have hshift : (UInt64.ofNat (p % 64)).toNat = p % 64 :=
    Nat.mod_eq_of_lt (Nat.lt_trans hbit (by decide))
  rw [mask, UInt64.toNat_shiftLeft, hshift, Nat.mod_mod, Nat.shiftLeft_eq]
  exact (congrArg (· % 2 ^ 64) (Nat.one_mul _)).trans (Nat.mod_eq_of_lt hpow)

theorem and_mask_ne_zero (word : UInt64) (p : Nat) :
    (word &&& mask p != 0) = true ↔ word.toNat.testBit (p % 64) = true := by
  rw [bne_iff_ne, ne_eq, ← UInt64.toNat_inj, UInt64.toNat_and, toNat_mask, Nat.and_two_pow]
  cases word.toNat.testBit (p % 64) <;> simp

theorem get_zeros (p : Nat) : (zeros len).get p = false := by
  unfold get zeros
  rw [Vector.getElem?_replicate]
  split <;> simp

/-- Two positions share a bit only if they are the same. -/
theorem get_set (bits : Bitmap len) (p : Fin len) (q : Nat) :
    (bits.set p).get q = true ↔ q = p ∨ bits.get q = true := by
  have hp : p.val / 64 < (len + 63) / 64 := index_lt p
  unfold get set
  dsimp only
  rw [Vector.getElem?_set]
  by_cases hword : p.val / 64 = q / 64
  · have hsame : p.val % 64 = q % 64 ↔ q = p := by omega
    rw [if_pos hword, ← hword, Vector.getElem?_eq_getElem hp]
    simp only [Option.any_some, and_mask_ne_zero, UInt64.toNat_or, Nat.testBit_or, toNat_mask,
      Nat.testBit_two_pow, Bool.or_eq_true, decide_eq_true_eq, hsame]
    exact or_comm
  · have hother : q ≠ p := by
      rintro rfl
      exact hword rfl
    rw [if_neg hword]
    exact (or_iff_right hother).symm

end Bitmap

namespace Code

inductive Boundary (c : Code) : Nat → Prop
  | zero : Boundary c 0
  | next {pc : Nat} {b : Opcode} (here : Boundary c pc) (byte : c.opcodeAt? pc = some b) :
    Boundary c (pc + 1 + Opcode.immediateLength b)

namespace Boundary

variable {c : Code} {pc p : Nat} {b : Opcode}

theorem next_le_of_earlier (byte : c.opcodeAt? pc = some b)
    (earlier : ∀ {q : Nat} {x : Opcode}, c.Boundary q → c.opcodeAt? q = some x → q < pc →
      q + 1 + Opcode.immediateLength x ≤ pc)
    (hp : c.Boundary p) (hlt : pc < p) : pc + 1 + Opcode.immediateLength b ≤ p := by
  induction hp with
  | zero => exact absurd hlt (Nat.not_lt_zero _)
  | @next q x hq hx ih =>
    obtain hbefore | rfl | hbehind := Nat.lt_trichotomy q pc
    · exact absurd hlt (Nat.not_lt.mpr (earlier hq hx hbefore))
    · obtain rfl := Option.some.inj (hx.symm.trans byte)
      exact Nat.le_refl _
    · have hle := ih hbehind
      omega

/-- Between a boundary and the end of its instruction there is no other boundary. -/
theorem next_le (hp : c.Boundary p) : ∀ {pc : Nat} {b : Opcode}, c.Boundary pc →
    c.opcodeAt? pc = some b → pc < p → pc + 1 + Opcode.immediateLength b ≤ p := by
  induction hp with
  | zero => exact fun _ _ hlt => absurd hlt (Nat.not_lt_zero _)
  | @next q x hq hx ih =>
    intro pc b hpc byte hlt
    obtain hbefore | rfl | hbehind := Nat.lt_trichotomy pc q
    · have hle := ih hpc byte hbefore
      omega
    · obtain rfl := Option.some.inj (byte.symm.trans hx)
      exact Nat.le_refl _
    · exact absurd (next_le_of_earlier hx ih hpc hbehind) (Nat.not_le.mpr hlt)

end Boundary

end Code

namespace JumpDestinations

/-- `bits` is the bitmap of the landing mark `mark`. -/
def Records (len : Nat) (bits : JumpDestinations len → Bitmap len) (mark : Opcode) : Prop :=
  ∀ d position b p, (bits (d.mark position b)).get p = true ↔
    (b = mark ∧ p = position.val) ∨ (bits d).get p = true

variable {c : Code} {bits : JumpDestinations c.bytes.size → Bitmap c.bytes.size}
  {mark : Opcode} {p : Nat}

/-- From a boundary on, the scan records the boundaries with the landing mark. -/
theorem get_scan (hbits : Records c.bytes.size bits mark) (pc : Nat)
    (d : JumpDestinations c.bytes.size) (hpc : c.Boundary pc) :
    (bits (scan c.bytes pc d)).get p = true ↔
      (pc ≤ p ∧ c.opcodeAt? p = some mark ∧ c.Boundary p) ∨ (bits d).get p = true := by
  fun_induction scan c.bytes pc d with
  | case1 pc d h b ih =>
    have byte : c.opcodeAt? pc = some b := Array.getElem?_eq_getElem h
    rw [ih (.next hpc byte), hbits, ← or_assoc]
    refine or_congr_left ⟨?_, ?_⟩
    · rintro (⟨hle, hmark, hp⟩ | ⟨rfl, rfl⟩)
      · exact ⟨by omega, hmark, hp⟩
      · exact ⟨Nat.le_refl _, byte, hpc⟩
    · rintro ⟨hle, hmark, hp⟩
      rcases Nat.eq_or_lt_of_le hle with rfl | hlt
      · exact .inr ⟨Option.some.inj (byte.symm.trans hmark), rfl⟩
      · exact .inl ⟨hp.next_le hpc byte hlt, hmark, hp⟩
  | case2 pc d h =>
    refine (or_iff_right ?_).symm
    rintro ⟨hle, hmark, -⟩
    have hlt : p < c.bytes.size := (Array.getElem?_eq_some_iff.mp hmark).1
    omega

theorem get_analyze (hbits : Records c.bytes.size bits mark)
    (hempty : (bits (empty c.bytes.size)).get p = false) : (bits c.destinations).get p = true ↔
      p < c.size ∧ c.opcodeAt? p = some mark ∧ c.Boundary p := by
  rw [c.analyzed, analyze, get_scan hbits 0 _ .zero, hempty]
  constructor
  · rintro (⟨-, hmark, hp⟩ | hnone)
    · exact ⟨(Array.getElem?_eq_some_iff.mp hmark).1, hmark, hp⟩
    · cases hnone
  · rintro ⟨-, hmark, hp⟩
    exact .inl ⟨Nat.zero_le _, hmark, hp⟩

theorem records_jumpDests {len : Nat} :
    Records len (·.jumpDests) Opcode.jumpDest := by
  intro d position b p
  unfold mark
  split
  · rename_i hb
    rw [Bitmap.get_set, and_iff_right hb]
  · rename_i hb
    rw [or_iff_right fun h => hb h.1]
    split <;> rfl

theorem records_beginSubs {len : Nat} :
    Records len (·.beginSubs) Opcode.beginSub := by
  intro d position b p
  unfold mark
  split
  · rename_i hb
    rw [or_iff_right]
    rintro ⟨rfl, -⟩
    cases hb
  · split
    · rename_i hb
      rw [Bitmap.get_set, and_iff_right hb]
    · rename_i hb
      rw [or_iff_right fun h => hb h.1]

end JumpDestinations

namespace Code

variable {c : Code} {pc : Nat}

theorem isJumpDest_iff : c.isJumpDest pc = true ↔
    pc < c.size ∧ c.opcodeAt? pc = some Opcode.jumpDest ∧ c.Boundary pc :=
  JumpDestinations.get_analyze JumpDestinations.records_jumpDests (Bitmap.get_zeros pc)

theorem isBeginSub_iff : c.isBeginSub pc = true ↔
    pc < c.size ∧ c.opcodeAt? pc = some Opcode.beginSub ∧ c.Boundary pc :=
  JumpDestinations.get_analyze JumpDestinations.records_beginSubs (Bitmap.get_zeros pc)

end Code

end MeteredVm
