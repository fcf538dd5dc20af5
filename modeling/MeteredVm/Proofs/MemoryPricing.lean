import Mathlib.Algebra.Order.Floor.Div
import MeteredVm.Proofs.MemoryFees

/-!
# MeteredVm.Proofs.MemoryPricing

The price of growing memory is exact.

The end of a range, its rounding to words and the square of these are each computed in a bounded
type and each may be refused. None of the refusals comes early: a range has a price exactly if it
is covered already or by fewer than `2 ^ 32` words. The price is then a difference of
`Memory.fee`, so a longer range costs no less and a detour over a shorter one costs nothing more.

* `Fees.wordsNeeded`: the words that cover a range, over the integers.
* `Fees.exists_expansion` and `Fees.expansion_eq_none`: which ranges have a price.
  `Fees.expansion_difference`: what it is.
* `Fees.expansion_exact`: all cases, and how prices of ranges compare and add up.
-/

namespace MeteredVm

theorem Memory.fee_lt {n : Nat} (h : n < 2 ^ 32) : fee n < 0x1_0000_0000_0000_0000 := by
  have hsquare := Nat.mul_lt_mul'' h h
  unfold fee
  omega

theorem Memory.ceilDiv_eq_wordsFor (n : Nat) : n ⌈/⌉ 32 = wordsFor n := by
  rw [Nat.ceilDiv_eq_add_pred_div, wordsFor]
  split <;> omega

namespace Fees

/-- The number of words that cover a range; an empty one needs none, wherever it lies. -/
def wordsNeeded (offset len : Word) : Nat :=
  if len = 0 then 0 else (offset.toNat + len.toNat) ⌈/⌉ 32

theorem wordsNeeded_eq {offset len : Word} (h : len ≠ 0) :
    wordsNeeded offset len = Memory.wordsFor (offset.toNat + len.toNat) :=
  (if_neg h).trans (Memory.ceilDiv_eq_wordsFor _)

theorem wordsNeeded_mono {offset offset' len len' : Word} (ho : offset ≤ offset')
    (hl : len ≤ len') : wordsNeeded offset len ≤ wordsNeeded offset' len' := by
  by_cases hempty : len = 0
  · rw [wordsNeeded, if_pos hempty]
    exact Nat.zero_le _
  · have hempty' : len' ≠ 0 := by
      rintro rfl
      exact hempty (BitVec.le_zero_iff.mp hl)
    rw [wordsNeeded_eq hempty, wordsNeeded_eq hempty']
    exact Memory.wordsFor_mono (Nat.add_le_add ho hl)

section

variable {active : Nat} {offset len : Word} {g : Gas}

theorem memory_eq {n : Nat} (h : n < 2 ^ 32) :
    memory n = some ⟨Memory.fee n, Memory.fee_lt h⟩ := by
  have hsquare : n * n < 0x1_0000_0000_0000_0000 := Nat.mul_lt_mul'' h h
  rw [memory, Gas.ofNat?_of_lt (n := 3 * n) (by omega), Gas.ofNat?_of_lt hsquare]
  exact Gas.ofNat?_of_lt (Memory.fee_lt h)

/-- Nothing is refused on the way to a range that is covered, or that few enough words cover. -/
theorem exists_expansion (ha : active < 0x1_0000_0000_0000_0000)
    (h : wordsNeeded offset len ≤ active ∨ wordsNeeded offset len < 2 ^ 32) :
    ∃ g, expansion active offset len = some g := by
  by_cases hl : len = 0
  · exact ⟨0, if_pos hl⟩
  · have hn : wordsNeeded offset len = _ := wordsNeeded_eq hl
    generalize wordsNeeded offset len = n at h hn
    have hcover := Memory.le_wordsFor (offset.toNat + len.toNat)
    have hstop : (offset + len).toNat = offset.toNat + len.toNat := by
      rw [BitVec.toNat_add]
      exact Nat.mod_eq_of_lt (by omega)
    have hcount : (offset + len).wordCount = n := by
      rw [hn, Word.wordCount, hstop]
      rfl
    rw [expansion, if_neg hl, Word.add?_eq_some.mpr hstop, Option.bind_eq_bind, Option.bind_some,
      hcount, Gas.ofNat?_of_lt (n := n) (by omega), Option.bind_eq_bind, Option.bind_some]
    by_cases hn' : n ≤ active
    · exact ⟨0, if_pos hn'⟩
    · have hactive : active < 2 ^ 32 := by omega
      have hn32 : n < 2 ^ 32 := by omega
      refine ⟨⟨Memory.fee n - Memory.fee active, ?_⟩, ?_⟩
      · have := Memory.fee_lt hn32
        omega
      · rw [if_neg hn', memory_eq hn32, memory_eq hactive]
        refine Gas.sub?_eq_some.mpr ?_
        exact Nat.sub_add_cancel (Memory.fee_mono (by omega))

/-- More words than that are refused, at the latest when their number is squared. -/
theorem expansion_eq_none (ha : active < wordsNeeded offset len)
    (h : 2 ^ 32 ≤ wordsNeeded offset len) : expansion active offset len = none := by
  by_cases hl : len = 0
  · rw [wordsNeeded, if_pos hl] at ha
    exact absurd ha (Nat.not_lt_zero _)
  · rw [wordsNeeded_eq hl] at ha h
    refine Option.eq_none_iff_forall_ne_some.mpr fun g hg => ?_
    have := expansion_words hg hl
    omega

theorem expansion_difference (h : expansion active offset len = some g) :
    g.toNat + Memory.fee active = Memory.fee (max active (wordsNeeded offset len)) := by
  rw [expansion_pays h]
  by_cases hl : len = 0
  · rw [if_pos hl, wordsNeeded, if_pos hl, Nat.max_zero]
  · rw [if_neg hl, wordsNeeded_eq hl]

theorem wordsNeeded_of_expansion (h : expansion active offset len = some g) :
    wordsNeeded offset len ≤ active ∨ wordsNeeded offset len < 2 ^ 32 := by
  by_contra hnone
  have hrefused : expansion active offset len = none := expansion_eq_none (by omega) (by omega)
  rw [hrefused] at h
  cases h

theorem expansion_of_le (ha : active < 0x1_0000_0000_0000_0000)
    (h : wordsNeeded offset len ≤ active) : expansion active offset len = some 0 := by
  obtain ⟨g, hg⟩ := exists_expansion ha (.inl h)
  have hdiff := expansion_difference hg
  rw [Nat.max_eq_left h] at hdiff
  rw [hg, show g = 0 from Gas.ext (show g.toNat = 0 by omega)]

theorem expansion_of_lt (ha : active < wordsNeeded offset len)
    (h : wordsNeeded offset len < 2 ^ 32) :
    ∃ g, expansion active offset len = some g ∧
      (g.toNat : Int) = Memory.fee (wordsNeeded offset len) - Memory.fee active := by
  obtain ⟨g, hg⟩ : ∃ g, expansion active offset len = some g :=
    exists_expansion (by omega) (.inr h)
  have hdiff := expansion_difference hg
  rw [Nat.max_eq_right (Nat.le_of_lt ha)] at hdiff
  exact ⟨g, hg, by omega⟩

variable {offset' len' : Word} {g' : Gas}

theorem expansion_mono (ha : active < 0x1_0000_0000_0000_0000)
    (hn : wordsNeeded offset len ≤ wordsNeeded offset' len')
    (h : expansion active offset' len' = some g') :
    ∃ g, expansion active offset len = some g ∧ g ≤ g' := by
  obtain ⟨g, hg⟩ := exists_expansion ha
    ((wordsNeeded_of_expansion h).imp (Nat.le_trans hn) (Nat.lt_of_le_of_lt hn))
  have hdiff := expansion_difference hg
  have hdiff' := expansion_difference h
  have hfee := Memory.fee_mono (max_le_max_left active hn)
  exact ⟨g, hg, Gas.le_iff.mpr (by omega)⟩

/-- The fee is a potential: what a detour over a shorter range costs is not charged again. -/
theorem expansion_add (ha : active < 0x1_0000_0000_0000_0000)
    (hn : wordsNeeded offset len ≤ wordsNeeded offset' len')
    (h : expansion active offset' len' = some g') :
    ∃ g₁ g₂, expansion active offset len = some g₁ ∧
      expansion (max active (wordsNeeded offset len)) offset' len' = some g₂ ∧
        g₁.toNat + g₂.toNat = g'.toNat := by
  have hpriced := wordsNeeded_of_expansion h
  obtain ⟨g₁, hg₁, -⟩ := expansion_mono ha hn h
  obtain ⟨g₂, hg₂⟩ : ∃ g, expansion (max active (wordsNeeded offset len)) offset' len' = some g :=
    exists_expansion (by omega) (by omega)
  have hfirst := expansion_difference hg₁
  have hsecond := expansion_difference hg₂
  have hdirect := expansion_difference h
  rw [max_assoc, max_eq_right hn] at hsecond
  exact ⟨g₁, g₂, hg₁, hg₂, by omega⟩

end

/--
Whatever is active, a range is free if it is covered, priced by the two fees if few enough words
cover it, and refused otherwise. A range within another one costs no more, and growing to it first
costs nothing more.
-/
theorem expansion_exact (active : UInt64) (offset len : Word) :
    let a := active.toNat
    let n := wordsNeeded offset len
    (n ≤ a → expansion a offset len = some 0) ∧
      (a < n → n < 2 ^ 32 →
        ∃ g, expansion a offset len = some g ∧ (g.toNat : Int) = Memory.fee n - Memory.fee a) ∧
      (a < n → 2 ^ 32 ≤ n → expansion a offset len = none) ∧
      (∀ offset' len' g', offset ≤ offset' → len ≤ len' → expansion a offset' len' = some g' →
        ∃ g, expansion a offset len = some g ∧ g ≤ g') ∧
      (∀ offset' len' g', n ≤ wordsNeeded offset' len' → expansion a offset' len' = some g' →
        ∃ g₁ g₂, expansion a offset len = some g₁ ∧ expansion (max a n) offset' len' = some g₂ ∧
          g₁.toNat + g₂.toNat = g'.toNat) := by
  intro a n
  have ha : a < 0x1_0000_0000_0000_0000 := active.toNat_lt
  exact ⟨expansion_of_le ha, expansion_of_lt, expansion_eq_none,
    fun _ _ _ ho hl => expansion_mono ha (wordsNeeded_mono ho hl), fun _ _ _ => expansion_add ha⟩

/-- The last range that has a price, the next one, and a detour on the way there. -/
theorem expansion_exact_at_bound :
    let last : Word := 0x1f_ffff_ffe0
    (∃ g, expansion 0 0 last = some g ∧ g.toNat = 36028809887088637) ∧
      expansion 0 1 last = none ∧
      ∃ g₁ g₂, expansion 0 0 1000 = some g₁ ∧ expansion 32 0 last = some g₂ ∧
        g₁.toNat + g₂.toNat = 36028809887088637 := by
  intro last
  obtain ⟨-, hprice, -, -, -⟩ := expansion_exact 0 0 last
  obtain ⟨-, -, hnone, -, -⟩ := expansion_exact 0 1 last
  obtain ⟨-, -, -, -, hdetour⟩ := expansion_exact 0 0 1000
  obtain ⟨g, hg, hfee⟩ := hprice (by decide) (by decide)
  have hlast : g.toNat = 36028809887088637 := Int.ofNat.inj (hfee.trans (by decide))
  exact ⟨⟨g, hg, hlast⟩, hnone (by decide) (by decide), hlast ▸ hdetour 0 last g (by decide) hg⟩

end Fees

end MeteredVm
