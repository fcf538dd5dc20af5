import MeteredVm.Proofs.Refunds

/-!
# MeteredVm.Proofs.NetMetering

Net metering does not look at the path.

A write is priced, and refunded, by what its cell held before the transaction, what it holds and
what it will hold. Clearing, restoring and clearing again mix prices and refunds of several kinds,
but each write charges one load, and what it charges beyond that is a difference: the surcharge of
the value that it writes less the surcharge of the value that was there. So over any run of writes
only the first and the last value count.

* `FeeSchedule.surcharge`: what it takes to bring a cell to a value, beyond one load for each write.
* `FeeSchedule.store_sub_storeRefund`: one write pays the difference of two surcharges.
* `FeeSchedule.storeCosts_sub_storeRefunds`: a run of writes pays the difference of its ends.
* `FeeSchedule.owed_le_storeRefunds`: the refunds of a run cover what the cell has come to owe.
* `FeeSchedule.net_charge_of_ends`: both together, for a cell that the transaction has not touched.
-/

namespace MeteredVm.FeeSchedule

/-- The prices of writing `writes` one after the other into a cell that holds `current`. -/
def storeCosts (s : FeeSchedule) (settled current : Word) : List Word → Nat
  | [] => 0
  | new :: later => (s.store settled current new).toNat + s.storeCosts settled new later

def storeRefunds (s : FeeSchedule) (settled current : Word) : List Word → Int
  | [] => 0
  | new :: later => s.storeRefund settled current new + s.storeRefunds settled new later

/-- What a cell that holds `x` has been charged beyond one load for each write. -/
def surcharge (s : FeeSchedule) (settled x : Word) : Int :=
  if x = settled then 0
  else if settled = 0 then (Fees.storeFresh.toNat : Int) - s.load.toNat
  else if x = 0 then (Fees.storeReset.toNat : Int) - s.load.toNat - Fees.clearRefund
  else (Fees.storeReset.toNat : Int) - s.load.toNat

section

variable {s : FeeSchedule} (settled : Word)

@[simp] theorem surcharge_self : s.surcharge settled settled = 0 := if_pos rfl

/-- A write moves a cell from one surcharge to another. -/
theorem store_sub_storeRefund (h : s.netMetering = true) (current new : Word) :
    ((s.store settled current new).toNat : Int) - s.storeRefund settled current new =
      s.load.toNat + s.surcharge settled new - s.surcharge settled current := by
  simp only [store, storeRefund, surcharge, h, if_true]
  by_cases hclean : settled = current
  · -- the first write of another value is paid in full, and only clearing earns something
    subst hclean
    simp only [if_true, Int.sub_zero]
    by_cases hsame : new = settled
    · simp [hsame]
    · grind
  · -- a later one costs a load, and its refund corrects what was paid before
    simp only [hclean, Ne.symm hclean, if_false]
    by_cases hsame : new = current
    · subst hsame
      simp only [Ne.symm hclean, if_true, if_false]
      omega
    · grind

/-- By induction on the writes: the surcharges between the ends cancel. -/
theorem storeCosts_sub_storeRefunds (h : s.netMetering = true) (writes : List Word) :
    ∀ current, (s.storeCosts settled current writes : Int) - s.storeRefunds settled current writes =
      s.load.toNat * writes.length + s.surcharge settled (writes.getLastD current) -
        s.surcharge settled current := by
  induction writes with
  | nil =>
    intro current
    simp [storeCosts, storeRefunds]
  | cons new later ih =>
    intro current
    have hfirst := store_sub_storeRefund settled h current new
    have hrest := ih new
    simp only [storeCosts, storeRefunds, List.length_cons, List.getLastD_cons]
    push_cast
    rw [Int.mul_add, Int.mul_one]
    omega

end

section

variable (t : Tariff) (settled : Word)

theorem owed_le_storeRefunds (writes : List Word) :
    ∀ current, t.fees.owed settled (writes.getLastD current) ≤
      t.fees.storeRefunds settled current writes + t.fees.owed settled current := by
  induction writes with
  | nil =>
    intro current
    simp [storeRefunds]
  | cons new later ih =>
    intro current
    have hfirst := owed_le t settled current new
    have hrest := ih new
    simp only [storeRefunds, List.getLastD_cons]
    omega

theorem storeRefunds_nonneg (writes : List Word) :
    0 ≤ t.fees.storeRefunds settled settled writes := by
  have hcover := owed_le_storeRefunds t settled writes settled
  have howed := t.fees.owed_nonneg settled (writes.getLastD settled)
  rw [owed_self] at hcover
  omega

variable {t} in
theorem load_of_netMetering (h : t.fees.netMetering = true) : t.fees.load.toNat = 800 := by
  cases t with
  | frontier => cases h
  | istanbul | berlin => rfl

theorem surcharge_eq (h : t.fees.netMetering = true) (x : Word) :
    t.fees.surcharge settled x =
      if x = settled then 0
      else if settled = 0 then 19200
      else if x = 0 then 4200 - 15000
      else 4200 := by
  have hload := load_of_netMetering h
  have hfresh : Fees.storeFresh.toNat = 20000 := Gas.toNat_ofNat 20000 (by decide)
  have hreset : Fees.storeReset.toNat = 5000 := Gas.toNat_ofNat 5000 (by decide)
  have hclear : Fees.clearRefund = 15000 := rfl
  simp [surcharge, hload, hfresh, hreset, hclear]

end

/--
Writes into a cell that the transaction finds as it was settled cost, less their refunds, 800 each
and an amount that the last value decides, whatever was written in between. At no point have the
refunds fallen below zero.
-/
theorem net_charge_of_ends (t : Tariff) (h : t.fees.netMetering = true) (settled : Word)
    (writes : List Word) :
    (t.fees.storeCosts settled settled writes : Int) - t.fees.storeRefunds settled settled writes =
        800 * writes.length +
          (if writes.getLastD settled = settled then 0
          else if settled = 0 then 19200
          else if writes.getLastD settled = 0 then 4200 - 15000
          else 4200) ∧
      ∀ earlier, earlier <+: writes → 0 ≤ t.fees.storeRefunds settled settled earlier := by
  have hload := load_of_netMetering h
  refine ⟨?_, fun earlier _ => storeRefunds_nonneg t settled earlier⟩
  rw [storeCosts_sub_storeRefunds settled h, surcharge_self, surcharge_eq t settled h, hload]
  omega

/-- A cell that holds 7 is cleared, set, restored and cleared again: four loads and a refund. -/
theorem net_charge_of_clearings :
    Tariff.istanbul.fees.netMetering = true ∧
      (Tariff.istanbul.fees.storeCosts 7 7 [0, 9, 7, 0] : Int) -
        Tariff.istanbul.fees.storeRefunds 7 7 [0, 9, 7, 0] = 800 * 4 + (4200 - 15000) ∧
      0 ≤ Tariff.istanbul.fees.storeRefunds 7 7 [0, 9] := by
  obtain ⟨hcharge, hrefunds⟩ := net_charge_of_ends .istanbul rfl 7 [0, 9, 7, 0]
  exact ⟨rfl, hcharge, hrefunds [0, 9] (by decide)⟩

end MeteredVm.FeeSchedule
