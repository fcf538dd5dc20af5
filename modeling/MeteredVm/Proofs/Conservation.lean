import Mathlib.Algebra.BigOperators.Group.Finset.Basic
import Mathlib.Algebra.Order.BigOperators.Group.Finset
import Mathlib.Data.FinEnum
import MeteredVm.Proofs.Rollback
import MeteredVm.Proofs.Snapshots

/-!
# MeteredVm.Proofs.Conservation

Value is moved, but never made nor lost.

A message keeps its changes of balances in a stack of substates, and it can drop any of them. So
it is not enough that each transfer preserves the sum of all balances: the state that is uncovered
when a substate is dropped must have the same sum. A message owns one substate for each of its
frames, and uncovers only the states below those.

* `View.total` and `World.totalBalance_transfer`: the sum of all balances. A transfer credits no
  more than there is, so a sum that fits in a word keeps the credit from being cut.
* `World.Holds`: the world and the views next below it have the same sum. `World.Holds.enter`,
  `World.Holds.transfer` and `World.Holds.leave` carry it along.
* `Executor.process_conserves`: the sum is the same at every point of a message, and after it.
-/

namespace MeteredVm

namespace View

open Finset

def total (v : View) : Nat := ∑ a, (v.balance a).toNat

section

variable (v : View) (a : Address)

theorem balance_le_total : (v.balance a).toNat ≤ v.total :=
  single_le_sum (f := fun b => (v.balance b).toNat) (fun _ _ => Nat.zero_le _) (mem_univ a)

theorem total_setBalance (balance : Word) :
    (v.setBalance a balance).total + (v.balance a).toNat = v.total + balance.toNat := by
  have hrest : ∑ b ∈ univ.erase a, ((v.setBalance a balance).balance b).toNat =
      ∑ b ∈ univ.erase a, (v.balance b).toNat := by
    refine sum_congr rfl fun b hb => ?_
    simp [setBalance, ne_of_mem_erase hb]
  have hold := add_sum_erase univ (fun b => (v.balance b).toNat) (mem_univ a)
  have hnew := add_sum_erase univ (fun b => ((v.setBalance a balance).balance b).toNat)
    (mem_univ a)
  have hset : ((v.setBalance a balance).balance a).toNat = balance.toNat := by simp [setBalance]
  simp only [hset, hrest] at hnew
  unfold total
  omega

end

theorem toNat_credited {balance value : Word} (h : balance.toNat + value.toNat < 2 ^ 256) :
    (credited balance value).toNat = balance.toNat + value.toNat := by
  have hmax : (BitVec.allOnes 256).toNat = 2 ^ 256 - 1 := BitVec.toNat_allOnes
  rw [credited, hmax, Nat.min_eq_left (by omega), Word.ofNat, BitVec.toNat_ofNat,
    Nat.mod_eq_of_lt h]

end View

namespace World

def totalBalance (w : World) : Nat := w.view.total

theorem totalBalance_setBalance (w : World) (a : Address) (balance : Word) :
    (w.setBalance a balance).totalBalance + (w.balance a).toNat =
      w.totalBalance + balance.toNat := by
  rw [totalBalance, view_setBalance]
  exact w.view.total_setBalance a balance

/-- Whatever is debited is credited, also when the source is the target. -/
theorem totalBalance_transfer {w w' : World} {source target : Address} {value : Word}
    (h : w.transfer source target value = some w') (hfits : w.totalBalance < 2 ^ 256) :
    w'.totalBalance = w.totalBalance := by
  rcases transfer_cases h with ⟨-, rfl⟩ | ⟨-, hle, rfl⟩
  · rfl
  · have hsub := BitVec.toNat_sub_of_le hle
    have hnat : value.toNat ≤ (w.balance source).toNat := hle
    have hdebited := w.totalBalance_setBalance source (w.balance source - value)
    generalize w.setBalance source (w.balance source - value) = debited at hdebited
    -- what is in the target and what was taken out of the source are both parts of the sum
    have htarget : (debited.balance target).toNat ≤ debited.totalBalance :=
      debited.view.balance_le_total target
    have hcredited := debited.totalBalance_setBalance target
      (Word.saturatingAdd (debited.balance target) value)
    rw [Word.saturatingAdd_eq, View.toNat_credited (by omega), ← Word.saturatingAdd_eq] at hcredited
    omega

/-- All accounts have `total` together, now and in each of the states below `n` substates. -/
structure Holds (total n : Nat) (w : World) : Prop where
  top : w.totalBalance = total
  below : ∀ v ∈ w.snapshots.below.take n, v.total = total

section

variable {total n : Nat} {w w' : World}

theorem Holds.setStorage (h : w.Holds total n) (a : Address) (key value : Word) :
    (w.setStorage a key value).Holds total n := ⟨h.top, h.below⟩

/-- The state under the new substate is the one from which it starts. -/
theorem Holds.enter (h : w.Holds total n) : w.enter.Holds total (n + 1) where
  top := by
    rw [totalBalance, view_enter]
    exact h.top
  below := by
    rw [snapshots_enter, List.take_succ_cons, List.forall_mem_cons]
    exact ⟨h.top, h.below⟩

theorem Holds.transfer {source target : Address} {value : Word} (h : w.Holds total n)
    (hfits : total < 2 ^ 256) (ht : w.transfer source target value = some w') :
    w'.Holds total n where
  top := (totalBalance_transfer ht (lt_of_eq_of_lt h.top hfits)).trans h.top
  below := by
    rw [snapshots_of_sameBelow (transfer_sameBelow ht)]
    exact h.below

theorem Holds.leave {merge : Merge} (h : w.Holds total (n + 1)) (hl : w.leave merge = .ok w') :
    w'.Holds total n := by
  obtain ⟨next, below, hbelow, hsnapshots⟩ := snapshots_leave hl
  have hholds := h.below
  rw [hbelow, List.take_succ_cons, List.forall_mem_cons] at hholds
  refine ⟨?_, hsnapshots ▸ hholds.2⟩
  show w'.snapshots.top.total = total
  rw [hsnapshots]
  dsimp only
  by_cases hm : merge = .commit
  · rw [if_pos hm]
    exact h.top
  · rw [if_neg hm]
    exact hholds.1

end

end World

namespace Frame

/-- Operations move no value: the only thing they do to the world is to write to its storage. -/
theorem Steps.holds {fees : FeeSchedule} {f f' : Frame} {w w' : World} {s : Step} {total n : Nat}
    (h : f.Steps fees w s f' w') (hw : w.Holds total n) : w'.Holds total n := by
  cases h with
  | refused => exact hw
  | performed i =>
    cases i with
    | storageStore => exact hw.setStorage _ _ _
    | _ => exact hw

end Frame

namespace CallTree

/-- All accounts have `total` together, in the state below the message and in its own. -/
def Holds (total : Nat) (t : CallTree) : Prop := t.world.Holds total t.frames.length

theorem Transition.holds {c r : Rules} {t t' : CallTree} {total : Nat}
    (hfits : total < 2 ^ 256) (ht : t.Holds total) (h : t.Transition c r t') :
    t'.Holds total := by
  unfold Holds at ht ⊢
  cases h with
  | stepped before _ steps after =>
    rw [before] at ht
    rw [after]
    exact steps.holds ht
  | refused before _ _ _ _ after world =>
    rw [before, ← world] at ht
    rw [after]
    exact ht
  | started before _ _ _ transferred after =>
    rw [before] at ht
    rw [after]
    exact ht.enter.transfer hfits transferred
  | returned before _ _ _ _ left after =>
    rw [before] at ht
    rw [after]
    exact World.Holds.leave ht left

end CallTree

namespace Executor

open CallTree

theorem begin_holds (frame : Frame) (world : World) (codes : CodeCache) (journal : Journal) :
    (begin frame world codes journal).Holds world.totalBalance :=
  World.Holds.enter ⟨rfl, by simp⟩

/--
If the balances of all accounts have a sum that fits in a word, that sum is the same at every point
of a message and when the message has finished.
-/
theorem process_conserves (c r : Rules) (message : Message) (limits : Limits) (world : World)
    (codes : CodeCache) (journal : Journal) (hfits : world.totalBalance < 2 ^ 256) :
    (∀ n t, run ⟨.ofRules c, r⟩ n (begin (Frame.start message limits) world codes journal) =
        .running t → t.world.totalBalance = world.totalBalance) ∧
      ∃ outcome t, process ⟨.ofRules c, r⟩ (Frame.start message limits) world codes journal =
          .finished outcome t ∧
        t.world.totalBalance = world.totalBalance := by
  have hkeeps : ∀ {t t' : CallTree}, t.Sound → t.Holds world.totalBalance →
      t.Transition c r t' → t'.Holds world.totalBalance := fun _ ht h => h.holds hfits ht
  have hbegin := begin_holds (Frame.start message limits) world codes journal
  refine ⟨?_, ?_⟩
  · intro n t h
    exact (run_keeps c r hkeeps n (begin_sound message limits world codes journal) hbegin h).top
  · obtain ⟨t, f, t', ht, hframes, -, hprocess, hleft⟩ :=
      process_keeps message limits world codes journal hkeeps hbegin
    unfold CallTree.Holds at ht
    rw [hframes] at ht
    exact ⟨f.outcome, t', hprocess, (World.Holds.leave ht hleft).top⟩

/-- Account 5 pays 300 to account 7. -/
def payment : Message where
  code := Code.ofBytes
    #[0x60, 0, 0x60, 0, 0x60, 0, 0x60, 0, 0x61, 1, 44, 0x60, 7, 0x61, 0x75, 0x30, 0xf1] 0
  initialGas := 100000
  address := 5

def purse : World := { base := ({} : Ledger).insert 5 { balance := 1000 } }

theorem totalBalance_purse : purse.totalBalance = 1000 := by
  have hother : ∀ a ∈ Finset.univ, a ≠ 5 → (purse.view.balance a).toNat = 0 := by
    intro a _ ha
    have hne : ¬5#160 = a := fun h => ha h.symm
    simp [purse, World.view, World.balance, World.substates, Ledger.balance, Ledger.account,
      Ledger.insert, hne]
  exact (Finset.sum_eq_single 5 hother (by simp)).trans (by decide +kernel)

def paying (n : Nat) : Progress :=
  run ⟨.ofRules .london, .london⟩ n (begin (Frame.start payment {}) purse {} [])

set_option maxRecDepth 8000 in
theorem paying_starts : (paying 9).outcome? = none ∧ (paying 9).failure? = none ∧
    (paying 9).tree.frames.length = 2 ∧ (paying 9).tree.world.balance 5 = 700 ∧
    (paying 9).tree.world.balance 7 = 300 := by
  decide +kernel

/-- While the account that is paid runs, the payment has left the one and reached the other. -/
theorem process_conserves_payment : ∃ t, paying 9 = .running t ∧ t.frames.length = 2 ∧
    t.world.balance 5 = 700 ∧ t.world.balance 7 = 300 ∧ t.world.totalBalance = 1000 := by
  obtain ⟨houtcome, hfailure, hframes, hsource, htarget⟩ := paying_starts
  have hrun := Progress.eq_running houtcome hfailure
  have hfits : purse.totalBalance < 2 ^ 256 := by
    rw [totalBalance_purse]
    decide
  have hconserves := process_conserves .london .london payment {} purse {} [] hfits
  exact ⟨_, hrun, hframes, hsource, htarget, (hconserves.1 9 _ hrun).trans totalBalance_purse⟩

end Executor

end MeteredVm
