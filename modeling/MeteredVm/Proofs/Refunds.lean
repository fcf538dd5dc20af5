import Mathlib.Data.Fintype.Prod
import MeteredVm.Proofs.Conservation
import MeteredVm.Proofs.Decoding

/-!
# MeteredVm.Proofs.Refunds

The refund of a message is never negative.

Under net metering the frame that clears a cell earns a refund, and the frame that sets it again
gives the refund back. They need not be the same, so the refund of a frame can be negative; and a
frame that does not succeed takes back its refund together with its writes. What the cells owe is a
potential of the storage: each one that the transaction found set and has cleared owes the refund
for clearing it. A write earns at least what it adds to the potential, so each frame has earned at
least what its substate has come to owe.

* `FeeSchedule.owed` and `FeeSchedule.owed_le`: what a cell owes, and what a write earns.
  `View.owed`: the potential of a state.
* `Frame.Steps.refund_paid`: no write earns or loses more than 24 times its price, so refunds are
  bounded by gas. `CallTree.Bounded` is the invariant; where it holds no sum of refunds is cut
  (`CallTree.Bounded.addsExactly`).
* `CallTree.Covered`: each frame has earned what its substate owes.
* `Executor.process_refund_nonneg`: so the refund of a message is not negative.
-/

namespace MeteredVm

theorem addRefund_eq {a b : Int} (h : (a + b).natAbs < 2 ^ 63) : addRefund a b = a + b := by
  have hmin : Int64.minValue.toInt = -2 ^ 63 := by decide
  have hmax : Int64.maxValue.toInt = 2 ^ 63 - 1 := by decide
  unfold addRefund
  omega

theorem natAbs_addRefund_le (a b : Int) : (addRefund a b).natAbs ≤ a.natAbs + b.natAbs := by
  have hmin : Int64.minValue.toInt = -2 ^ 63 := by decide
  have hmax : Int64.maxValue.toInt = 2 ^ 63 - 1 := by decide
  unfold addRefund
  omega

namespace FeeSchedule

/-- What a cell owes: the refund for clearing it, if it was set before the transaction. -/
def owed (s : FeeSchedule) (settled current : Word) : Int :=
  if s.netMetering ∧ settled ≠ 0 ∧ current = 0 then Fees.clearRefund else 0

theorem owed_nonneg (s : FeeSchedule) (settled current : Word) : 0 ≤ s.owed settled current := by
  unfold owed
  split
  · decide
  · exact Int.le_refl 0

theorem owed_self (s : FeeSchedule) (settled : Word) : s.owed settled settled = 0 :=
  if_neg fun h => h.2.1 h.2.2

section

variable (t : Tariff) (settled current new : Word)

/-- A write earns at least what the cell comes to owe, and it loses at most what it owed. -/
theorem owed_le : t.fees.owed settled new ≤
    t.fees.storeRefund settled current new + t.fees.owed settled current := by
  have hload : t.fees.load.toNat ≤ 800 := by cases t <;> decide
  have hfresh : Fees.storeFresh.toNat = 20000 := Gas.toNat_ofNat 20000 (by decide)
  have hreset : Fees.storeReset.toNat = 5000 := Gas.toNat_ofNat 5000 (by decide)
  have hclear : Fees.clearRefund = 15000 := rfl
  unfold owed storeRefund
  grind

/-- The worst case is a cell that was clear, was set, and is cleared again: 19200 for 800. -/
theorem natAbs_storeRefund_le : (t.fees.storeRefund settled current new).natAbs ≤
    24 * (t.fees.store settled current new).toNat := by
  have hload : t.fees.netMetering = true → t.fees.load.toNat = 800 := by cases t <;> decide
  have hfresh : Fees.storeFresh.toNat = 20000 := Gas.toNat_ofNat 20000 (by decide)
  have hreset : Fees.storeReset.toNat = 5000 := Gas.toNat_ofNat 5000 (by decide)
  have hclear : Fees.clearRefund = 15000 := rfl
  unfold storeRefund store
  grind

end

end FeeSchedule

namespace View

open Finset

/-- What all cells owe together, where the ledger is `l`. -/
def owed (fees : FeeSchedule) (l : Ledger) (v : View) : Int :=
  ∑ cell : Cell, fees.owed (l.storage cell.1 cell.2) (v.storage cell.1 cell.2)

theorem owed_nonneg (fees : FeeSchedule) (l : Ledger) (v : View) : 0 ≤ v.owed fees l :=
  sum_nonneg fun _ _ => fees.owed_nonneg _ _

theorem owed_eq_zero {fees : FeeSchedule} {l : Ledger} {v : View} (h : v.storage = l.storage) :
    v.owed fees l = 0 :=
  sum_eq_zero fun cell _ => by rw [h, fees.owed_self]

theorem owed_congr {fees : FeeSchedule} {l : Ledger} {v v' : View} (h : v'.storage = v.storage) :
    v'.owed fees l = v.owed fees l := by
  rw [owed, owed, h]

theorem owed_setStorage (fees : FeeSchedule) (l : Ledger) (v : View) (a : Address)
    (key value : Word) :
    (v.setStorage a key value).owed fees l + fees.owed (l.storage a key) (v.storage a key) =
      v.owed fees l + fees.owed (l.storage a key) value := by
  have hother : ∀ cell : Cell, cell ≠ (a, key) → fees.owed (l.storage cell.1 cell.2)
      ((v.setStorage a key value).storage cell.1 cell.2) -
        fees.owed (l.storage cell.1 cell.2) (v.storage cell.1 cell.2) = 0 := by
    intro cell hcell
    rw [setStorage]
    dsimp only
    rw [if_neg hcell, Int.sub_self]
  have hset : (v.setStorage a key value).storage a key = value := by simp [setStorage]
  have hchange : (v.setStorage a key value).owed fees l - v.owed fees l =
      fees.owed (l.storage a key) value - fees.owed (l.storage a key) (v.storage a key) := by
    rw [owed, owed, ← sum_sub_distrib, sum_eq_single (a, key) (fun cell _ => hother cell)
      fun hn => absurd (mem_univ _) hn, hset]
  omega

end View

namespace Frame

def storeRefund (fees : FeeSchedule) (f : Frame) (w : World) : Int :=
  fees.storeRefund (w.settledStorage f.address (f.operand 0)) (w.storage f.address (f.operand 0))
    (f.operand 1)

section

variable {t : Tariff} {f f' : Frame} {w w' : World} {cost : Gas} {s : Signature} {step : Step}

theorem natAbs_storeRefund_le (h : Instruction.storageStore.Passes t.fees f w cost) :
    (f.storeRefund t.fees w).natAbs ≤ 24 * cost.toNat := by
  rw [← Option.some.inj h.price]
  exact FeeSchedule.natAbs_storeRefund_le t _ _ _

theorem refund_stored : (f.performed t.fees w .storageStore cost s).refund =
    MeteredVm.addRefund f.refund (f.storeRefund t.fees w) := by
  rw [performed, advance_eq]
  rfl

/-- The refund of a frame grows or shrinks by at most 24 times the gas that it uses. -/
theorem Steps.refund_paid (h : f.Steps t.fees w step f' w') (he : f.status = .executing) :
    f'.refund.natAbs + 24 * (f'.gas.toNat + f'.pendingGas) ≤
      f.refund.natAbs + 24 * f.gas.toNat := by
  have hgas := (h.measures he).1
  cases h with
  | refused sig reason =>
    have hrefund : ((f.facing sig).halt reason).refund = f.refund := rfl
    rw [hrefund]
    omega
  | performed i p sig cost hsig hp =>
    by_cases hi : i = .storageStore
    · subst hi
      have hearned := natAbs_addRefund_le (f.facing sig).refund
        ((f.facing sig).storeRefund t.fees w)
      have hpaid := natAbs_storeRefund_le hp
      have hcost : cost.toNat ≤ f.gas.toNat := hp.paid
      have hleft : ((f.facing sig).performed t.fees w .storageStore cost sig).gas.toNat =
          f.gas.toNat - cost.toNat := congrArg Gas.toNat gas_performed
      have hstatus : ((f.facing sig).performed t.fees w .storageStore cost sig).status =
          .executing := status_performed he
      have hrefund : (f.facing sig).refund = f.refund := rfl
      rw [refund_stored, pendingGas_eq_zero (by simp [hstatus]), hleft]
      omega
    · have hrefund : ((f.facing sig).performed t.fees w i cost sig).refund = f.refund :=
        refund_performed hi
      rw [hrefund]
      omega

theorem refund_resumed (f : Frame) (request : MessageRequest) (outcome : ChildOutcome) (gas : Gas) :
    (f.resumed request outcome gas).refund =
      if outcome.success then MeteredVm.addRefund f.refund outcome.refund else f.refund := rfl

theorem childOutcome_succeeded (f : Frame) (h : f.status = .succeeded) :
    f.childOutcome =
      { success := true
        output := f.output
        gas := f.gasBack
        refund := f.refund
        logs := f.logs } := by
  simp [childOutcome, h]

theorem childOutcome_failed (f : Frame) (h : f.status ≠ .succeeded) :
    f.childOutcome.success = false := by
  simp [childOutcome, h]

end

end Frame

theorem World.storage_of_ledger (l : Ledger) (a : Address) (key : Word) :
    ({ base := l } : World).storage a key = l.storage a key := by
  simp [World.storage, World.substates]

namespace CallTree

/-- The refunds of the frames, gains and losses alike. -/
def heldRefunds : List Frame → Nat
  | [] => 0
  | f :: rest => f.refund.natAbs + heldRefunds rest

/-- All refunds, and those that the gas left could still earn, are bounded. -/
def Bounded (bound : Nat) (t : CallTree) : Prop :=
  heldRefunds t.frames + 24 * t.totalGas ≤ bound

structure AddsExactly (c : Rules) (t : CallTree) : Prop where
  stored : ∀ f rest, t.frames = f :: rest → c.admitted? f t.world = some .storageStore →
    addRefund f.refund (f.storeRefund c.tariff.fees t.world) =
      f.refund + f.storeRefund c.tariff.fees t.world
  returned : ∀ child parent rest, t.frames = child :: parent :: rest →
    child.status = .succeeded →
    addRefund parent.refund child.refund = parent.refund + child.refund

section

variable {c r : Rules} {t t' : CallTree} {bound : Nat}

theorem Bounded.head {f : Frame} {rest : List Frame} (ht : t.Bounded bound)
    (h : t.frames = f :: rest) : f.refund.natAbs + 24 * f.gas.toNat ≤ bound := by
  rw [Bounded, totalGas_cons h, stake, h, heldRefunds] at ht
  omega

/-- Refunds that are bounded by gas stay far from the ends of their range. -/
theorem Bounded.addsExactly (ht : t.Bounded bound) (hbound : bound < 2 ^ 63) :
    t.AddsExactly c where
  stored := by
    intro f rest h ha
    have hhead := ht.head h
    obtain ⟨s, cost, -, -, hpasses, -⟩ := Interpreter.step_admitted t.journal ha
    have hearned : (f.storeRefund c.tariff.fees t.world).natAbs ≤ 24 * cost.toNat :=
      Frame.natAbs_storeRefund_le (f := f.facing s) hpasses
    have hpaid : cost.toNat ≤ f.gas.toNat := hpasses.paid
    exact addRefund_eq (by omega)
  returned := by
    intro child parent rest h _
    rw [Bounded, h, heldRefunds, heldRefunds] at ht
    exact addRefund_eq (by omega)

theorem Transition.bounded (hs : t.Sound) (ht : t.Bounded bound) (h : t.Transition c r t') :
    t'.Bounded bound := by
  have hgas : t'.totalGas ≤ t.totalGas := by
    cases h.follows hs with
    | running _ hle => exact hle
  unfold Bounded at ht ⊢
  cases h with
  | @stepped f f' rest _ before executing steps after =>
    have hpaid := steps.refund_paid executing
    have hpending := f.pendingGas_eq_zero (by simp [executing])
    rw [totalGas_cons before, stake, before, heldRefunds] at ht
    rw [totalGas_cons after, stake, after, heldRefunds]
    omega
  | refused before _ _ _ _ after =>
    rw [before, heldRefunds] at ht
    rw [after, heldRefunds, Frame.refund_resumed, if_neg (by simp [ChildOutcome.notStarted])]
    omega
  | started before _ _ _ _ after =>
    have hnew : heldRefunds t'.frames = heldRefunds t.frames := by
      rw [after, before, heldRefunds]
      exact Nat.zero_add _
    omega
  | @returned child parent _ _ _ before _ _ _ _ _ after =>
    have hsum := natAbs_addRefund_le parent.refund child.refund
    rw [before, heldRefunds, heldRefunds] at ht
    rw [after, heldRefunds, Frame.refund_resumed]
    by_cases hsuccess : child.status = .succeeded
    · rw [child.childOutcome_succeeded hsuccess]
      dsimp only
      rw [if_pos rfl]
      omega
    · rw [if_neg (by simp [child.childOutcome_failed hsuccess])]
      omega

end

end CallTree

/--
Each frame has earned what its substate owes more than the state under it, and the state under the
message owes nothing.
-/
def Covers (fees : FeeSchedule) (l : Ledger) : List Frame → View → List View → Prop
  | [], top, _ => top.owed fees l = 0
  | f :: rest, top, next :: below =>
    top.owed fees l ≤ f.refund + next.owed fees l ∧ Covers fees l rest next below
  | _ :: _, _, [] => False

theorem Covers.next {fees : FeeSchedule} {l : Ledger} {f : Frame} {rest : List Frame} {top : View}
    {below : List View} (h : Covers fees l (f :: rest) top below) :
    ∃ next below', below = next :: below' ∧
      top.owed fees l ≤ f.refund + next.owed fees l ∧ Covers fees l rest next below' := by
  cases below with
  | nil => exact h.elim
  | cons next below => exact ⟨next, below, rfl, h⟩

/-- A write adds no more to what is owed than it earns, as long as no sum is cut. -/
theorem Frame.Steps.owed_le {t : Tariff} {f f' : Frame} {w w' : World} {step : Step}
    (h : f.Steps t.fees w step f' w') (hfits : f.refund.natAbs + 24 * f.gas.toNat < 2 ^ 63) :
    w'.view.owed t.fees w.base ≤
      w.view.owed t.fees w.base + (f'.refund - f.refund) := by
  cases h with
  | refused sig reason =>
    have hrefund : ((f.facing sig).halt reason).refund = f.refund := rfl
    rw [hrefund]
    omega
  | performed i p sig cost hsig hp =>
    by_cases hi : i = .storageStore
    · subst hi
      have hwrite := View.owed_setStorage t.fees w.base w.view f.address (f.operand 0)
        (f.operand 1)
      have hearned : t.fees.owed (w.base.storage f.address (f.operand 0)) (f.operand 1) ≤
          f.storeRefund t.fees w + t.fees.owed (w.base.storage f.address (f.operand 0))
            (w.view.storage f.address (f.operand 0)) := FeeSchedule.owed_le t _ _ _
      have hpaid : (f.storeRefund t.fees w).natAbs ≤ 24 * cost.toNat :=
        natAbs_storeRefund_le (f := f.facing sig) hp
      have hcost : cost.toNat ≤ f.gas.toNat := hp.paid
      have hsum := addRefund_eq (a := f.refund) (b := f.storeRefund t.fees w) (by omega)
      have hview : (Instruction.storageStore.worldAfter (f.facing sig) w).view =
          w.view.setStorage f.address (f.operand 0) (f.operand 1) := World.view_setStorage ..
      have hrefund : ((f.facing sig).performed t.fees w .storageStore cost sig).refund =
          f.refund + f.storeRefund t.fees w := refund_stored.trans hsum
      rw [hview, hrefund]
      omega
    · have hrefund : ((f.facing sig).performed t.fees w i cost sig).refund = f.refund :=
        refund_performed hi
      rw [hrefund, Instruction.worldAfter_of_ne hi]
      omega

namespace CallTree

/-- What the frames have earned covers what the cells owe. -/
structure Covered (fees : FeeSchedule) (l : Ledger) (t : CallTree) : Prop where
  base : t.world.base = l
  covers : Covers fees l t.frames t.world.view t.world.snapshots.below

theorem Transition.covered {c r : Rules} {t t' : CallTree} {l : Ledger} {bound : Nat}
    (hbounded : t.Bounded bound) (hbound : bound < 2 ^ 63) (ht : t.Covered c.tariff.fees l)
    (h : t.Transition c r t') : t'.Covered c.tariff.fees l := by
  obtain ⟨hbase, hcovers⟩ := ht
  cases h with
  | @stepped f f' rest _ before executing steps after =>
    have hearned := steps.owed_le (Nat.lt_of_le_of_lt (hbounded.head before) hbound)
    rw [hbase] at hearned
    rw [before] at hcovers
    obtain ⟨next, below, hbelow, hle, hrest⟩ := hcovers.next
    refine ⟨steps.base_eq.trans hbase, ?_⟩
    rw [World.snapshots_of_sameBelow ⟨steps.base_eq, steps.outer_eq⟩, after, hbelow]
    exact ⟨by omega, hrest⟩
  | refused before _ _ _ _ after hworld =>
    rw [before] at hcovers
    refine ⟨hworld ▸ hbase, ?_⟩
    rw [hworld, after]
    obtain ⟨next, below, hbelow, hle, hrest⟩ := hcovers.next
    rw [hbelow]
    exact ⟨hle, hrest⟩
  | @started f rest request before _ _ _ transferred after =>
    have hbelow := World.transfer_sameBelow transferred
    have howed : t'.world.view.owed c.tariff.fees l = t.world.view.owed c.tariff.fees l :=
      (View.owed_congr (World.storage_transfer transferred)).trans
        (congrArg (View.owed c.tariff.fees l) t.world.view_enter)
    refine ⟨hbelow.base.trans hbase, ?_⟩
    rw [World.snapshots_of_sameBelow hbelow, World.snapshots_enter, after]
    rw [before] at hcovers
    refine ⟨?_, hcovers⟩
    rw [howed]
    exact (Int.zero_add _).ge
  | @returned child parent rest request gas before ended _ _ _ left after =>
    have hfits := (hbounded.addsExactly (c := c) hbound).returned child parent rest before
    rw [before] at hcovers
    obtain ⟨next, below, hbelow, hchild, hrest⟩ := hcovers.next
    obtain ⟨next', below', hbelow', hsnapshots⟩ := World.snapshots_leave left
    obtain ⟨rfl, rfl⟩ := List.cons.inj (hbelow.symm.trans hbelow')
    obtain ⟨under, below', rfl, hparent, hrest⟩ := hrest.next
    refine ⟨(World.base_leave left).trans hbase, ?_⟩
    have hview : t'.world.view = if child.status.merge = .commit then t.world.view else next :=
      congrArg Snapshots.top hsnapshots
    rw [hsnapshots, hview, after]
    refine ⟨?_, hrest⟩
    rw [Frame.refund_resumed]
    by_cases hsuccess : child.status = .succeeded
    · -- the parent takes over what the child has earned together with its writes
      have hcommit : child.status.merge = .commit := by rw [hsuccess]; rfl
      rw [child.childOutcome_succeeded hsuccess, if_pos hcommit, if_pos rfl, hfits hsuccess]
      omega
    · rw [if_neg (Executor.merge_ne_commit hsuccess),
        if_neg (by simp [child.childOutcome_failed hsuccess])]
      exact hparent

end CallTree

namespace Executor

open CallTree

section

variable (c r : Rules) (message : Message) (limits : Limits) (world : World) (codes : CodeCache)
  (journal : Journal)

theorem begin_bounded (hgas : message.initialGas.toNat ≤ 2 ^ 58) :
    (begin (Frame.start message limits) world codes journal).Bounded (24 * 2 ^ 58) := by
  have hrefunds : heldRefunds (begin (Frame.start message limits) world codes journal).frames =
      0 := rfl
  rw [Bounded, totalGas_begin, hrefunds]
  omega

theorem begin_covered (fees : FeeSchedule)
    (hfresh : ∀ a key, world.storage a key = world.settledStorage a key) :
    (begin (Frame.start message limits) world codes journal).Covered fees world.base := by
  have hzero : world.view.owed fees world.base = 0 :=
    View.owed_eq_zero (funext fun a => funext (hfresh a))
  refine ⟨rfl, ?_⟩
  show Covers fees world.base [Frame.start message limits] world.enter.view
    world.enter.snapshots.below
  rw [World.snapshots_enter, World.view_enter]
  exact ⟨(Int.zero_add _).ge, hzero⟩

theorem run_addsExactly (hgas : message.initialGas.toNat ≤ 2 ^ 58) (n : Nat) {t : CallTree}
    (h : run ⟨.ofRules c, r⟩ n (begin (Frame.start message limits) world codes journal) =
      .running t) : t.AddsExactly c := by
  have hbounded := run_keeps c r (fun hs ht htransition => htransition.bounded hs ht) n
    (begin_sound message limits world codes journal)
    (begin_bounded message limits world codes journal hgas) h
  exact hbounded.addsExactly (by decide)

/--
A message that starts on settled storage, with gas for which no sum of refunds is cut, finishes with
a refund that is not negative, although frames give back what others have earned.
-/
theorem process_refund_nonneg
    (hfresh : ∀ a key, world.storage a key = world.settledStorage a key)
    (hgas : message.initialGas.toNat ≤ 2 ^ 58) :
    ∃ outcome t, process ⟨.ofRules c, r⟩ (Frame.start message limits) world codes journal =
        .finished outcome t ∧
      0 ≤ outcome.refund := by
  have hkeeps : ∀ {t t' : CallTree}, t.Sound →
      t.Bounded (24 * 2 ^ 58) ∧ t.Covered c.tariff.fees world.base → t.Transition c r t' →
      t'.Bounded (24 * 2 ^ 58) ∧ t'.Covered c.tariff.fees world.base :=
    fun hs ht h => ⟨h.bounded hs ht.1, h.covered ht.1 (by decide) ht.2⟩
  obtain ⟨t, f, t', ⟨-, hcovered⟩, hframes, -, hprocess, -⟩ :=
    process_keeps message limits world codes journal hkeeps
      ⟨begin_bounded message limits world codes journal hgas,
        begin_covered message limits world codes journal c.tariff.fees hfresh⟩
  refine ⟨f.outcome, t', hprocess, ?_⟩
  have hcovers := hcovered.covers
  rw [hframes] at hcovers
  obtain ⟨next, below, -, hearned, hsettled⟩ := hcovers.next
  have hzero : next.owed c.tariff.fees world.base = 0 := hsettled
  have howed := t.world.view.owed_nonneg c.tariff.fees world.base
  show 0 ≤ f.childOutcome.refund
  unfold Frame.childOutcome
  dsimp only
  split
  · omega
  · exact Int.le_refl 0

end

/-- Account 5 clears its first cell and calls itself. -/
def clearing : Message where
  code := Code.ofBytes
    #[0x60, 0, 0x60, 0, 0x55, 0x60, 0, 0x60, 0, 0x60, 0, 0x60, 0, 0x60, 0, 0x60, 5, 0x61, 0x75,
      0x30, 0xf1] 0
  initialGas := 100000
  address := 5

/-- The cell holds 7, and the code of the account sets it to 7. -/
def settled : World :=
  { base := (({} : Ledger).insert 5 { code := #[0x60, 7, 0x60, 0, 0x55] }).setStorage (5, 0) 7 }

def clearings (n : Nat) : Progress :=
  run ⟨.ofRules .london, .london⟩ n (begin (Frame.start clearing {}) settled {} [])

set_option maxRecDepth 8000 in
theorem clearings_starts : (clearings 15).outcome? = none ∧ (clearings 15).failure? = none ∧
    (clearings 15).tree.frames.map (·.refund) = [-10800, 15000] := by
  decide +kernel

/-- The child gives back what its caller has earned for clearing the cell. -/
theorem process_refund_nonneg_clearing :
    (∃ t, clearings 15 = .running t ∧ t.frames.map (·.refund) = [-10800, 15000]) ∧
      ∃ outcome t, process ⟨.ofRules .london, .london⟩ (Frame.start clearing {}) settled {} [] =
          .finished outcome t ∧
        0 ≤ outcome.refund := by
  obtain ⟨houtcome, hfailure, hrefunds⟩ := clearings_starts
  refine ⟨⟨_, Progress.eq_running houtcome hfailure, hrefunds⟩, ?_⟩
  exact process_refund_nonneg .london .london clearing {} settled {} []
    (fun _ _ => World.storage_of_ledger ..) (by decide)

end Executor

end MeteredVm
