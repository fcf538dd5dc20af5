import MeteredVm.Proofs.Static

/-!
# MeteredVm.Proofs.Stipend

The stipend does not pay for a change of the world.

Only two things change the world: a write to storage, and a call that sends value. Without net
metering every write costs more than the stipend. With it some writes are cheap, but then a write
is refused while no more than the stipend is left. A call that sends value costs more than the
stipend whatever the tariff, so a message with no more gas than that never gets to add one either,
and the gas of all its frames together stays below.

* `Instruction.storageStore_needs` and `Instruction.call_needs`: what must be left for either.
* `Frame.Steps.idle`: a step with no more gas than the stipend changes nothing and sends nothing.
* `CallTree.Idle`: the invariant; `CallTree.Transition.idle` keeps it.
* `Executor.process_idle`: so all accounts are as before when the message has finished.
-/

namespace MeteredVm

theorem FeeSchedule.store_ge {s : FeeSchedule} (h : s.netMetering = false)
    (settled current new : Word) : 5000 ≤ (s.store settled current new).toNat := by
  have hfresh : Fees.storeFresh.toNat = 20000 := Gas.toNat_ofNat 20000 (by decide)
  have hreset : Fees.storeReset.toNat = 5000 := Gas.toNat_ofNat 5000 (by decide)
  simp only [store, h, Bool.false_eq_true, if_false]
  split
  · omega
  · omega

namespace Instruction

variable {t : Tariff} {f : Frame} {w : World} {cost : Gas}

theorem storageStore_needs (h : storageStore.Passes t.fees f w cost) :
    Fees.stipend.toNat < f.gas.toNat := by
  have hstipend : Fees.stipend.toNat = 2300 := Gas.toNat_ofNat 2300 (by decide)
  cases hn : t.fees.netMetering with
  | false =>
    have hcost := FeeSchedule.store_ge hn (w.settledStorage f.address (f.operand 0))
      (w.storage f.address (f.operand 0)) (f.operand 1)
    have hprice : t.fees.store (w.settledStorage f.address (f.operand 0))
        (w.storage f.address (f.operand 0)) (f.operand 1) = cost := Option.some.inj h.price
    have hpaid : cost.toNat ≤ f.gas.toNat := h.paid
    rw [hprice] at hcost
    omega
  | true =>
    have hclear := h.clear
    simp only [haltCondition, storeHalt, FeeSchedule.storeSentry?, hn, if_true,
      Option.any_some] at hclear
    split at hclear
    · cases hclear
    · rename_i hsentry
      exact Nat.not_le.mp fun hle => hsentry (decide_eq_true hle)

theorem call_needs {kind : CallKind} (h : (call kind).Passes t.fees f w cost)
    (hv : Call.value kind f ≠ 0) : Fees.stipend.toNat < f.gas.toNat := by
  have hstipend : Fees.stipend.toNat = 2300 := Gas.toNat_ofNat 2300 (by decide)
  obtain ⟨base, child, hbase, -, hcost⟩ := Call.cost_eq_some h.price
  have hge := Call.baseCost_ge hbase
  have hpaid : cost.toNat ≤ f.gas.toNat := h.paid
  rw [if_neg hv] at hge
  omega

end Instruction

theorem Call.requested_transferValue (kind : CallKind) (f : Frame) (gas : Gas) :
    (requested kind f gas).transferValue = value kind f := by
  cases kind <;> rfl

def Frame.SendsNothing (f : Frame) : Prop :=
  ∀ request, f.pending = some request → request.transferValue = 0

theorem Frame.Steps.idle {t : Tariff} {f f' : Frame} {w w' : World} {s : Step}
    (h : f.Steps t.fees w s f' w') (hf : f.SendsNothing)
    (hgas : f.gas.toNat ≤ Fees.stipend.toNat) : f'.SendsNothing ∧ w' = w := by
  refine ⟨?_, ?_⟩
  · intro request hr
    rcases h.pending_cases with hp | ⟨kind, sig, cost, gas, hpasses, hp⟩
    · exact hf request (hp.symm.trans hr)
    · obtain rfl := Option.some.inj (hp.symm.trans hr)
      rw [Call.requested_transferValue]
      by_cases hv : Call.value kind (f.facing sig) = 0
      · exact hv
      · exact absurd (Instruction.call_needs hpasses hv) (Nat.not_lt.mpr hgas)
  · cases h with
    | refused => rfl
    | performed i p sig cost hsig hpasses =>
      by_cases hi : i = .storageStore
      · subst hi
        exact absurd (Instruction.storageStore_needs hpasses) (Nat.not_lt.mpr hgas)
      · exact Instruction.worldAfter_of_ne hi

/-- A message with no more gas than the stipend, which has left `world` as it was. -/
structure CallTree.Idle (world : World) (t : CallTree) : Prop where
  gas : t.totalGas ≤ Fees.stipend.toNat
  frames : ∀ f ∈ t.frames, f.SendsNothing
  world : t.world = world.entered t.frames.length

/-- Calls hand gas around, but there is never more of it than at first. -/
theorem CallTree.Transition.idle {c r : Rules} {t t' : CallTree} {world : World} (hs : t.Sound)
    (ht : t.Idle world) (h : t.Transition c r t') : t'.Idle world := by
  have hgas : t'.totalGas ≤ Fees.stipend.toNat := by
    cases h.follows hs with
    | running _ hle => exact Nat.le_trans hle ht.gas
  obtain ⟨hbound, hframes, hworld⟩ := ht
  have hresumed : ∀ (f : Frame) request outcome gas,
      (f.resumed request outcome gas).SendsNothing := by
    intro f request outcome gas request' hr
    cases hr
  cases h with
  | @stepped f f' rest _ before _ steps after =>
    have hle : f.gas.toNat ≤ Fees.stipend.toNat := by
      rw [totalGas_cons before, stake] at hbound
      omega
    rw [before] at hframes hworld
    rw [List.forall_mem_cons] at hframes
    obtain ⟨hf', hw⟩ := steps.idle hframes.1 hle
    refine ⟨hgas, ?_, ?_⟩
    · rw [after, List.forall_mem_cons]
      exact ⟨hf', hframes.2⟩
    · rw [after, hw]
      exact hworld
  | refused before _ _ _ _ after hw =>
    rw [before] at hframes hworld
    rw [List.forall_mem_cons] at hframes
    refine ⟨hgas, ?_, ?_⟩
    · rw [after, List.forall_mem_cons]
      exact ⟨hresumed _ _ _ _, hframes.2⟩
    · rw [after, hw]
      exact hworld
  | started before _ waits _ transferred after =>
    rw [before] at hframes hworld
    have hzero := hframes _ List.mem_cons_self _ waits.pending
    rw [hzero, World.transfer_zero, hworld] at transferred
    refine ⟨hgas, ?_, ?_⟩
    · rw [after, List.forall_mem_cons]
      refine ⟨?_, hframes⟩
      intro request hr
      cases hr
    · rw [after]
      exact (Option.some.inj transferred).symm
  | @returned child parent rest _ _ before _ _ _ _ left after =>
    rw [before] at hframes hworld
    rw [List.forall_mem_cons, List.forall_mem_cons] at hframes
    have hleave := (world.entered (rest.length + 1)).leave_enter child.status.merge
    rw [hworld] at left
    refine ⟨hgas, ?_, ?_⟩
    · rw [after, List.forall_mem_cons]
      exact ⟨hresumed _ _ _ _, hframes.2.2⟩
    · rw [after]
      exact (Except.ok.inj (hleave.symm.trans left)).symm

namespace Executor

open CallTree

/--
A message with no more gas than the stipend, whatever its code and the code of the accounts that it
calls, finishes and leaves every balance, storage value and account as it was.
-/
theorem process_idle (c r : Rules) (message : Message) (limits : Limits) (world : World)
    (codes : CodeCache) (journal : Journal) (hgas : message.initialGas.toNat ≤ 2300) :
    ∃ outcome t, process ⟨.ofRules c, r⟩ (Frame.start message limits) world codes journal =
        .finished outcome t ∧
      world.SameAnswers t.world := by
  have hstipend : Fees.stipend.toNat = 2300 := Gas.toNat_ofNat 2300 (by decide)
  have hbegin : (begin (Frame.start message limits) world codes journal).Idle world := by
    refine ⟨?_, ?_, rfl⟩
    · rw [totalGas_begin, hstipend]
      exact hgas
    · simp [begin, Frame.start, Frame.SendsNothing]
  obtain ⟨t, f, t', hidle, hframes, -, hprocess, hleft⟩ :=
    process_keeps (c := c) (r := r) message limits world codes journal
      (fun hs ht h => h.idle hs ht) hbegin
  rw [hidle.world, hframes] at hleft
  have hleave := world.leave_enter f.status.merge
  exact ⟨f.outcome, t', hprocess, .of_eq (Except.ok.inj (hleave.symm.trans hleft)).symm⟩

def overwriting : Message where
  code := Code.ofBytes #[0x60, 9, 0x60, 0, 0x55] 0
  initialGas := Fees.stipend
  address := 5

/-- The transaction has written 7 to that cell before, so that the price of a write is low. -/
def overwritten : World := ({ base := {} } : World).setStorage 5 0 7

theorem process_idle_overwriting :
    FeeSchedule.istanbul.store (overwritten.settledStorage 5 0) (overwritten.storage 5 0) 9 <
        overwriting.initialGas ∧
      ∃ outcome t, process ⟨.ofRules .london, .london⟩ (Frame.start overwriting {}) overwritten {}
          [] = .finished outcome t ∧
        t.world.storage 5 0 = 7 := by
  obtain ⟨outcome, t, hprocess, hsame⟩ :=
    process_idle .london .london overwriting {} overwritten {} [] (by decide)
  have hcell : overwritten.storage 5 0 = 7 := by
    rw [overwritten, World.storage_setStorage, if_pos rfl]
  exact ⟨by decide +kernel, outcome, t, hprocess, (hsame.storage 5 0).trans hcell⟩

end Executor

end MeteredVm
