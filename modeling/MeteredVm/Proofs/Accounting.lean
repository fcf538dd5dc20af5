import MeteredVm.Proofs.Moves

/-!
# MeteredVm.Proofs.Accounting

The gas of a message pays for everything that is done for it.

* `Executor.gas_conserved`: a message and its calls never hold more gas than it started with, and
  no sum of gas that is handed on overflows.
* `Executor.process_terminates`: the operations that all its frames execute are at most one more
  than its gas, and three times as many moves bring it to its end.
-/

namespace MeteredVm

/-- The sums of gas that a move may have to form are amounts of gas. -/
structure CallTree.SumsFit (c r : Rules) (t : CallTree) : Prop where
  /-- A refused child gives back what it was to get. -/
  refused : ∀ parent rest request, t.frames = parent :: rest → parent.status = .suspended →
    parent.pending = some request → parent.gas.toNat + request.gas.toNat < 0x1_0000_0000_0000_0000
  /-- A child that ended gives back what it has left. -/
  returned : ∀ child parent rest, t.frames = child :: parent :: rest →
    child.status.isTerminal = true →
    parent.gas.toNat + child.gasBack.toNat < 0x1_0000_0000_0000_0000
  /-- A call that sends value adds the stipend to the share of the child. -/
  stipend : ∀ f rest kind cost share, t.frames = f :: rest → Call.value kind f ≠ 0 →
    Call.cost c.tariff.fees kind f t.world = some cost →
    Call.share c.tariff.fees kind (f.paid cost) t.world = some share →
    share.toNat + Fees.stipend.toNat < 0x1_0000_0000_0000_0000
  /-- The next move does not fail for gas. -/
  advances : ∀ t', Executor.advance ⟨.ofRules c, r⟩ t ≠ .failed .gasAccountingOverflow t'

theorem Call.stipend_fits {t : Tariff} {kind : CallKind} {f : Frame} {w : World}
    {cost share : Gas} (hv : value kind f ≠ 0) (hc : Call.cost t.fees kind f w = some cost)
    (hs : Call.share t.fees kind (f.paid cost) w = some share) :
    share.toNat + Fees.stipend.toNat < 0x1_0000_0000_0000_0000 := by
  obtain ⟨gas, hg, -⟩ := exists_childGas hc
  rw [childGas?, hs] at hg
  have hadd : share.add? Fees.stipend = some gas := (if_neg hv).symm.trans hg
  rw [← Gas.add?_eq_some.mp hadd]
  exact gas.isLt

theorem CallTree.Sound.sumsFit {c r : Rules} {t : CallTree} (hs : t.Sound) : t.SumsFit c r where
  refused := by
    intro parent rest request h hstatus hp
    exact hs.refused_lt h hstatus hp
  returned := by
    intro child parent rest h _
    exact hs.returned_lt h
  stipend := by
    intro f rest kind cost share _ hv hc hshare
    exact Call.stipend_fits hv hc hshare
  advances := by
    intro t' ha
    have hf := Executor.advance_follows c r hs
    rw [ha] at hf
    cases hf

namespace Executor

variable (c r : Rules) (message : Message) (limits : Limits) (world : World) (codes : CodeCache)
  (journal : Journal)

/--
Wherever a message stands, its frames and the child that was asked for hold no more gas than it
started with, no move makes more of it, no sum of gas overflows, and the outcome gives back no
more than that.
-/
theorem gas_conserved :
    (∃ outcome t, process ⟨.ofRules c, r⟩ (Frame.start message limits) world codes journal =
        .finished outcome t ∧
      outcome.gas.toNat ≤ message.initialGas.toNat) ∧
    ∀ n t, run ⟨.ofRules c, r⟩ n (begin (Frame.start message limits) world codes journal) =
        .running t →
      t.totalGas ≤ message.initialGas.toNat ∧ t.SumsFit c r ∧
      (∀ t', advance ⟨.ofRules c, r⟩ t = .running t' → t'.totalGas ≤ t.totalGas) ∧
      ∀ outcome t', advance ⟨.ofRules c, r⟩ t = .finished outcome t' →
        outcome.gas.toNat ≤ t.totalGas := by
  refine ⟨process_finished message limits world codes journal c r, ?_⟩
  intro n t h
  obtain ⟨hs, hgas, -⟩ := run_running c r n (begin_sound message limits world codes journal) h
  rw [totalGas_begin] at hgas
  have hf := advance_follows c r hs
  refine ⟨hgas, hs.sumsFit, ?_, ?_⟩
  · intro t' ha
    rw [ha] at hf
    cases hf with
    | running _ hle => exact hle
  · intro outcome t' ha
    rw [ha] at hf
    cases hf with
    | finished hle => exact hle

/--
Every message ends: its processing finishes, after at most three moves for each unit of gas and
three more, and the operations executed on the way, in all frames together, are at most one more
than its gas.
-/
theorem process_terminates :
    (∃ outcome t, process ⟨.ofRules c, r⟩ (Frame.start message limits) world codes journal =
      .finished outcome t) ∧
    (∃ outcome t, run ⟨.ofRules c, r⟩ (3 * message.initialGas.toNat + 3)
      (begin (Frame.start message limits) world codes journal) = .finished outcome t) ∧
    ∀ n, operations ⟨.ofRules c, r⟩ n (begin (Frame.start message limits) world codes journal) ≤
      message.initialGas.toNat + 1 := by
  have hs := begin_sound message limits world codes journal
  refine ⟨?_, ?_, ?_⟩
  · obtain ⟨outcome, t, h, -⟩ := process_finished message limits world codes journal c r
    exact ⟨outcome, t, h⟩
  · obtain ⟨outcome, t, h, -⟩ := run_finished c r (3 * message.initialGas.toNat + 3) hs
      (by rw [fuel_begin]; omega)
    exact ⟨outcome, t, h⟩
  · intro n
    rw [← credit_begin message limits world codes journal]
    exact operations_le c r n hs

end Executor

end MeteredVm
