import MeteredVm.Proofs.SingleStep
import MeteredVm.Proofs.SpareGas

/-!
# MeteredVm.Proofs.ChildGas

The gas of a child is what its caller was charged for it.

A call is priced before it runs: by its own price, and by a share for the child that depends on the
gas left. The effect is not told the share. It computes the own price again, in a frame that has
paid by then, and takes whatever was charged beyond it. That is the share, because the own price
does not look at the gas, and the stipend comes on top of it.

* `FeeSchedule.childGas_capped`, `FeeSchedule.childGas_uncapped`: the share under either rule.
* `Call.cost_capped`, `Call.cost_uncapped`: the price of a call, and when it has none.
* `Call.share_paid`, `Call.childGas_paid`: what the effect finds is what was priced.
* `Interpreter.step_call`: a step that executes a call.
* `Interpreter.child_gas_as_charged`: all of it, for one call.
-/

namespace MeteredVm

namespace FeeSchedule

variable {s : FeeSchedule} (remaining : Gas) (requested : Word)

theorem childGas_capped (h : s.allButOne64th = true) :
    ∃ child, s.childGas remaining requested = some child ∧
      child.toNat = min requested.toNat (remaining.toNat - remaining.toNat / 64) := by
  have hcap : remaining.allButOne64th.toNat = remaining.toNat - remaining.toNat / 64 := rfl
  simp only [childGas, h, if_true]
  by_cases hr : remaining.allButOne64th.toNat < requested.toNat
  · rw [if_pos hr]
    exact ⟨_, rfl, by omega⟩
  · rw [if_neg hr]
    have hlt := remaining.allButOne64th.isLt
    exact ⟨⟨requested.toNat, by omega⟩, Gas.ofNat?_eq_some.mpr rfl, by simp only; omega⟩

theorem childGas_uncapped (h : s.allButOne64th = false) :
    s.childGas remaining requested = Gas.ofWord? requested := by
  simp [childGas, h]

end FeeSchedule

namespace Call

variable {fees : FeeSchedule} {kind : CallKind} {f : Frame} {w : World} {base cost : Gas}

/-- Under the 64th rule every call has a price, even one whose own price is out of reach. -/
theorem cost_capped (ha : fees.allButOne64th = true) (hb : baseCost fees kind f w = some base) :
    ∃ cost, Call.cost fees kind f w = some cost ∧
      cost.toNat = base.toNat + min (f.operand 0).toNat
        (f.gas.toNat - base.toNat - (f.gas.toNat - base.toNat) / 64) := by
  obtain ⟨child, hchild, hmin⟩ :=
    FeeSchedule.childGas_capped (f.gas.saturatingSub base) (f.operand 0) ha
  have hleft : (f.gas.saturatingSub base).toNat = f.gas.toNat - base.toNat := rfl
  rw [hleft] at hmin
  have hgas := f.gas.isLt
  have hprice := base.isLt
  refine ⟨⟨base.toNat + child.toNat, by omega⟩, ?_, by simp only; omega⟩
  simp only [Call.cost, hb, Option.bind_eq_bind, Option.bind_some]
  rw [hchild]
  exact Gas.add?_eq_some.mpr rfl

theorem cost_uncapped (ha : fees.allButOne64th = false)
    (hb : baseCost fees kind f w = some base) :
    Call.cost fees kind f w = Gas.ofNat? (base.toNat + (f.operand 0).toNat) := by
  simp only [Call.cost, hb, Option.bind_eq_bind, Option.bind_some]
  rw [FeeSchedule.childGas_uncapped _ _ ha]
  cases hq : Gas.ofWord? (f.operand 0) with
  | some child =>
    have hchild : child.toNat = (f.operand 0).toNat := Gas.ofNat?_eq_some.mp hq
    rw [← hchild]
    rfl
  | none =>
    -- a request that is out of range leaves no room for the own price
    have hlarge := Gas.ofNat?_eq_none.mp hq
    exact (Gas.ofNat?_eq_none.mpr (by omega)).symm

/-- The effect takes what was charged beyond the own price, and that was the share. -/
theorem share_paid (hb : baseCost fees kind f w = some base)
    (hc : Call.cost fees kind f w = some cost) :
    ∃ child, share fees kind (f.paid cost) w = some child ∧
      child.toNat + base.toNat = cost.toNat := by
  obtain ⟨base', child, hb', -, hsum⟩ := cost_eq_some hc
  obtain rfl : base = base' := Option.some.inj (hb.symm.trans hb')
  refine ⟨child, ?_, by omega⟩
  show (some cost >>= fun c => baseCost fees kind f w >>= fun b => c.sub? b) = _
  rw [hb]
  exact Gas.sub?_eq_some.mpr (by omega)

theorem childGas_paid {t : Tariff} (hb : baseCost t.fees kind f w = some base)
    (hc : Call.cost t.fees kind f w = some cost) :
    ∃ gas, childGas? t.fees kind (f.paid cost) w = some gas ∧
      gas.toNat + base.toNat = cost.toNat + if value kind f = 0 then 0 else 2300 := by
  obtain ⟨child, hshare, hsum⟩ := share_paid hb hc
  obtain ⟨gas, hgas, -⟩ := exists_childGas hc
  have hvalue : value kind (f.paid cost) = value kind f := rfl
  refine ⟨gas, hgas, ?_⟩
  simp only [childGas?, hshare, hvalue, Option.bind_eq_bind, Option.bind_some] at hgas
  by_cases hv : value kind f = 0
  · rw [if_pos hv] at hgas ⊢
    obtain rfl := Option.some.inj hgas
    omega
  · rw [if_neg hv] at hgas ⊢
    have hstipend : Fees.stipend.toNat = 2300 := Gas.toNat_ofNat 2300 (by decide)
    have hadd := Gas.add?_eq_some.mp hgas
    omega

end Call

theorem Call.requested_gas (kind : CallKind) (f : Frame) (gas : Gas) :
    (Call.requested kind f gas).gas = gas := by
  cases kind <;> rfl

section

variable {t : Tariff} {kind : CallKind} {f : Frame} {w : World} {base cost : Gas} {s : Signature}

theorem Frame.performed_call (he : f.status = .executing)
    (hb : Call.baseCost t.fees kind f w = some base)
    (h : (Instruction.call kind).Passes t.fees f w cost) :
    let f' := f.performed t.fees w (.call kind) cost s
    f'.status = .suspended ∧ f'.cost = some cost ∧ f'.gas.toNat + cost.toNat = f.gas.toNat ∧
      ∃ request, f'.pending = some request ∧
        request.gas.toNat + base.toNat =
          cost.toNat + if Call.value kind f = 0 then 0 else 2300 := by
  obtain ⟨gas, hgas, hsum⟩ := Call.childGas_paid hb h.price
  refine ⟨status_performed he, ?_, ?_, Call.requested kind (f.paid cost) gas, ?_, ?_⟩
  · rw [performed, advance_eq]
    rfl
  · rw [gas_performed]
    exact Nat.sub_add_cancel h.paid
  · rw [performed, advance_eq]
    refine (Instruction.pending_call ..).trans ?_
    rw [hgas]
    rfl
  · rw [Call.requested_gas]
    exact hsum

end

namespace Interpreter

variable {vm : Interpreter} {t : Tariff} {kind : CallKind} {p : Provenance} {f : Frame} {w : World}
  {base : Gas}

theorem step_call (journal : Journal) (hb : Call.baseCost t.fees kind f w = some base)
    (hop : vm.operationAt f.code f.pc = (Instruction.call kind).operation t.fees p)
    (he : f.status = .executing)
    (hhalt : (((Instruction.call kind).operation t.fees p).check f w).halt = none) :
    ∃ cost m request, Call.cost t.fees kind f w = some cost ∧
      vm.step ⟨f, w, journal⟩ = .ok (.terminal .suspended) m ∧ m.frame.status = .suspended ∧
      m.frame.cost = some cost ∧ m.frame.gas.toNat + cost.toNat = f.gas.toNat ∧
      m.frame.pending = some request ∧
      request.gas.toNat + base.toNat =
        cost.toNat + if Call.value kind f = 0 then 0 else 2300 := by
  obtain ⟨s, hs⟩ : ∃ s, ((Instruction.call kind).operation t.fees p).toSignature = s := ⟨_, rfl⟩
  rw [← Instruction.check_facing s] at hhalt
  obtain ⟨cost, hpasses, hcost⟩ := Operation.passes_of_check hhalt
  obtain ⟨hstatus, hcharged, hgas, request, hpending, hsum⟩ :=
    Frame.performed_call (f := f.facing s) (s := s) he hb hpasses
  subst hs
  obtain ⟨journal', hstep⟩ := step_of_passes journal he hop rfl hhalt hcost hpasses
  rw [Frame.stepResult_terminal hstatus (.inl rfl)] at hstep
  exact ⟨cost, _, request, hpasses.price, hstep, hstatus, hcharged, hgas, hpending, hsum⟩

/--
A call with a price of its own. Under the 64th rule it is never too dear to be priced, whoever can
pay its own price can pay for it, and keeps a 64th of what was left; without the rule it costs the
sum, or has no price. Once it is executed, the child has been handed what was charged beyond the own
price, and the stipend exactly if value is sent.
-/
theorem child_gas_as_charged (t : Tariff) (kind : CallKind) (p : Provenance) (f : Frame) (w : World)
    {base : Gas} (hb : Call.baseCost t.fees kind f w = some base) :
    let op := (Instruction.call kind).operation t.fees p
    let left := f.gas.toNat - base.toNat
    let requested := (f.operand 0).toNat
    (t.fees.allButOne64th = true → ∃ cost, op.cost f w = some cost ∧
        (Operation.gasHalt (some cost) f.gas = none ↔ base ≤ f.gas) ∧
        (base ≤ f.gas → cost.toNat = base.toNat + min requested (left - left / 64) ∧
          left / 64 + cost.toNat ≤ f.gas.toNat)) ∧
      (t.fees.allButOne64th = false →
        (base.toNat + requested < 2 ^ 64 → ∃ cost, op.cost f w = some cost ∧
          cost.toNat = base.toNat + requested) ∧
        (2 ^ 64 ≤ base.toNat + requested → op.cost f w = none ∧
          (Operation.stackHalt op.toSignature f.stack = none →
            (op.check f w).halt = some .costOverflow))) ∧
      ∀ (vm : Interpreter) (journal : Journal), vm.operationAt f.code f.pc = op →
        f.status = .executing → (op.check f w).halt = none →
          ∃ cost m request, op.cost f w = some cost ∧
            vm.step ⟨f, w, journal⟩ = .ok (.terminal .suspended) m ∧ m.frame.status = .suspended ∧
            m.frame.cost = some cost ∧ m.frame.gas.toNat + cost.toNat = f.gas.toNat ∧
            m.frame.pending = some request ∧
            request.gas.toNat + base.toNat =
              cost.toNat + if Call.value kind f = 0 then 0 else 2300 := by
  intro op left requested
  refine ⟨fun ha => ?_, fun ha => ?_,
    fun vm journal hop he hhalt => step_call journal hb hop he hhalt⟩
  · obtain ⟨cost, hcost, hsum⟩ := Call.cost_capped ha hb
    have hgas := Call.gasHalt_cost ha hb
    rw [hcost] at hgas
    refine ⟨cost, hcost, ?_, fun hle => ⟨hsum, ?_⟩⟩
    · rw [hgas, Gas.le_iff]
      split
      · rename_i hlt
        simpa using Gas.lt_iff.mp hlt
      · rename_i hle
        simpa using Nat.le_of_not_lt (mt Gas.lt_iff.mpr hle)
    · have hle : base.toNat ≤ f.gas.toNat := hle
      omega
  · have hcost : op.cost f w = Gas.ofNat? (base.toNat + requested) := Call.cost_uncapped ha hb
    refine ⟨fun hfits => ?_, fun hlarge => ?_⟩
    · exact ⟨⟨base.toNat + requested, hfits⟩, hcost.trans (Gas.ofNat?_eq_some.mpr rfl), rfl⟩
    · have hnone : op.cost f w = none := hcost.trans (Gas.ofNat?_eq_none.mpr hlarge)
      refine ⟨hnone, fun hstack => ?_⟩
      rw [Operation.halt_check_eq, hstack, hnone]
      rfl

/--
Account 5 sends 1 to account 7 and asks for more gas than there is. It pays 34700 for that, and all
but one 64th of the other 65300 goes to the child.
-/
def lending : Frame :=
  { Frame.start { code := Code.ofBytes #[0xf1] 0, initialGas := 100000, address := 5 } {} with
    stack := ⟨[BitVec.allOnes 256, 7, 1, 0, 0, 0, 0], 1024⟩ }

set_option maxRecDepth 8000 in
theorem lending_passes :
    Call.baseCost Tariff.berlin.fees .call lending { base := {} } = some 34700 ∧
      (((Instruction.call .call).toOperation Tariff.berlin.fees).check lending
        { base := {} }).halt = none := by
  decide +kernel

/-- The child has 64280 of the 65300, and 2300 because it receives value. -/
theorem child_gas_as_charged_lending :
    Call.baseCost Tariff.berlin.fees .call lending { base := {} } = some 34700 ∧
      ∃ cost m request,
        ((Instruction.call .call).toOperation Tariff.berlin.fees).cost lending { base := {} } =
          some cost ∧
        cost.toNat = 34700 + 64280 ∧
        (ofRules .london).step ⟨lending, { base := {} }, []⟩ = .ok (.terminal .suspended) m ∧
        m.frame.pending = some request ∧ request.gas.toNat = 64280 + 2300 := by
  obtain ⟨hb, hhalt⟩ := lending_passes
  have hop : (ofRules .london).operationAt lending.code lending.pc =
      (Instruction.call .call).operation Tariff.berlin.fees .table :=
    (operationAt_of_enabled (i := .call .call) rfl rfl rfl).trans
      (Instruction.operation_table _ _).symm
  obtain ⟨hcapped, -, hstep⟩ :=
    child_gas_as_charged .berlin .call .table lending { base := {} } hb
  obtain ⟨cost, hcost, -, hprice⟩ := hcapped rfl
  obtain ⟨hsum, -⟩ := hprice (by decide)
  have hsum : cost.toNat = 34700 + 64280 := hsum
  obtain ⟨cost', m, request, hcost', hmade, -, -, -, hpending, hgas⟩ :=
    hstep (ofRules .london) [] hop rfl hhalt
  obtain rfl := Option.some.inj (hcost.symm.trans hcost')
  have hgas : request.gas.toNat + 34700 = cost.toNat + 2300 := hgas
  exact ⟨hb, cost, m, request, hcost, hsum, hmade, hpending, by omega⟩

end Interpreter

end MeteredVm
