import MeteredVm.Proofs.ExactPrices
import MeteredVm.Rules

/-!
# MeteredVm.Proofs.Prices

What the price of an instruction says about it.

* `Instruction.one_le_cost`: only the instructions that end a frame may be free.
* `FeeSchedule.call_eq_some`: the price of a nested call, term by term, so that
  `Call.baseCost_ge` bounds it from below, by more than the stipend when value is sent.
* `Fees.expansion_words`: whoever can price a memory range needs fewer than `2 ^ 32` words for it
  (or has them already), because the square of the number of words must be an amount of gas.
-/

namespace MeteredVm

namespace Fees

theorem memory_eq_some {words : Nat} {g : Gas} (h : memory words = some g) :
    g.toNat = 3 * words + words * words / 512 ∧ words * words < 0x1_0000_0000_0000_0000 := by
  obtain ⟨linear, hl, h⟩ := Option.bind_eq_some_iff.mp h
  obtain ⟨square, hs, h⟩ := Option.bind_eq_some_iff.mp h
  rw [Gas.ofNat?_eq_some] at hl hs h
  exact ⟨by rw [h, hl, hs], hs ▸ square.isLt⟩

theorem expansion_eq_some {active : Nat} {offset len : Word} {g : Gas}
    (h : expansion active offset len = some g) (hl : len ≠ 0) :
    (Memory.wordsFor (offset.toNat + len.toNat) ≤ active ∧ g = 0) ∨
      active < Memory.wordsFor (offset.toNat + len.toNat) ∧ ∃ grown paid,
        memory (Memory.wordsFor (offset.toNat + len.toNat)) = some grown ∧
          memory active = some paid ∧ grown.sub? paid = some g := by
  rw [expansion, if_neg hl] at h
  obtain ⟨stop, hs, h⟩ := Option.bind_eq_some_iff.mp h
  obtain ⟨words, hw, h⟩ := Option.bind_eq_some_iff.mp h
  rw [Word.add?_eq_some] at hs
  have hwords : words.toNat = Memory.wordsFor (offset.toNat + len.toNat) := by
    rw [Gas.ofNat?_eq_some.mp hw, Word.wordCount, hs]
    rfl
  rw [← hwords]
  split at h
  · rename_i hle
    exact .inl ⟨hle, (Option.some.inj h).symm⟩
  · rename_i hlt
    obtain ⟨grown, hg, h⟩ := Option.bind_eq_some_iff.mp h
    obtain ⟨paid, hp, h⟩ := Option.bind_eq_some_iff.mp h
    exact .inr ⟨Nat.lt_of_not_le hlt, grown, paid, hg, hp, h⟩

theorem expansion_words {active : Nat} {offset len : Word} {g : Gas}
    (h : expansion active offset len = some g) (hl : len ≠ 0) :
    Memory.wordsFor (offset.toNat + len.toNat) ≤ active ∨
      Memory.wordsFor (offset.toNat + len.toNat) < 0x1_0000_0000 := by
  rcases expansion_eq_some h hl with ⟨hle, -⟩ | ⟨-, grown, paid, hg, -, -⟩
  · exact .inl hle
  · have hsq := (memory_eq_some hg).2
    exact .inr (Nat.lt_of_not_le fun hge => absurd (Nat.mul_le_mul hge hge) (by omega))

theorem memoryAccess_eq_some {active : Nat} {offset len : Word} {cost : Gas}
    (h : memoryAccess active offset len = some cost) :
    ∃ grown, expansion active offset len = some grown ∧
      cost.toNat = 3 + grown.toNat :=
  (memoryAccess_exact active offset len).amount cost |>.mp h

theorem copy_eq_some {active : Nat} {offset len : Word} {cost : Gas}
    (h : copy active offset len = some cost) :
    ∃ grown, expansion active offset len = some grown ∧
      cost.toNat = 3 + 3 * len.wordCount + grown.toNat :=
  (copy_exact active offset len).amount cost |>.mp h

theorem keccak_eq_some {active : Nat} {offset len : Word} {cost : Gas}
    (h : keccak active offset len = some cost) :
    ∃ grown, expansion active offset len = some grown ∧
      cost.toNat = 30 + 6 * len.wordCount + grown.toNat :=
  (keccak_exact active offset len).amount cost |>.mp h

theorem log_eq_some {active topics : Nat} {offset len : Word} {cost : Gas}
    (h : log active offset len topics = some cost) :
    ∃ grown, expansion active offset len = some grown ∧
      cost.toNat = 375 + 8 * len.toNat + 375 * topics + grown.toNat :=
  (log_exact active offset len topics).amount cost |>.mp h

end Fees

namespace FeeSchedule

theorem exp_eq_some {s : FeeSchedule} {power : Word} {cost : Gas}
    (h : s.exp power = some cost) :
    cost.toNat = s.exponentByte.toNat * power.byteLength + 10 := by
  rw [exp_eq, Gas.ofNat?_eq_some] at h
  rw [h, Nat.add_comm]

theorem call_eq_some {s : FeeSchedule} {memoryCost cost : Gas} {transfersValue isNew : Bool}
    (h : s.call memoryCost transfersValue isNew = some cost) :
    cost.toNat = s.callBase.toNat + memoryCost.toNat + (if transfersValue then 9000 else 0) +
      (if isNew && (transfersValue || s.emptyExists) then 25000 else 0) := by
  rw [call_eq, Gas.ofNat?_eq_some] at h
  rw [h, callOwn]
  omega

theorem one_le_store (t : Tariff) (settled current new : Word) :
    1 ≤ (t.fees.store settled current new).toNat := by
  have hl : 1 ≤ t.fees.load.toNat := by cases t <;> decide
  have hf : 1 ≤ Fees.storeFresh.toNat := by decide
  have hr : 1 ≤ Fees.storeReset.toNat := by decide
  unfold store
  repeat' split
  all_goals assumption

end FeeSchedule

namespace Call

theorem baseCost_eq_some {fees : FeeSchedule} {kind : CallKind} {f : Frame} {w : World}
    {base : Gas} (h : baseCost fees kind f w = some base) :
    ∃ memoryCost, Call.memoryCost kind f = some memoryCost ∧
      fees.call memoryCost (value kind f != 0) (recipientIsNew fees kind f w) = some base :=
  Option.bind_eq_some_iff.mp h

theorem baseCost_ge {t : Tariff} {kind : CallKind} {f : Frame} {w : World} {base : Gas}
    (h : baseCost t.fees kind f w = some base) :
    40 + (if value kind f = 0 then 0 else 9000) ≤ base.toNat := by
  obtain ⟨memoryCost, -, hc⟩ := baseCost_eq_some h
  have hcall := FeeSchedule.call_eq_some hc
  have hb : 40 ≤ t.fees.callBase.toNat := by cases t <;> decide
  by_cases hv : value kind f = 0
  · rw [if_pos hv]
    omega
  · rw [if_pos (bne_iff_ne.mpr hv)] at hcall
    rw [if_neg hv]
    omega

theorem cost_eq_some {fees : FeeSchedule} {kind : CallKind} {f : Frame} {w : World} {cost : Gas}
    (h : Call.cost fees kind f w = some cost) :
    ∃ base child, baseCost fees kind f w = some base ∧
      fees.childGas (f.gas.saturatingSub base) (f.operand 0) = some child ∧
      cost.toNat = base.toNat + child.toNat := by
  obtain ⟨base, hb, h⟩ := Option.bind_eq_some_iff.mp h
  obtain ⟨child, hc, h⟩ := Option.bind_eq_some_iff.mp h
  exact ⟨base, child, hb, hc, Gas.add?_eq_some.mp h⟩

end Call

namespace Instruction

def endsFrame : Instruction → Bool
  | stop | ret | revert => true
  | _ => false

theorem one_le_cost {t : Tariff} {f : Frame} {w : World} {cost : Gas} {i : Instruction}
    (h : i.cost t.fees f w = some cost) (hi : i.endsFrame = false) : 1 ≤ cost.toNat := by
  have fixed : ∀ g : Gas, some g = some cost → 1 ≤ g.toNat → 1 ≤ cost.toNat :=
    fun g he hg => Option.some.inj he ▸ hg
  cases i with
  | stop | ret | revert => cases hi
  | binary op =>
    cases op with
    | exp =>
      have he := FeeSchedule.exp_eq_some h
      omega
    | _ => exact fixed _ h (by decide)
  | read what => cases what <;> exact fixed _ h (by decide)
  | lookup what =>
    refine fixed _ h ?_
    cases what with
    | balance | storage => cases t <;> decide
    | callData => exact (by decide : 1 ≤ Fees.veryLowTier.toNat)
    | blockHash => exact (by decide : 1 ≤ Fees.blockHash.toNat)
  | copy source =>
    obtain ⟨grown, -, hc⟩ := Fees.copy_eq_some h
    omega
  | keccak =>
    obtain ⟨grown, -, hc⟩ := Fees.keccak_eq_some h
    omega
  | memoryLoad | memoryStore | memoryStoreByte =>
    obtain ⟨grown, -, hc⟩ := Fees.memoryAccess_eq_some h
    omega
  | storageStore => exact fixed _ h (FeeSchedule.one_le_store t _ _ _)
  | log n =>
    obtain ⟨grown, -, hc⟩ := Fees.log_eq_some h
    omega
  | call kind =>
    obtain ⟨base, child, hb, -, hc⟩ := Call.cost_eq_some h
    have hge := Call.baseCost_ge hb
    omega
  | _ => exact fixed _ h (by decide)

theorem expansion_of_cost {fees : FeeSchedule} {f : Frame} {w : World} {cost : Gas}
    {i : Instruction} (h : i.cost fees f w = some cost) :
    ∀ r ∈ i.ranges f, ∃ g, Fees.expansion f.memory.words r.1 r.2 = some g := by
  have single : ∀ {s : OperandRange}, (∃ g, Fees.expansion f.memory.words s.1 s.2 = some g) →
      ∀ r ∈ [s], ∃ g, Fees.expansion f.memory.words r.1 r.2 = some g := by
    intro s hs r hr
    rw [List.mem_singleton.mp hr]
    exact hs
  cases i with
  | ret | revert =>
    obtain ⟨grown, hg, -⟩ := Option.bind_eq_some_iff.mp h
    exact single ⟨grown, hg⟩
  | copy source =>
    obtain ⟨grown, hg, -⟩ := Fees.copy_eq_some h
    exact single ⟨grown, hg⟩
  | keccak =>
    obtain ⟨grown, hg, -⟩ := Fees.keccak_eq_some h
    exact single ⟨grown, hg⟩
  | memoryLoad | memoryStore | memoryStoreByte =>
    obtain ⟨grown, hg, -⟩ := Fees.memoryAccess_eq_some h
    exact single ⟨grown, hg⟩
  | log n =>
    obtain ⟨grown, hg, -⟩ := Fees.log_eq_some h
    exact single ⟨grown, hg⟩
  | call kind =>
    obtain ⟨base, child, hb, -, -⟩ := Call.cost_eq_some h
    obtain ⟨memoryCost, hm, -⟩ := Call.baseCost_eq_some hb
    obtain ⟨input, hi, hm⟩ := Option.bind_eq_some_iff.mp hm
    obtain ⟨output, ho, -⟩ := Option.bind_eq_some_iff.mp hm
    intro r hr
    rcases List.mem_cons.mp hr with rfl | hr
    · exact ⟨input, hi⟩
    · exact single ⟨output, ho⟩ r hr
  | _ =>
    intro r hr
    cases hr

end Instruction

end MeteredVm
