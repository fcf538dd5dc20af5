import MeteredVm.Proofs.Snapshots
import MeteredVm.Proofs.Steps
import MeteredVm.Proofs.Substates

/-!
# MeteredVm.Proofs.Alike

Worlds that running code cannot tell apart.

Two worlds over one ledger are alike if they have the same view, however the view is spread over
substates. Whatever the interpreter does in one of them it does in the other.

* `World.Alike`: the relation; every question about a world has one answer in alike worlds.
* `Instruction.cost_congr`, `Instruction.frameAfter_congr`, `Instruction.worldAfter_congr`: price
  and effect of an instruction.
* `Interpreter.step_congr` and `Interpreter.run_congr`: one step, and a run.
-/

namespace MeteredVm

structure World.Alike (w w' : World) : Prop where
  base : w'.base = w.base
  view : w'.view = w.view

namespace World

namespace Alike

theorem refl (w : World) : w.Alike w := ⟨rfl, rfl⟩

theorem symm {w w' : World} (h : w.Alike w') : w'.Alike w := ⟨h.base.symm, h.view.symm⟩

theorem trans {w w' w'' : World} (h : w.Alike w') (h' : w'.Alike w'') : w.Alike w'' :=
  ⟨h'.base.trans h.base, h'.view.trans h.view⟩

section

variable {w w' : World} (h : w.Alike w')

include h

theorem balance (a : Address) : w'.balance a = w.balance a := congrArg (·.balance a) h.view

theorem storage (a : Address) (key : Word) : w'.storage a key = w.storage a key :=
  congrArg (·.storage a key) h.view

theorem exists? (a : Address) : w'.exists? a = w.exists? a := congrArg (·.exists? a) h.view

theorem settledStorage (a : Address) (key : Word) :
    w'.settledStorage a key = w.settledStorage a key := by
  rw [World.settledStorage, h.base, World.settledStorage]

theorem code (a : Address) : w'.code a = w.code a := by rw [World.code, h.base, World.code]

theorem version (a : Address) : w'.version a = w.version a := by
  rw [World.version, h.base, World.version]

theorem blockHash (n : Word) : w'.blockHash n = w.blockHash n := by
  rw [World.blockHash, h.base, World.blockHash]

theorem isEmpty (a : Address) : w'.isEmpty a = w.isEmpty a := by
  rw [World.isEmpty, h.balance, h.code, World.isEmpty]

theorem setStorage (a : Address) (key value : Word) :
    (w.setStorage a key value).Alike (w'.setStorage a key value) :=
  ⟨h.base, by rw [view_setStorage, view_setStorage, h.view]⟩

theorem transfer (source target : Address) (value : Word) :
    (w.transfer source target value = none ∧ w'.transfer source target value = none) ∨
      ∃ u u', w.transfer source target value = some u ∧
        w'.transfer source target value = some u' ∧ u.Alike u' := by
  have hview := w.view_transfer source target value
  have hview' := w'.view_transfer source target value
  rw [h.view, ← hview] at hview'
  cases ht : w.transfer source target value with
  | none =>
    rw [ht, Option.map_none, Option.map_eq_none_iff] at hview'
    exact .inl ⟨rfl, hview'⟩
  | some u =>
    rw [ht, Option.map_some, Option.map_eq_some_iff] at hview'
    obtain ⟨u', hu', hv⟩ := hview'
    refine .inr ⟨u, u', rfl, hu', ?_, hv⟩
    exact (transfer_sameBelow hu').base.trans (h.base.trans (transfer_sameBelow ht).base.symm)

end

end Alike

theorem alike_enter (w : World) : w.Alike w.enter := ⟨rfl, w.view_enter⟩

/-- A commit moves changes to the substate around, where every reader still finds them. -/
theorem alike_leave_commit {w w' : World} (h : w.leave .commit = .ok w') : w.Alike w' := by
  unfold leave at h
  split at h
  · cases h
  · rename_i parent rest ho
    cases h
    refine ⟨rfl, (view_over w.base w.changes parent rest).trans ?_⟩
    rw [← ho]

end World

section

variable {fees : FeeSchedule} {w w' : World} (h : w.Alike w')

include h

theorem Reading.value_congr (f : Frame) (what : Reading) : what.value f w' = what.value f w := by
  cases what with
  | selfBalance => exact h.balance _
  | _ => rfl

theorem Lookup.value_congr (f : Frame) (what : Lookup) (operand : Word) :
    what.value f w' operand = what.value f w operand := by
  cases what with
  | balance => exact h.balance _
  | callData => rfl
  | blockHash => simp only [Lookup.value, recentBlockHash, h.blockHash]
  | storage => exact h.storage _ _

theorem Call.baseCost_congr (kind : CallKind) (f : Frame) :
    baseCost fees kind f w' = baseCost fees kind f w := by
  simp only [baseCost, recipientIsNew, h.exists?, h.isEmpty]

theorem Call.cost_congr (kind : CallKind) (f : Frame) :
    Call.cost fees kind f w' = Call.cost fees kind f w := by
  simp only [Call.cost, baseCost_congr h]

theorem Call.childGas_congr (kind : CallKind) (f : Frame) :
    childGas? fees kind f w' = childGas? fees kind f w := by
  simp only [childGas?, share, baseCost_congr h]

namespace Instruction

variable (f : Frame) (i : Instruction)

theorem cost_congr : i.cost fees f w' = i.cost fees f w := by
  cases i with
  | read what => cases what <;> rfl
  | storageStore => simp only [cost, h.settledStorage, h.storage]
  | call kind => exact Call.cost_congr h kind f
  | _ => rfl

theorem frameAfter_congr : i.frameAfter fees f w' = i.frameAfter fees f w := by
  cases i with
  | read what => simp only [frameAfter, what.value_congr h]
  | lookup what => simp only [frameAfter, what.value_congr h]
  | storageStore => simp only [frameAfter, h.settledStorage, h.storage]
  | call kind => simp only [frameAfter, Call.childGas_congr h]
  | _ => rfl

theorem worldAfter_congr : (i.worldAfter f w).Alike (i.worldAfter f w') := by
  cases i with
  | storageStore => exact h.setStorage _ _ _
  | _ => exact h

end Instruction

theorem Frame.performed_congr (f : Frame) (i : Instruction) (cost : Gas) (s : Signature) :
    f.performed fees w' i cost s = f.performed fees w i cost s := by
  rw [performed, i.frameAfter_congr h, performed]

end

namespace Operation

theorem check_congr {op : Operation} {f : Frame} {w w' : World}
    (hc : op.cost f w' = op.cost f w) (hh : op.haltCondition f w' = op.haltCondition f w) :
    op.check f w' = op.check f w := by
  simp only [check, hc, hh]

theorem check_operation_congr {w w' : World} (h : w.Alike w') (fees : FeeSchedule)
    (p : Provenance) (f : Frame) (i : Instruction) :
    (i.operation fees p).check f w' = (i.operation fees p).check f w :=
  check_congr (i.cost_congr h f) rfl

end Operation

namespace Interpreter

theorem step_congr (c : Rules) {f : Frame} {w w' : World} (h : w.Alike w')
    (journal journal' : Journal) (he : f.status = .executing) :
    ∃ s f₁ w₁ w₁' j₁ j₁', (ofRules c).step ⟨f, w, journal⟩ = .ok s ⟨f₁, w₁, j₁⟩ ∧
      (ofRules c).step ⟨f, w', journal'⟩ = .ok s ⟨f₁, w₁', j₁'⟩ ∧ w₁.Alike w₁' := by
  generalize hop : (ofRules c).operationAt f.code f.pc = op
  have hsame : op.check (f.facing op.toSignature) w' = op.check (f.facing op.toSignature) w := by
    rcases operationAt_ofRules c f.code f.pc with hi | ⟨i, p, hi, -⟩
    · rw [← hop, hi]
      rfl
    · rw [← hop, hi]
      exact Operation.check_operation_congr h _ p _ i
  cases hh : (op.check (f.facing op.toSignature) w).halt with
  | some reason =>
    obtain ⟨j₁, hs⟩ := step_of_refused journal he hop hh
    obtain ⟨j₁', hs'⟩ := step_of_refused journal' he hop (hsame ▸ hh)
    exact ⟨_, _, w, w', j₁, j₁', hs, hs', h⟩
  | none =>
    rcases operationAt_ofRules c f.code f.pc with hi | ⟨i, p, hi, -⟩
    · rw [hop] at hi
      rw [hi] at hh
      exact absurd hh (Operation.check_invalid _ w)
    · rw [hop] at hi
      subst hi
      obtain ⟨cost, hp, hc⟩ := Operation.passes_of_check hh
      obtain ⟨cost', hp', hc'⟩ := Operation.passes_of_check (hsame ▸ hh)
      obtain rfl : cost = cost' := Option.some.inj (hc.symm.trans (hsame ▸ hc'))
      obtain ⟨j₁, hs⟩ := step_of_passes journal he hop rfl hh hc hp
      obtain ⟨j₁', hs'⟩ := step_of_passes journal' he hop rfl (hsame ▸ hh) hc' hp'
      rw [Frame.performed_congr h] at hs'
      exact ⟨_, _, _, _, j₁, j₁', hs, hs', i.worldAfter_congr h _⟩

theorem run_congr (c : Rules) (n : Nat) : ∀ {f : Frame} {w w' : World} {journal : Journal}
    (journal' : Journal) {result : Except ExitError Unit} {m : Machine}, w.Alike w' →
    (ofRules c).run n ⟨f, w, journal⟩ = .ended result m →
    ∃ m', (ofRules c).run n ⟨f, w', journal'⟩ = .ended result m' ∧ m'.frame = m.frame ∧
      m.world.Alike m'.world := by
  induction n with
  | zero =>
    intro f w w' journal journal' result m _ h
    cases h
  | succ n ih =>
    intro f w w' journal journal' result m hw h
    unfold run at h ⊢
    by_cases he : f.status = .executing
    · obtain ⟨s, f₁, w₁, w₁', j₁, j₁', hs, hs', hw₁⟩ := step_congr c hw journal journal' he
      rw [hs] at h
      rw [hs']
      cases s with
      | proceed => exact ih j₁' hw₁ h
      | halt reason =>
        cases h
        exact ⟨_, rfl, rfl, hw₁⟩
      | terminal status =>
        cases h
        exact ⟨_, rfl, rfl, hw₁⟩
    · have hstop : ∀ w journal, (ofRules c).step ⟨f, w, journal⟩ =
          .error .notExecuting ⟨f, w, journal⟩ := by
        intro w journal
        simp [step, he]
      rw [hstop] at h ⊢
      cases h
      exact ⟨_, rfl, rfl, hw⟩

end Interpreter

end MeteredVm
