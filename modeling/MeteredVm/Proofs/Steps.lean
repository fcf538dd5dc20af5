import MeteredVm.Interpreter
import MeteredVm.Proofs.FrameAfter

/-!
# MeteredVm.Proofs.Steps

What a step of an interpreter for a set of rules does.

Every operation that such an interpreter meets is an instruction, or it is the invalid operation,
which always halts. An instruction whose checks pass has an effect that does not fail
(`Instruction.execute_eq`), so a step of an executing frame is one of two things: a check ends the
frame, or an instruction is charged, performed and moved past.

* `Interpreter.operationAt_ofRules`: the operations that are met.
* `Operation.passes_of_check`: the verdict of the checks, as `Instruction.Passes`.
* `Frame.Steps` and `Interpreter.step_ofRules`: the step itself. It never fails.
-/

namespace MeteredVm

namespace InstructionSet

theorem get?_put (r : InstructionSet) (version v : Nat) (op : Operation) (b : Opcode) :
    (r.put version op).get? b v =
      if v = version ∧ b = op.opcode then some op else r.get? b v := by
  by_cases hv : version = v
  · subst hv
    simp only [get?, put, Std.ExtTreeMap.getElem?_insert_self, Option.bind_some, true_and]
    by_cases hb : b = op.opcode
    · rw [if_pos hb, hb]
      exact Vector.getElem_set_self _
    · rw [if_neg hb]
      have hne : op.opcode.toNat ≠ b.toNat := fun h => hb (UInt8.toNat_inj.mp h).symm
      refine (Vector.getElem_set_ne op.opcode.toNat_lt b.toNat_lt hne).trans ?_
      cases r.tables[version]? with
      | none => exact Vector.getElem_replicate b.toNat_lt
      | some t => rfl
  · rw [if_neg fun h => hv h.1.symm]
    simp only [get?, put, Std.ExtTreeMap.getElem?_insert]
    rw [if_neg (by simpa using hv)]

theorem get?_foldl_put {version v : Nat} {b : Opcode} {op : Operation} (ops : List Operation) :
    ∀ r : InstructionSet, (ops.foldl (·.put version ·) r).get? b v = some op →
      (op ∈ ops ∧ op.opcode = b) ∨ r.get? b v = some op := by
  induction ops with
  | nil =>
    intro r h
    exact .inr h
  | cons o ops ih =>
    intro r h
    rcases ih _ h with ⟨h, hb⟩ | h
    · exact .inl ⟨List.mem_cons_of_mem o h, hb⟩
    · rw [get?_put] at h
      split at h
      · rename_i hput
        cases h
        exact .inl ⟨List.mem_cons_self, hput.2.symm⟩
      · exact .inr h

theorem mem_of_get?_ofRules {c : Rules} {v : Nat} {b : Opcode} {op : Operation}
    (h : (ofRules c).get? b v = some op) : op ∈ operations c := by
  rcases get?_foldl_put _ _ h with h | h
  · exact h.1
  · cases h

theorem opcode_of_get?_ofRules {c : Rules} {v : Nat} {b : Opcode} {op : Operation}
    (h : (ofRules c).get? b v = some op) : op.opcode = b := by
  rcases get?_foldl_put _ _ h with h | h
  · exact h.2
  · cases h

end InstructionSet

/-- The instruction as an operation, from a table or from behind the end of the code. -/
def Instruction.operation (fees : FeeSchedule) (p : Provenance) (i : Instruction) : Operation :=
  { i.toOperation fees with provenance := p }

theorem Instruction.operation_table (fees : FeeSchedule) (i : Instruction) :
    i.operation fees .table = i.toOperation fees := by
  cases i <;> rfl

theorem InstructionSet.mem_operations {c : Rules} {op : Operation} (h : op ∈ operations c) :
    op = .invalid ∨ ∃ i : Instruction, op = i.operation c.tariff.fees .table := by
  rcases List.mem_append.mp h with h | h
  · obtain ⟨i, -, rfl⟩ := List.mem_map.mp h
    exact .inr ⟨i, (i.operation_table _).symm⟩
  · exact .inl (List.mem_singleton.mp h)

theorem Interpreter.instructionSet_ofRules (c : Rules) :
    (ofRules c).instructionSet = InstructionSet.ofRules c := by
  simp only [ofRules]

theorem Interpreter.operationAt_ofRules (c : Rules) (code : Code) (pc : Nat) :
    (ofRules c).operationAt code pc = .invalid ∨
      ∃ (i : Instruction) (p : Provenance),
        (ofRules c).operationAt code pc = i.operation c.tariff.fees p ∧
          (code.opcodeAt? pc = some i.signature.opcode ∨ i = .stop) := by
  unfold operationAt
  cases hb : code.opcodeAt? pc with
  | none => exact .inr ⟨.stop, .endOfCode, rfl, .inr rfl⟩
  | some b =>
    show (ofRules c).resolve b code.version = _ ∨ ∃ i p, (ofRules c).resolve b code.version = _ ∧ _
    unfold resolve
    cases hg : (ofRules c).instructionSet.get? b code.version with
    | none => exact .inl rfl
    | some op =>
      rw [instructionSet_ofRules] at hg
      have hopcode := InstructionSet.opcode_of_get?_ofRules hg
      rcases InstructionSet.mem_operations (InstructionSet.mem_of_get?_ofRules hg) with h | ⟨i, h⟩
      · exact .inl h
      · subst h
        exact .inr ⟨i, .table, rfl, .inl (congrArg some hopcode.symm)⟩

theorem Signature.toInt_ofNat {n : Nat} (h : n ≤ 17) : (Int64.ofNat n).toInt = n :=
  Int64.toInt_ofNat_of_lt (by omega)

namespace Operation

/-- The first refusal wins. -/
theorem halt_check_eq {op : Operation} {f : Frame} {w : World} :
    (op.check f w).halt = (stackHalt op.toSignature f.stack).or
      ((gasHalt (op.cost f w) f.gas).or (op.haltCondition f w)) := by
  unfold check
  cases stackHalt op.toSignature f.stack with
  | none =>
    dsimp only
    cases gasHalt (op.cost f w) f.gas <;> rfl
  | some reason => cases reason <;> rfl

theorem check_halt_eq_none {op : Operation} {f : Frame} {w : World}
    (h : (op.check f w).halt = none) :
    stackHalt op.toSignature f.stack = none ∧ op.haltCondition f w = none ∧
      ∃ cost, op.cost f w = some cost ∧ cost ≤ f.gas ∧ (op.check f w).cost = some cost := by
  unfold check at h
  split at h
  · cases h
  · cases h
  · rename_i hs
    dsimp only at h
    split at h
    · cases h
    · rename_i hg
      have hverdict : op.check f w = ⟨op.haltCondition f w, op.cost f w⟩ := by
        unfold check
        rw [hs]
        dsimp only
        rw [hg]
      unfold gasHalt at hg
      split at hg
      · cases hg
      · rename_i cost hc
        split at hg
        · cases hg
        · rename_i hlt
          exact ⟨hs, h, cost, hc, Nat.not_lt.mp hlt, by rw [hverdict, hc]⟩

/-- A limit of `2 ^ 63` and more reads as negative. -/
theorem toInt_limit (limit : UInt64) :
    limit.toInt64.toInt = if limit.toNat < 0x8000_0000_0000_0000 then (limit.toNat : Int)
      else (limit.toNat : Int) - 0x1_0000_0000_0000_0000 := by
  have h := limit.toBitVec.toInt_eq_toNat_cond
  have hn : limit.toBitVec.toNat = limit.toNat := rfl
  have hi : limit.toInt64.toInt = limit.toBitVec.toInt := rfl
  rw [hi, h, hn]
  have hlt := limit.toNat_lt
  split <;> split <;> omega

/-- Counts that are small are read as they are, so only the limit may be misread. -/
theorem stackHalt_eq_signed {s : Signature} {stack : Stack} (hc : s.consumed ≤ 17)
    (hp : s.produced ≤ 17) :
    stackHalt s stack =
      if stack.limit.toInt64.toInt < stack.height + s.produced - s.consumed then
        some .stackOverflow
      else if stack.height < s.consumed then some .stackUnderflow
      else none := by
  have hchange : (stack.height : Int) + s.stackChange =
      stack.height + s.produced - s.consumed := by
    rw [Signature.stackChange, Signature.toInt_ofNat hp, Signature.toInt_ofNat hc]
    omega
  rw [stackHalt, hchange]

theorem stackHalt_eq_none {s : Signature} {stack : Stack} (hc : s.consumed ≤ 17)
    (hp : s.produced ≤ 17) (h : stackHalt s stack = none) :
    s.consumed ≤ stack.height ∧ stack.height - s.consumed + s.produced ≤ stack.limit.toNat ∧
      stack.limit.toNat < 0x8000_0000_0000_0000 := by
  rw [stackHalt_eq_signed hc hp, toInt_limit] at h
  by_cases hover : (if stack.limit.toNat < 0x8000_0000_0000_0000 then (stack.limit.toNat : Int)
      else (stack.limit.toNat : Int) - 0x1_0000_0000_0000_0000) <
      stack.height + s.produced - s.consumed
  · rw [if_pos hover] at h
    cases h
  · rw [if_neg hover] at h
    by_cases hunder : stack.height < s.consumed
    · rw [if_pos hunder] at h
      cases h
    · have hlt := stack.limit.toNat_lt
      split at hover <;> omega

end Operation

theorem Instruction.consumed_le (i : Instruction) : i.signature.consumed ≤ 17 := by
  cases i with
  | dup n | swap n | log n =>
    have hn := n.isLt
    simp only [signature, plain]
    omega
  | call kind => cases kind <;> decide
  | _ => simp [signature, plain]

theorem Instruction.produced_le (i : Instruction) : i.signature.produced ≤ 17 := by
  cases i with
  | dup n | swap n =>
    have hn := n.isLt
    simp only [signature, plain]
    omega
  | _ => simp [signature, plain]

theorem Operation.passes_of_check {fees : FeeSchedule} {f : Frame} {w : World} {i : Instruction}
    {p : Provenance} (h : ((i.operation fees p).check f w).halt = none) :
    ∃ cost, i.Passes fees f w cost ∧ ((i.operation fees p).check f w).cost = some cost := by
  obtain ⟨hs, hc, cost, hcost, hpaid, hv⟩ := check_halt_eq_none h
  obtain ⟨ho, hr, hl⟩ := stackHalt_eq_none i.consumed_le i.produced_le hs
  exact ⟨cost, ⟨ho, hr, hl, hcost, hpaid, hc⟩, hv⟩

theorem Operation.check_invalid (f : Frame) (w : World) :
    (Operation.invalid.check f w).halt ≠ none := by
  intro h
  obtain ⟨-, hc, -⟩ := check_halt_eq_none h
  cases hc

namespace Frame

def facing (f : Frame) (s : Signature) : Frame := { f with operation := some s }

def performed (fees : FeeSchedule) (f : Frame) (w : World) (i : Instruction) (cost : Gas)
    (s : Signature) : Frame :=
  (i.frameAfter fees (f.paid cost) w).advance s

theorem charge_eq {f : Frame} {cost : Gas} (h : cost ≤ f.gas) :
    Frame.charge { f with cost := some cost } cost = some (f.paid cost) := by
  have hs : f.gas.sub? cost = some (f.gas.saturatingSub cost) :=
    Gas.sub?_eq_some.mpr (Nat.sub_add_cancel h)
  show (f.gas.sub? cost).map _ = _
  rw [hs]
  rfl

end Frame

theorem Instruction.worldAfter_paid (i : Instruction) (f : Frame) (w : World) (cost : Gas) :
    i.worldAfter (f.paid cost) w = i.worldAfter f w := by
  cases i <;> rfl

/-- Behind its checks an instruction is charged, performed and moved past. -/
theorem Operation.apply_operation {t : Tariff} {f : Frame} {w : World} {cost : Gas}
    {i : Instruction} (p : Provenance) (journal : Journal) (h : i.Passes t.fees f w cost)
    (he : f.status = .executing) :
    (i.operation t.fees p).apply (some cost) ⟨f, w, journal⟩ =
      .ok (f.performed t.fees w i cost (i.operation t.fees p).toSignature).stepResult
        ⟨f.performed t.fees w i cost (i.operation t.fees p).toSignature, i.worldAfter f w,
          i.eventsAfter t.fees (f.paid cost) w ++ journal⟩ := by
  have hcharge : Action.charge cost ⟨{ f with cost := some cost }, w, journal⟩ =
      .ok () ⟨f.paid cost, w, journal⟩ := by
    simp only [Action.charge, Frame.charge_eq h.paid, Machine.withFrame]
  have halive : f.status ≠ .halted ∨ i.endsFrame = false := .inl (by simp [he])
  show (Action.charge cost >>= fun _ => i.execute t.fees >>= fun _ =>
    Action.modifyFrame (·.advance (i.operation t.fees p).toSignature) >>= fun _ =>
    Action.frame >>= fun g => pure g.stepResult) ⟨{ f with cost := some cost }, w, journal⟩ = _
  rw [Action.bind_ok hcharge, Action.bind_ok (Instruction.execute_eq journal h halive),
    Action.modifyFrame_bind, Action.frame_bind, ← i.worldAfter_paid f w cost]
  rfl

/--
One operation of an executing frame: either a check ends the frame, or the instruction of the byte
at the program counter is charged and performed. Behind the end of the code there is only a stop.
-/
inductive Frame.Steps (fees : FeeSchedule) (f : Frame) (w : World) : Step → Frame → World → Prop
  | refused (s : Signature) (reason : HaltReason) :
    Steps fees f w (.halt reason) ((f.facing s).halt reason) w
  | performed (i : Instruction) (p : Provenance) (s : Signature) (cost : Gas)
    (signature : s = (i.operation fees p).toSignature)
    (passes : i.Passes fees (f.facing s) w cost)
    (found : f.code.opcodeAt? f.pc = some i.signature.opcode ∨ i = .stop) :
    Steps fees f w ((f.facing s).performed fees w i cost s).stepResult
      ((f.facing s).performed fees w i cost s) (i.worldAfter (f.facing s) w)

namespace Interpreter

section

variable {vm : Interpreter} {f : Frame} {w : World} {op : Operation}

def checked (op : Operation) (f : Frame) (w : World) (journal : Journal) : Machine :=
  ⟨f.facing op.toSignature, w, .checked ((f.facing op.toSignature).snapshot op.toSignature
    (op.check (f.facing op.toSignature) w).cost) :: journal⟩

theorem step_eq (journal : Journal) (he : f.status = .executing)
    (hop : vm.operationAt f.code f.pc = op) :
    vm.step ⟨f, w, journal⟩ = match (op.check (f.facing op.toSignature) w).halt with
      | some reason => .ok (.halt reason) (refuse op reason (checked op f w journal))
      | none =>
        match op.apply (op.check (f.facing op.toSignature) w).cost (checked op f w journal) with
        | .ok step m => .ok step (m.record (.stepped step))
        | .error failure m => breakOff op failure m := by
  subst hop
  unfold step
  rw [if_neg fun hn => hn he]
  rfl

theorem step_of_refused {reason : HaltReason} (journal : Journal) (he : f.status = .executing)
    (hop : vm.operationAt f.code f.pc = op)
    (h : (op.check (f.facing op.toSignature) w).halt = some reason) :
    ∃ journal', vm.step ⟨f, w, journal⟩ =
      .ok (.halt reason) ⟨(f.facing op.toSignature).halt reason, w, journal'⟩ := by
  rw [step_eq journal he hop, h]
  exact ⟨_, rfl⟩

theorem step_of_passes {t : Tariff} {i : Instruction} {p : Provenance} {cost : Gas}
    (journal : Journal) (he : f.status = .executing)
    (hop : vm.operationAt f.code f.pc = op) (hi : op = i.operation t.fees p)
    (hh : (op.check (f.facing op.toSignature) w).halt = none)
    (hc : (op.check (f.facing op.toSignature) w).cost = some cost)
    (h : i.Passes t.fees (f.facing op.toSignature) w cost) :
    ∃ journal', vm.step ⟨f, w, journal⟩ =
      .ok ((f.facing op.toSignature).performed t.fees w i cost op.toSignature).stepResult
        ⟨(f.facing op.toSignature).performed t.fees w i cost op.toSignature,
          i.worldAfter (f.facing op.toSignature) w, journal'⟩ := by
  rw [step_eq journal he hop, hh, hc, checked, hc]
  rw [hi] at h ⊢
  dsimp only
  rw [Operation.apply_operation p _ h he]
  exact ⟨_, rfl⟩

end

theorem step_ofRules (c : Rules) {f : Frame} (w : World) (journal : Journal)
    (he : f.status = .executing) :
    ∃ s f' w' journal', (ofRules c).step ⟨f, w, journal⟩ = .ok s ⟨f', w', journal'⟩ ∧
      f.Steps c.tariff.fees w s f' w' := by
  generalize hop : (ofRules c).operationAt f.code f.pc = op
  cases hh : (op.check (f.facing op.toSignature) w).halt with
  | some reason =>
    obtain ⟨journal', hs⟩ := step_of_refused journal he hop hh
    exact ⟨_, _, _, journal', hs, .refused _ reason⟩
  | none =>
    rcases operationAt_ofRules c f.code f.pc with hi | ⟨i, p, hi, hfound⟩
    · rw [hop] at hi
      rw [hi] at hh
      exact absurd hh (Operation.check_invalid _ w)
    · rw [hop] at hi
      obtain ⟨cost, hp, hc⟩ := Operation.passes_of_check (hi ▸ hh)
      obtain ⟨journal', hs⟩ := step_of_passes journal he hop hi hh (hi ▸ hc) (hi ▸ hp)
      exact ⟨_, _, _, journal', hs, .performed i p _ cost (hi ▸ rfl) (hi ▸ hp) hfound⟩

theorem executing_of_step {vm : Interpreter} {m m' : Machine} {s : Step}
    (h : vm.step m = .ok s m') : m.frame.status = .executing := by
  by_cases he : m.frame.status = .executing
  · exact he
  · simp [step, he] at h

theorem steps_of_step {c : Rules} {m m' : Machine} {s : Step} (h : (ofRules c).step m = .ok s m') :
    m.frame.status = .executing ∧ m.frame.Steps c.tariff.fees m.world s m'.frame m'.world := by
  have he := executing_of_step h
  obtain ⟨s', f', w', journal', hstep, hs⟩ := step_ofRules c m.world m.journal he
  obtain ⟨rfl, rfl⟩ := EStateM.Result.ok.inj (hstep.symm.trans h)
  exact ⟨he, hs⟩

end Interpreter

end MeteredVm
