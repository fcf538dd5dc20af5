import MeteredVm.Proofs.Steps

/-!
# MeteredVm.Proofs.Decoding

Which instruction a frame is about to execute.

An interpreter for a set of rules finds its operations in a table. No two instructions share an
opcode, so the table can be read backwards: a byte stands for the one instruction with that opcode,
if the rules have it, and for the invalid operation otherwise.

* `Instruction.ofOpcode?_opcode`: the instruction is told by its opcode.
* `Rules.instructionAt?`: the instruction at an offset. `Interpreter.operationAt_of_some` and
  `Interpreter.operationAt_of_none`: it is the one that the interpreter meets.
* `Rules.admitted?`: the instruction that a frame executes next, if its checks let it.
  `Interpreter.step_performs` and `Interpreter.step_unadmitted`: the step in either case, and
  `Interpreter.frame_of_step`: the frame after it.
-/

namespace MeteredVm

namespace Instruction

def ofOpcode? (b : Opcode) : Option Instruction := all.find? (·.signature.opcode == b)

theorem ofOpcode?_opcode (i : Instruction) : ofOpcode? i.signature.opcode = some i := by
  cases i with
  | push n | dup n | swap n | log n =>
    revert n
    decide +kernel
  | unary op | binary op | ternary op => cases op <;> decide +kernel
  | read what | lookup what => cases what <;> decide +kernel
  | copy source => cases source <;> decide +kernel
  | call kind => cases kind <;> decide +kernel
  | _ => decide +kernel

theorem eq_of_opcode_eq {i j : Instruction} (h : i.signature.opcode = j.signature.opcode) :
    i = j := by
  have hi := i.ofOpcode?_opcode
  rw [h, j.ofOpcode?_opcode] at hi
  exact (Option.some.inj hi).symm

theorem mem_all (i : Instruction) : i ∈ all := List.mem_of_find?_eq_some i.ofOpcode?_opcode

theorem opcode_of_ofOpcode? {b : Opcode} {i : Instruction} (h : ofOpcode? b = some i) :
    i.signature.opcode = b := by
  have hb := List.find?_some h
  exact eq_of_beq hb

theorem ofOpcode?_invalid : ofOpcode? Operation.invalid.opcode = none := by decide +kernel

end Instruction

namespace InstructionSet

theorem get?_foldl_put_of_mem {version : Nat} {op : Operation} (ops : List Operation) :
    ∀ r : InstructionSet, (op ∈ ops ∨ r.get? op.opcode version = some op) →
      (∀ o ∈ ops, o.opcode = op.opcode → o = op) →
      (ops.foldl (·.put version ·) r).get? op.opcode version = some op := by
  induction ops with
  | nil =>
    intro r hop _
    exact hop.resolve_left List.not_mem_nil
  | cons o ops ih =>
    intro r hop hall
    refine ih _ ?_ fun o ho => hall o (List.mem_cons_of_mem _ ho)
    rw [get?_put]
    by_cases ho : op.opcode = o.opcode
    · rw [if_pos ⟨rfl, ho⟩, hall o List.mem_cons_self ho.symm]
      exact .inr rfl
    · rw [if_neg fun h => ho h.2]
      rcases hop with hop | hop
      · rcases List.mem_cons.mp hop with rfl | hop
        · exact absurd rfl ho
        · exact .inl hop
      · exact .inr hop

theorem mem_operations_of_enabled {c : Rules} {i : Instruction} (h : i.enabled c = true) :
    i.toOperation c.tariff.fees ∈ operations c :=
  List.mem_append_left _ (List.mem_map.mpr ⟨i, List.mem_filter.mpr ⟨i.mem_all, h⟩, rfl⟩)

theorem enabled_of_mem_operations {c : Rules} {op : Operation} (h : op ∈ operations c) :
    op = .invalid ∨
      ∃ i : Instruction, i.enabled c = true ∧ op = i.toOperation c.tariff.fees := by
  rcases List.mem_append.mp h with h | h
  · obtain ⟨i, hi, rfl⟩ := List.mem_map.mp h
    exact .inr ⟨i, (List.mem_filter.mp hi).2, rfl⟩
  · exact .inl (List.mem_singleton.mp h)

theorem opcode_ne_invalid (i : Instruction) : i.signature.opcode ≠ Operation.invalid.opcode := by
  intro h
  have hi := i.ofOpcode?_opcode
  rw [h, Instruction.ofOpcode?_invalid] at hi
  cases hi

theorem get?_ofRules_of_enabled {c : Rules} {i : Instruction} (h : i.enabled c = true) :
    (ofRules c).get? i.signature.opcode 0 = some (i.toOperation c.tariff.fees) := by
  have hunique : ∀ o ∈ operations c, o.opcode = (i.toOperation c.tariff.fees).opcode →
      o = i.toOperation c.tariff.fees := by
    intro o ho hb
    rcases enabled_of_mem_operations ho with rfl | ⟨j, -, rfl⟩
    · exact absurd hb.symm (opcode_ne_invalid i)
    · rw [Instruction.eq_of_opcode_eq (i := j) (j := i) hb]
  have hmem := mem_operations_of_enabled h
  unfold ofRules register
  generalize operations c = ops at hunique hmem ⊢
  exact get?_foldl_put_of_mem ops empty (.inl hmem) hunique

theorem get?_foldl_put_of_ne {version v : Nat} {b : Opcode} (h : v ≠ version)
    (ops : List Operation) :
    ∀ r : InstructionSet, (ops.foldl (·.put version ·) r).get? b v = r.get? b v := by
  induction ops with
  | nil => exact fun _ => rfl
  | cons o ops ih =>
    intro r
    rw [List.foldl_cons, ih, get?_put, if_neg fun hv => h hv.1]

theorem get?_ofRules_cases {c : Rules} {b : Opcode} {version : Nat} {op : Operation}
    (h : (ofRules c).get? b version = some op) : op = .invalid ∨
      version = 0 ∧ ∃ i : Instruction, i.enabled c = true ∧ i.signature.opcode = b := by
  by_cases hversion : version = 0
  · have hopcode := opcode_of_get?_ofRules h
    rcases enabled_of_mem_operations (mem_of_get?_ofRules h) with hi | ⟨i, he, rfl⟩
    · exact .inl hi
    · exact .inr ⟨hversion, i, he, hopcode⟩
  · cases (get?_foldl_put_of_ne hversion (operations c) empty).symm.trans h

end InstructionSet

/-- The instruction that code under a set of rules has at an offset; behind its end, a stop. -/
def Rules.instructionAt? (c : Rules) (code : Code) (pc : Nat) : Option Instruction :=
  match code.opcodeAt? pc with
  | none => some .stop
  | some b =>
    if code.version = 0 then (Instruction.ofOpcode? b).filter (·.enabled c) else none

theorem Rules.lt_size_of_instructionAt? {c : Rules} {code : Code} {pc : Nat} {i : Instruction}
    (h : c.instructionAt? code pc = some i) : pc < code.size ∨ i = .stop := by
  unfold instructionAt? at h
  cases hb : code.opcodeAt? pc with
  | none =>
    rw [hb] at h
    exact .inr (Option.some.inj h).symm
  | some b => exact .inl (Array.getElem?_eq_some_iff.mp hb).1

namespace Interpreter

variable {c : Rules} {code : Code} {pc : Nat}

theorem operationAt_of_some {i : Instruction} (h : c.instructionAt? code pc = some i) :
    ∃ p, (ofRules c).operationAt code pc = i.operation c.tariff.fees p := by
  unfold Rules.instructionAt? at h
  unfold operationAt
  cases hb : code.opcodeAt? pc with
  | none =>
    rw [hb] at h
    cases h
    exact ⟨.endOfCode, rfl⟩
  | some b =>
    rw [hb] at h
    dsimp only at h ⊢
    split at h
    · rename_i hversion
      obtain ⟨hi, he⟩ := Option.filter_eq_some_iff.mp h
      obtain rfl := Instruction.opcode_of_ofOpcode? hi
      refine ⟨.table, ?_⟩
      rw [resolve, instructionSet_ofRules, hversion, InstructionSet.get?_ofRules_of_enabled he,
        Option.getD_some, i.operation_table]
    · cases h

theorem operationAt_of_enabled {i : Instruction} (hv : code.version = 0)
    (byte : code.opcodeAt? pc = some i.signature.opcode) (he : i.enabled c = true) :
    (ofRules c).operationAt code pc = i.toOperation c.tariff.fees := by
  unfold operationAt
  rw [byte]
  dsimp only
  rw [resolve, instructionSet_ofRules, hv, InstructionSet.get?_ofRules_of_enabled he,
    Option.getD_some]

theorem operationAt_of_none (h : c.instructionAt? code pc = none) :
    (ofRules c).operationAt code pc = .invalid := by
  unfold Rules.instructionAt? at h
  unfold operationAt
  cases hb : code.opcodeAt? pc with
  | none =>
    rw [hb] at h
    cases h
  | some b =>
    rw [hb] at h
    dsimp only at h ⊢
    rw [resolve, instructionSet_ofRules]
    cases hg : (InstructionSet.ofRules c).get? b code.version with
    | none => rfl
    | some op =>
      rcases InstructionSet.get?_ofRules_cases hg with rfl | ⟨hversion, i, he, rfl⟩
      · rfl
      · rw [if_pos hversion, i.ofOpcode?_opcode, Option.filter_some, if_pos he] at h
        cases h

end Interpreter

namespace Instruction

variable {fees : FeeSchedule} {p : Provenance} {f : Frame} {w : World} {i : Instruction}

theorem check_facing (s : Signature) :
    (i.operation fees p).check (f.facing s) w = (i.operation fees p).check f w := by
  cases i <;> rfl

theorem check_operation :
    (i.operation fees p).check f w = (i.toOperation fees).check f w := by
  cases i <;> rfl

end Instruction

theorem Interpreter.check_facing (c : Rules) (code : Code) (pc : Nat) (s : Signature) (f : Frame)
    (w : World) : ((ofRules c).operationAt code pc).check (f.facing s) w =
      ((ofRules c).operationAt code pc).check f w := by
  rcases operationAt_ofRules c code pc with h | ⟨i, p, h, -⟩
  · rw [h]
    rfl
  · rw [h, Instruction.check_facing]

/--
The instruction that an executing frame executes next: the one at its program counter, if the
checks let it pass.
-/
def Rules.admitted? (c : Rules) (f : Frame) (w : World) : Option Instruction :=
  if f.status = .executing then
    (c.instructionAt? f.code f.pc).filter fun i =>
      ((i.toOperation c.tariff.fees).check f w).halt.isNone
  else none

theorem Rules.instructionAt?_of_admitted? {c : Rules} {f : Frame} {w : World} {i : Instruction}
    (h : c.admitted? f w = some i) : c.instructionAt? f.code f.pc = some i := by
  unfold admitted? at h
  split at h
  · exact (Option.filter_eq_some_iff.mp h).1
  · cases h

namespace Interpreter

variable {c : Rules} {f : Frame} {w : World}

theorem step_performs {i : Instruction} (journal : Journal) (h : c.admitted? f w = some i) :
    ∃ p s cost journal', s = (i.operation c.tariff.fees p).toSignature ∧ f.status = .executing ∧
      i.Passes c.tariff.fees (f.facing s) w cost ∧
      (ofRules c).step ⟨f, w, journal⟩ =
        .ok ((f.facing s).performed c.tariff.fees w i cost s).stepResult
          ⟨(f.facing s).performed c.tariff.fees w i cost s, i.worldAfter (f.facing s) w,
            journal'⟩ := by
  unfold Rules.admitted? at h
  split at h
  · rename_i he
    obtain ⟨hi, hhalt⟩ := Option.filter_eq_some_iff.mp h
    obtain ⟨p, hop⟩ := operationAt_of_some hi
    have hcheck := Option.isNone_iff_eq_none.mp hhalt
    rw [← Instruction.check_operation (p := p),
      ← Instruction.check_facing (i.operation c.tariff.fees p).toSignature] at hcheck
    obtain ⟨cost, hpasses, hcost⟩ := Operation.passes_of_check hcheck
    obtain ⟨journal', hstep⟩ := step_of_passes journal he hop rfl hcheck hcost hpasses
    exact ⟨p, _, cost, journal', rfl, he, hpasses, hstep⟩
  · cases h

theorem step_admitted {i : Instruction} (journal : Journal) (h : c.admitted? f w = some i) :
    ∃ s cost journal', f.status = .executing ∧
      i.Passes c.tariff.fees (f.facing s) w cost ∧
      (ofRules c).step ⟨f, w, journal⟩ =
        .ok ((f.facing s).performed c.tariff.fees w i cost s).stepResult
          ⟨(f.facing s).performed c.tariff.fees w i cost s, i.worldAfter (f.facing s) w,
            journal'⟩ := by
  obtain ⟨-, s, cost, journal', -, hperformed⟩ := step_performs journal h
  exact ⟨s, cost, journal', hperformed⟩

theorem step_unadmitted (journal : Journal) (he : f.status = .executing)
    (h : c.admitted? f w = none) :
    ∃ s reason journal', (ofRules c).step ⟨f, w, journal⟩ =
      .ok (.halt reason) ⟨(f.facing s).halt reason, w, journal'⟩ := by
  unfold Rules.admitted? at h
  rw [if_pos he] at h
  obtain ⟨op, hop⟩ : ∃ op, (ofRules c).operationAt f.code f.pc = op := ⟨_, rfl⟩
  obtain ⟨reason, hreason⟩ :
      ∃ reason, (op.check (f.facing op.toSignature) w).halt = some reason := by
    refine Option.ne_none_iff_exists'.mp fun hnone => ?_
    cases hi : c.instructionAt? f.code f.pc with
    | none =>
      rw [← hop, operationAt_of_none hi] at hnone
      exact Operation.check_invalid _ w hnone
    | some i =>
      obtain ⟨p, hi'⟩ := operationAt_of_some hi
      rw [← hop, hi', Instruction.check_facing, Instruction.check_operation] at hnone
      rw [hi, Option.filter_some, hnone] at h
      cases h
  obtain ⟨journal', hstep⟩ := step_of_refused journal he hop hreason
  exact ⟨_, reason, journal', hstep⟩

/-- The frame after a step that was made: the admitted instruction was performed, or it halted. -/
theorem frame_of_step {journal : Journal} {s : Step} {m : Machine}
    (h : (ofRules c).step ⟨f, w, journal⟩ = .ok s m) :
    (∃ i sig cost, c.admitted? f w = some i ∧
        m.frame = (f.facing sig).performed c.tariff.fees w i cost sig) ∨
      (c.admitted? f w = none ∧ ∃ sig reason, m.frame = (f.facing sig).halt reason) := by
  cases ha : c.admitted? f w with
  | some i =>
    obtain ⟨sig, cost, journal', -, -, hstep⟩ := step_admitted journal ha
    cases h.symm.trans hstep
    exact .inl ⟨i, sig, cost, rfl, rfl⟩
  | none =>
    obtain ⟨sig, reason, journal', hstep⟩ := step_unadmitted journal (executing_of_step h) ha
    cases h.symm.trans hstep
    exact .inr ⟨rfl, sig, reason, rfl⟩

end Interpreter

end MeteredVm
