import MeteredVm.Proofs.Boundaries
import MeteredVm.Proofs.Decoding

/-!
# MeteredVm.Proofs.Walking

Two scans of the same code, which find the same instructions.

The jump destinations of a code are computed from its bytes alone: after a push its immediate data
is skipped. The walk of an interpreter goes by the sizes of the operations in its table. Both stop
at the boundaries of the code and nowhere else, whatever the rules, because every set of rules has
all pushes and nothing else that is longer than a byte.

* `Interpreter.size_operationAt`: how far the walk goes in one step.
* `Interpreter.walkFrom_add`: no walk is cut short. `Interpreter.mem_walkFrom`: what it visits, and
  `Interpreter.pairwise_walkFrom`: in which order.
* `Interpreter.walk_agrees_with_marks`: the two scans together.
-/

namespace MeteredVm

namespace Interpreter

section

variable {c : Rules} {code : Code} {pc p : Nat} {b : Opcode} {op : Operation}

theorem exists_push_of_immediateLength (h : Opcode.immediateLength b ≠ 0) :
    ∃ n : Fin 32, (Instruction.push n).signature.opcode = b := by
  unfold Opcode.immediateLength Opcode.pushLength? at h
  split at h
  · rename_i hpush
    have hlow : 0x60 ≤ b.toNat := UInt8.le_iff_toNat_le.mp hpush.1
    have hhigh : b.toNat ≤ 0x7f := UInt8.le_iff_toNat_le.mp hpush.2
    refine ⟨⟨b.toNat - 0x60, by omega⟩, ?_⟩
    show UInt8.ofNat (0x60 + (b.toNat - 0x60)) = b
    rw [Nat.add_sub_cancel' hlow, UInt8.ofNat_toNat]
  · exact absurd rfl h

/-- The walk goes from a byte behind its immediate data, whatever the rules make of the byte. -/
theorem size_operationAt (hv : code.version = 0) (byte : code.opcodeAt? pc = some b) :
    ((ofRules c).operationAt code pc).size = 1 + Opcode.immediateLength b := by
  cases hi : c.instructionAt? code pc with
  | some i =>
    obtain ⟨p, hop⟩ := operationAt_of_some hi
    rw [Rules.instructionAt?, byte] at hi
    dsimp only at hi
    rw [if_pos hv] at hi
    obtain rfl := Instruction.opcode_of_ofOpcode? (Option.filter_eq_some_iff.mp hi).1
    rw [hop]
    exact i.size_eq
  | none =>
    rw [operationAt_of_none hi]
    have hshort : Opcode.immediateLength b = 0 := by
      refine Decidable.byContradiction fun hlong => ?_
      -- a push is part of every set of rules
      obtain ⟨n, rfl⟩ := exists_push_of_immediateLength hlong
      rw [Rules.instructionAt?, byte] at hi
      dsimp only at hi
      rw [if_pos hv, Instruction.ofOpcode?_opcode, Option.filter_some] at hi
      cases hi
    rw [hshort]
    rfl

theorem one_le_size_operationAt (c : Rules) (code : Code) (pc : Nat) :
    1 ≤ ((ofRules c).operationAt code pc).size := by
  rcases operationAt_ofRules c code pc with hop | ⟨i, p, hop, -⟩
  · rw [hop]
    exact Nat.le_refl 1
  · rw [hop]
    exact i.size_eq ▸ Nat.le_add_right ..

theorem walkFrom_succ (vm : Interpreter) (code : Code) (n pc : Nat) :
    vm.walkFrom code (n + 1) pc =
      if pc < code.size then
        (pc, vm.operationAt code pc) ::
          vm.walkFrom code n (pc + (vm.operationAt code pc).size)
      else [] := rfl

/-- A walk that may take as many steps as there are bytes left comes to the end of the code. -/
theorem walkFrom_add (c : Rules) (code : Code) (more : Nat) (n : Nat) : ∀ pc : Nat,
    code.size ≤ pc + n →
      (ofRules c).walkFrom code (n + more) pc = (ofRules c).walkFrom code n pc := by
  induction n with
  | zero =>
    intro pc hle
    rw [Nat.zero_add]
    cases more with
    | zero => rfl
    | succ more =>
      have hend : ¬ pc < code.size := Nat.not_lt.mpr hle
      rw [walkFrom_succ, if_neg hend, walkFrom]
  | succ n ih =>
    intro pc hle
    have hsize := one_le_size_operationAt c code pc
    rw [Nat.succ_add, walkFrom_succ, walkFrom_succ, ih _ (by omega)]

theorem mem_walkFrom (hv : code.version = 0) (n : Nat) : ∀ {pc : Nat}, code.Boundary pc →
    code.size ≤ pc + n → ((p, op) ∈ (ofRules c).walkFrom code n pc ↔
      (pc ≤ p ∧ p < code.size ∧ code.Boundary p) ∧ op = (ofRules c).operationAt code p) := by
  induction n with
  | zero =>
    intro pc _ hle
    rw [walkFrom]
    refine iff_of_false List.not_mem_nil ?_
    rintro ⟨⟨hp, hlt, -⟩, -⟩
    omega
  | succ n ih =>
    intro pc hpc hle
    rw [walkFrom_succ]
    by_cases hlt : pc < code.size
    · obtain ⟨b, byte⟩ : ∃ b, code.opcodeAt? pc = some b :=
        ⟨_, Array.getElem?_eq_getElem hlt⟩
      have hsize := size_operationAt (c := c) hv byte
      have hnext : code.Boundary (pc + ((ofRules c).operationAt code pc).size) := by
        rw [hsize, ← Nat.add_assoc]
        exact .next hpc byte
      rw [if_pos hlt, List.mem_cons, Prod.mk.injEq, ih hnext (by omega), hsize, ← Nat.add_assoc]
      constructor
      · rintro (⟨rfl, rfl⟩ | ⟨⟨hp, hin⟩, hop⟩)
        · exact ⟨⟨Nat.le_refl _, hlt, hpc⟩, rfl⟩
        · exact ⟨⟨by omega, hin⟩, hop⟩
      · rintro ⟨⟨hp, hin⟩, hop⟩
        rcases Nat.eq_or_lt_of_le hp with rfl | hp
        · exact .inl ⟨rfl, hop⟩
        · exact .inr ⟨⟨hin.2.next_le hpc byte hp, hin⟩, hop⟩
    · rw [if_neg hlt]
      refine iff_of_false List.not_mem_nil ?_
      rintro ⟨⟨hp, hin, -⟩, -⟩
      omega

theorem le_of_mem_walkFrom (vm : Interpreter) (code : Code) (n : Nat) : ∀ pc : Nat,
    ∀ v ∈ vm.walkFrom code n pc, pc ≤ v.1 := by
  induction n with
  | zero =>
    intro pc v hv
    cases hv
  | succ n ih =>
    intro pc v hv
    rw [walkFrom_succ] at hv
    split at hv
    · rcases List.mem_cons.mp hv with rfl | hv
      · exact Nat.le_refl _
      · exact Nat.le_trans (Nat.le_add_right ..) (ih _ v hv)
    · cases hv

theorem pairwise_walkFrom (c : Rules) (code : Code) (n : Nat) : ∀ pc : Nat,
    ((ofRules c).walkFrom code n pc).Pairwise fun v v' => v.1 < v'.1 := by
  induction n with
  | zero => exact fun _ => .nil
  | succ n ih =>
    intro pc
    rw [walkFrom_succ]
    split
    · refine .cons (fun v hv => ?_) (ih _)
      have hsize := one_le_size_operationAt c code pc
      exact Nat.lt_of_lt_of_le (Nat.lt_add_of_pos_right hsize) (le_of_mem_walkFrom _ code n _ v hv)
    · exact .nil

theorem operationAt_eq_jumpDest_iff (hv : code.version = 0) :
    (ofRules c).operationAt code pc = Instruction.jumpDest.toOperation c.tariff.fees ↔
      code.opcodeAt? pc = some Opcode.jumpDest := by
  refine ⟨fun hop => ?_, fun byte => operationAt_of_enabled hv byte rfl⟩
  have hopcode : ((ofRules c).operationAt code pc).opcode = Opcode.jumpDest :=
    congrArg (fun op => op.opcode) hop
  rcases operationAt_ofRules c code pc with hi | ⟨i, p, hi, hb | rfl⟩
  · rw [hi] at hopcode
    cases hopcode
  · rw [hi] at hopcode
    exact hb.trans (congrArg some hopcode)
  · rw [hi] at hopcode
    cases hopcode

end

/--
Of any byte string: a destination of jumps is a boundary with the mark for jumps, and a destination
of subroutine calls is one with the mark for these. Under version 0 every set of rules walks over
the same string without being cut short; in ascending order the walk visits the boundaries in the
string, each with the operation that is found there, and so the destinations of jumps are where it
visits the operation for landing marks.
-/
theorem walk_agrees_with_marks (c : Rules) (bytes : Bytes) :
    (∀ version p, (Code.ofBytes bytes version).isJumpDest p = true ↔
      p < bytes.size ∧ bytes[p]? = some 0x5b ∧ (Code.ofBytes bytes version).Boundary p) ∧
    (∀ version p, (Code.ofBytes bytes version).isBeginSub p = true ↔
      p < bytes.size ∧ bytes[p]? = some 0x5c ∧ (Code.ofBytes bytes version).Boundary p) ∧
    let code := Code.ofBytes bytes 0
    let visited := (ofRules c).walk code
    (∀ more, (ofRules c).walkFrom code (bytes.size + more) 0 = visited) ∧
      visited.Pairwise (fun v v' => v.1 < v'.1) ∧
      (∀ p op, (p, op) ∈ visited ↔
        (p < bytes.size ∧ code.Boundary p) ∧ op = (ofRules c).operationAt code p) ∧
      ∀ p, code.isJumpDest p = true ↔
        (p, Instruction.jumpDest.toOperation c.tariff.fees) ∈ visited := by
  refine ⟨fun _ _ => Code.isJumpDest_iff, fun _ _ => Code.isBeginSub_iff, ?_⟩
  intro code visited
  have hend : code.size ≤ 0 + code.size := Nat.le_add_left ..
  have hvisited : ∀ p op, (p, op) ∈ visited ↔
      (p < code.size ∧ code.Boundary p) ∧ op = (ofRules c).operationAt code p := by
    intro p op
    rw [show (p, op) ∈ visited ↔ _ from mem_walkFrom rfl code.size .zero hend]
    exact and_congr_left' (and_iff_right (Nat.zero_le p))
  refine ⟨fun more => walkFrom_add c code more code.size 0 hend, pairwise_walkFrom c code _ 0,
    hvisited, fun p => ?_⟩
  rw [hvisited, Code.isJumpDest_iff, ← operationAt_eq_jumpDest_iff (c := c) rfl, and_assoc]
  exact and_congr_right' (and_comm.trans (and_congr_right' eq_comm))

/-- The marks in the data of a push are no landing marks; the one behind them is. -/
example : ((ofRules .frontier).walk (Code.ofBytes #[0x61, 0x5b, 0x5b, 0x5b, 0x01] 0)).map
    (fun v => (v.1, v.2.name)) = [(0, "PUSH2"), (3, "JUMPDEST"), (4, "ADD")] := by
  decide +kernel

end Interpreter

end MeteredVm
