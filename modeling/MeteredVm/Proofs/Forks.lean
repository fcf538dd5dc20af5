import MeteredVm.Proofs.Decoding
import MeteredVm.Proofs.Moves

/-!
# MeteredVm.Proofs.Forks

Rules that only add instructions.

The later sets of rules price like `Rules.istanbul` and have all its instructions. Where the bytes
of the new ones are not met, an interpreter for the later rules resolves every byte to the same
operation, so it makes the same steps, and the executor the same moves.

* `Rules.Extends`: one set of rules extends another. `Rules.istanbul_extends_berlin`,
  `Rules.berlin_extends_london`, and `Rules.Extends.trans`.
* `Executor.opcodes`: the bytes that the operations executed by a message are resolved from.
* `Executor.run_extended`: moves that meet no new byte are the same under both rules.
* `Executor.process_later_rules`: so is a whole message.
-/

namespace MeteredVm

/-- The rules `c'` are `c` with the instructions of the bytes `added`, which are new. -/
structure Rules.Extends (c c' : Rules) (added : List Opcode) : Prop where
  limits : c'.limits = c.limits
  callDepth : c'.callDepth = c.callDepth
  fees : c'.tariff.fees = c.tariff.fees
  enabled : ∀ i : Instruction,
    i.enabled c' = (i.enabled c || added.contains i.signature.opcode)

namespace Rules

variable {c c' c'' : Rules} {added added' : List Opcode}

theorem Extends.trans (h : c.Extends c' added) (h' : c'.Extends c'' added') :
    c.Extends c'' (added ++ added') where
  limits := h'.limits.trans h.limits
  callDepth := h'.callDepth.trans h.callDepth
  fees := h'.fees.trans h.fees
  enabled := fun i => by
    rw [h'.enabled, h.enabled, Bool.or_assoc, List.contains_append]

theorem extends_of_all (hlimits : c'.limits = c.limits) (hdepth : c'.callDepth = c.callDepth)
    (hfees : c'.tariff.fees = c.tariff.fees)
    (hall : ∀ i ∈ Instruction.all,
      i.enabled c' = (i.enabled c || added.contains i.signature.opcode)) :
    c.Extends c' added :=
  ⟨hlimits, hdepth, hfees, fun i => hall i i.mem_all⟩

/-- Subroutines. -/
theorem istanbul_extends_berlin : istanbul.Extends berlin [0x5c, 0x5d, 0x5e] :=
  extends_of_all rfl rfl rfl (by decide +kernel)

/-- The base fee. -/
theorem berlin_extends_london : berlin.Extends london [0x48] :=
  extends_of_all rfl rfl rfl (by decide +kernel)

theorem istanbul_extends_london : istanbul.Extends london [0x5c, 0x5d, 0x5e, 0x48] :=
  istanbul_extends_berlin.trans berlin_extends_london

end Rules

namespace Interpreter

section

variable {c : Rules} {b : Opcode} {version : Nat}

theorem endOfCode_ofRules (c : Rules) :
    (ofRules c).endOfCode = (Instruction.stop.toOperation c.tariff.fees).atEndOfCode := rfl

theorem resolve_of_enabled {i : Instruction} (h : i.enabled c = true) :
    (ofRules c).resolve i.signature.opcode 0 = i.toOperation c.tariff.fees := by
  rw [resolve, instructionSet_ofRules, InstructionSet.get?_ofRules_of_enabled h, Option.getD_some]

theorem resolve_of_missing
    (h : ∀ i : Instruction, version = 0 → i.signature.opcode = b → i.enabled c = false) :
    (ofRules c).resolve b version = .invalid := by
  rw [resolve, instructionSet_ofRules]
  cases hg : (InstructionSet.ofRules c).get? b version with
  | none => rfl
  | some op =>
    rcases InstructionSet.get?_ofRules_cases hg with rfl | ⟨hversion, i, he, hb⟩
    · rfl
    · rw [h i hversion hb] at he
      cases he

end

section

variable {c c' : Rules} {added : List Opcode}

theorem resolve_extended (h : c.Extends c' added) {b : Opcode} (hb : b ∉ added) (version : Nat) :
    (ofRules c').resolve b version = (ofRules c).resolve b version := by
  have henabled : ∀ i : Instruction, i.signature.opcode = b → i.enabled c' = i.enabled c := by
    rintro i rfl
    rw [h.enabled, List.contains_eq_mem, decide_eq_false hb, Bool.or_false]
  by_cases hknown : ∃ i : Instruction, version = 0 ∧ i.signature.opcode = b ∧ i.enabled c = true
  · obtain ⟨i, rfl, hi, he⟩ := hknown
    have he' := (henabled i hi).trans he
    subst hi
    rw [resolve_of_enabled he, resolve_of_enabled he', h.fees]
  · have hmissing : ∀ i : Instruction, version = 0 → i.signature.opcode = b →
        i.enabled c = false := fun i hversion hi =>
      Bool.eq_false_iff.mpr fun he => hknown ⟨i, hversion, hi, he⟩
    rw [resolve_of_missing hmissing, resolve_of_missing fun i hversion hi =>
      (henabled i hi).trans (hmissing i hversion hi)]

theorem operationAt_extended (h : c.Extends c' added) {code : Code} {pc : Nat}
    (hb : ∀ b, code.opcodeAt? pc = some b → b ∉ added) :
    (ofRules c').operationAt code pc = (ofRules c).operationAt code pc := by
  unfold operationAt
  cases ho : code.opcodeAt? pc with
  | none =>
    show (ofRules c').endOfCode = (ofRules c).endOfCode
    rw [endOfCode_ofRules, endOfCode_ofRules, h.fees]
  | some b => exact resolve_extended h (hb b ho) code.version

end

theorem step_of_operationAt {vm vm' : Interpreter} {m : Machine}
    (h : vm'.operationAt m.frame.code m.frame.pc = vm.operationAt m.frame.code m.frame.pc) :
    vm'.step m = vm.step m := by
  unfold step
  rw [h]

end Interpreter

/-- The byte of the operation that the next move executes; `none` if it executes none. -/
def CallTree.nextOpcode? (t : CallTree) : Option Opcode :=
  match t.frames with
  | [] => none
  | f :: _ => if f.status = .executing then f.code.opcodeAt? f.pc else none

namespace Executor

open CallTree

/-- The bytes that the operations executed by the first moves are resolved from. -/
def opcodes (x : Executor) : Nat → CallTree → List Opcode
  | 0, _ => []
  | n + 1, t =>
    t.nextOpcode?.toList ++
      match x.advance t with
      | .running t => opcodes x n t
      | _ => []

section

variable {c c' : Rules} {added : List Opcode} {t : CallTree}

theorem advance_extended (h : c.Extends c' added) (hb : ∀ b, t.nextOpcode? = some b → b ∉ added) :
    advance ⟨.ofRules c', c'⟩ t = advance ⟨.ofRules c, c⟩ t := by
  unfold advance
  unfold nextOpcode? at hb
  cases hf : t.frames with
  | nil => rfl
  | cons f rest =>
    rw [hf] at hb
    dsimp only at hb ⊢
    cases hs : f.status with
    | executing =>
      rw [if_pos hs] at hb
      have hop := Interpreter.operationAt_extended h hb
      have hstep : (Interpreter.ofRules c').step ⟨f, t.world, t.journal⟩ =
          (Interpreter.ofRules c).step ⟨f, t.world, t.journal⟩ :=
        Interpreter.step_of_operationAt hop
      simp only [stepFrame, hstep]
    | suspended => simp only [startChild, h.limits, h.callDepth]
    | _ => rfl

theorem run_extended (h : c.Extends c' added) (n : Nat) : ∀ {t : CallTree},
    (∀ b ∈ opcodes ⟨.ofRules c, c⟩ n t, b ∉ added) →
      run ⟨.ofRules c', c'⟩ n t = run ⟨.ofRules c, c⟩ n t := by
  induction n with
  | zero => exact fun _ => rfl
  | succ n ih =>
    intro t hb
    rw [opcodes] at hb
    have hmove : advance ⟨.ofRules c', c'⟩ t = advance ⟨.ofRules c, c⟩ t :=
      advance_extended h fun b ho => hb b (List.mem_append_left _ (Option.mem_toList.mpr ho))
    rw [run, run, hmove]
    cases ha : advance ⟨.ofRules c, c⟩ t with
    | running t' =>
      rw [ha] at hb
      exact ih fun b ho => hb b (List.mem_append_right _ ho)
    | _ => rfl

theorem process_extended (h : c.Extends c' added) (frame : Frame) (world : World)
    (codes : CodeCache) (journal : Journal)
    (hb : ∀ b ∈ opcodes ⟨.ofRules c, c⟩ moveBound (begin frame world codes journal), b ∉ added) :
    process ⟨.ofRules c', c'⟩ frame world codes journal =
      process ⟨.ofRules c, c⟩ frame world codes journal := by
  rw [process, process, run_extended h moveBound hb]

end

/--
A message that meets none of the later bytes under the earliest of the rules that price alike ends
under all three, with the same outcome, world and journal.
-/
theorem process_later_rules (message : Message) (limits : Limits) (world : World)
    (codes : CodeCache) (journal : Journal)
    (hb : ∀ b ∈ opcodes ⟨.ofRules .istanbul, .istanbul⟩ moveBound
      (begin (Frame.start message limits) world codes journal),
        b ∉ [(0x48 : Opcode), 0x5c, 0x5d, 0x5e]) :
    ∃ outcome t,
      process ⟨.ofRules .istanbul, .istanbul⟩ (Frame.start message limits) world codes journal =
        .finished outcome t ∧
      process ⟨.ofRules .berlin, .berlin⟩ (Frame.start message limits) world codes journal =
        .finished outcome t ∧
      process ⟨.ofRules .london, .london⟩ (Frame.start message limits) world codes journal =
        .finished outcome t := by
  obtain ⟨outcome, t, hp, -⟩ :=
    process_finished message limits world codes journal .istanbul .istanbul
  have hlater : ∀ {c added}, Rules.istanbul.Extends c added →
      (∀ b ∈ added, b ∈ [(0x48 : Opcode), 0x5c, 0x5d, 0x5e]) →
        process ⟨.ofRules c, c⟩ (Frame.start message limits) world codes journal =
          .finished outcome t := by
    intro c added h hsub
    rw [process_extended h _ _ _ _ fun b ho hmem => hb b ho (hsub b hmem), hp]
  exact ⟨outcome, t, hp, hlater Rules.istanbul_extends_berlin (by simp),
    hlater Rules.istanbul_extends_london (by simp)⟩

/-- Calls account 7 and adds its own balance to what the call gave. -/
def adding : Message where
  code := Code.ofBytes
    #[0x60, 0, 0x60, 0, 0x60, 0, 0x60, 0, 0x60, 0, 0x60, 7, 0x61, 0x75, 0x30, 0xf1, 0x47, 0x01] 0
  initialGas := 100000
  address := 1

/-- The code of account 7 stores a byte that the later rules know, and halts on an invalid one. -/
def storing : World :=
  { base := ({} : Ledger).insert 7 { code := #[0x60, 0x5c, 0x60, 0, 0x55, 0xfe] } }

set_option maxRecDepth 8000 in
theorem opcodes_adding :
    opcodes ⟨.ofRules .istanbul, .istanbul⟩ moveBound
        (begin (Frame.start adding {}) storing {} []) =
      [0x60, 0x60, 0x60, 0x60, 0x60, 0x60, 0x61, 0xf1, 0x60, 0x60, 0x55, 0xfe, 0x47, 0x01] := by
  decide +kernel

/-- The byte 0x5c is stored but not met. -/
theorem process_later_rules_storing :
    (∀ b ∈ opcodes ⟨.ofRules .istanbul, .istanbul⟩ moveBound
        (begin (Frame.start adding {}) storing {} []),
      b ∉ [(0x48 : Opcode), 0x5c, 0x5d, 0x5e]) ∧
    ∃ outcome t,
      process ⟨.ofRules .istanbul, .istanbul⟩ (Frame.start adding {}) storing {} [] =
        .finished outcome t ∧
      process ⟨.ofRules .berlin, .berlin⟩ (Frame.start adding {}) storing {} [] =
        .finished outcome t ∧
      process ⟨.ofRules .london, .london⟩ (Frame.start adding {}) storing {} [] =
        .finished outcome t := by
  have hb : ∀ b ∈ opcodes ⟨.ofRules .istanbul, .istanbul⟩ moveBound
      (begin (Frame.start adding {}) storing {} []), b ∉ [(0x48 : Opcode), 0x5c, 0x5d, 0x5e] := by
    rw [opcodes_adding]
    simp
  exact ⟨hb, process_later_rules adding {} storing {} [] hb⟩

end Executor

end MeteredVm
