import Mathlib.Algebra.Ring.Int.Defs
import MeteredVm.Proofs.Decoding
import MeteredVm.Proofs.SpareGas

/-!
# MeteredVm.Proofs.StackRoom

Room on the stack, as the checks see it and as the stack itself sees it.

The stack decides item by item: it refuses a pop when it is empty and a push when it is full. The
checks decide before anything is taken off, by two counts of a table, and compare signed numbers.
For a limit below `2 ^ 63` both come to the same. A greater limit reads as negative, and then the
checks refuse every operation whose operands are there, however much room the stack has.

* `Stack.exchange`: taking operands off and putting results on, item by item.
  `Stack.exchange_eq`: how that ends.
* `Instruction.haltCondition_ne`: what forbids an instruction by itself is never the stack height,
  so `Operation.halt_check_iff`: the height is refused by the check of the stack alone.
* `Operation.room_below_sign_bit`: for which limits the check agrees with the stack.
-/

namespace MeteredVm

namespace Stack

def popTimes (s : Stack) : Nat → Except HaltReason Stack
  | 0 => .ok s
  | n + 1 => do
    let (_, s) ← s.pop
    s.popTimes n

def pushAll (s : Stack) : List Word → Except HaltReason Stack
  | [] => .ok s
  | w :: ws => do
    let s ← s.push w
    s.pushAll ws

/-- Takes `consumed` items off and puts the results on, the last of them on top. -/
def exchange (s : Stack) (consumed : Nat) (results : List Word) : Except HaltReason Stack := do
  let s ← s.popTimes consumed
  s.pushAll results

theorem popTimes_eq (n : Nat) : ∀ s : Stack, s.popTimes n =
    if s.height < n then .error .stackUnderflow else .ok { s with items := s.items.drop n } := by
  induction n with
  | zero => exact fun s => (if_neg (Nat.not_lt_zero _)).symm
  | succ n ih =>
    intro s
    obtain ⟨items, limit⟩ := s
    cases items with
    | nil => exact (if_pos (Nat.zero_lt_succ n)).symm
    | cons w rest =>
      refine (ih ⟨rest, limit⟩).trans ?_
      exact if_congr Nat.succ_lt_succ_iff.symm rfl rfl

theorem pushAll_eq (results : List Word) : ∀ s : Stack, s.height ≤ s.limit.toNat →
    s.pushAll results =
      if s.limit.toNat < s.height + results.length then .error .stackOverflow
      else .ok { s with items := results.reverse ++ s.items } := by
  induction results with
  | nil => exact fun s hs => (if_neg (Nat.not_lt.mpr hs)).symm
  | cons w results ih =>
    intro s hs
    by_cases hfull : s.limit.toNat < s.height + 1
    · have hpush : s.push w = .error .stackOverflow := if_pos hfull
      rw [if_pos (by rw [List.length_cons]; omega)]
      simp only [pushAll, hpush]
      rfl
    · have hrest := ih { s with items := w :: s.items } (Nat.not_lt.mp hfull)
      simp only [pushAll, push_eq w (by omega : s.height < s.limit.toNat)]
      refine hrest.trans ?_
      simp [height, Nat.add_assoc, Nat.add_comm 1]

theorem exchange_eq {s : Stack} (hs : s.height ≤ s.limit.toNat) (consumed : Nat)
    (results : List Word) :
    s.exchange consumed results =
      if s.height < consumed then .error .stackUnderflow
      else if s.limit.toNat < s.height - consumed + results.length then .error .stackOverflow
      else .ok { s with items := results.reverse ++ s.items.drop consumed } := by
  simp only [exchange, popTimes_eq]
  by_cases hunder : s.height < consumed
  · rw [if_pos hunder, if_pos hunder]
    rfl
  · have hheight : ({ s with items := s.items.drop consumed } : Stack).height =
        s.height - consumed := List.length_drop
    rw [if_neg hunder, if_neg hunder, ← hheight]
    have hfits : s.height - consumed ≤ s.limit.toNat := by omega
    exact pushAll_eq results { s with items := s.items.drop consumed } (hheight ▸ hfits)

theorem exists_exchange_iff {s : Stack} (hs : s.height ≤ s.limit.toNat) (consumed : Nat)
    (results : List Word) :
    (∃ s', s.exchange consumed results = .ok s') ↔
      consumed ≤ s.height ∧ s.height - consumed + results.length ≤ s.limit.toNat := by
  rw [exchange_eq hs]
  constructor
  · rintro ⟨s', h⟩
    split at h
    · cases h
    · split at h
      · cases h
      · omega
  · rintro ⟨hoperands, hroom⟩
    rw [if_neg (by omega), if_neg (by omega)]
    exact ⟨_, rfl⟩

end Stack

section

variable {fees : FeeSchedule} {f : Frame} {reason : HaltReason}

/-- No instruction looks for room on the stack by itself. -/
theorem Instruction.haltCondition_ne (i : Instruction)
    (h : reason = .stackOverflow ∨ reason = .stackUnderflow) :
    i.haltCondition fees f ≠ some reason := by
  have hmemory : ∀ touched, memoryHalt f touched ≠ some reason := by
    grind [memoryHalt]
  have hwrite : ∀ writes touched, writeHalt f writes touched ≠ some reason := by
    grind [writeHalt]
  have hjump : ∀ destination, jumpHalt f destination ≠ some reason := by
    grind [jumpHalt]
  cases i with
  | copy source =>
    cases source with
    | returnData => grind [haltCondition]
    | _ => exact hmemory _
  | storageStore => grind [haltCondition, storeHalt]
  | jump => exact hjump _
  | jumpIf => grind [haltCondition]
  | jumpSub => grind [haltCondition, jumpSubHalt]
  | returnSub => grind [haltCondition]
  | log n => exact hwrite _ _
  | call kind => exact hwrite _ _
  | _ => exact hmemory _

end

namespace Operation

section

variable {op : Operation} {f : Frame} {w : World} {reason : HaltReason}

theorem halt_check_iff (h : reason = .stackOverflow ∨ reason = .stackUnderflow)
    (hclear : op.haltCondition f w ≠ some reason) :
    (op.check f w).halt = some reason ↔ stackHalt op.toSignature f.stack = some reason := by
  have hgas : gasHalt (op.cost f w) f.gas ≠ some reason := by
    cases op.cost f w <;> grind [gasHalt]
  rw [halt_check_eq]
  cases stackHalt op.toSignature f.stack with
  | some other => rw [Option.some_or]
  | none =>
    cases hg : gasHalt (op.cost f w) f.gas with
    | some other =>
      rw [hg] at hgas
      simpa using hgas
    | none => simpa using hclear

variable {c : Rules} {b : Opcode} {version : Nat}

theorem counts_of_get? (hop : (InstructionSet.ofRules c).get? b version = some op) :
    op.consumed ≤ 17 ∧ op.produced ≤ 17 ∧
      ∀ reason, reason = .stackOverflow ∨ reason = .stackUnderflow →
        op.haltCondition f w ≠ some reason := by
  rcases InstructionSet.enabled_of_mem_operations (InstructionSet.mem_of_get?_ofRules hop) with
    rfl | ⟨i, -, rfl⟩
  · refine ⟨Nat.zero_le _, Nat.zero_le _, fun reason h => ?_⟩
    rcases h with rfl | rfl <;> simp [invalid]
  · exact ⟨i.consumed_le, i.produced_le, fun reason => i.haltCondition_ne⟩

/-- The verdict on the stack height in exact integers, of which only the limit is misread. -/
theorem halt_check_signed (hop : (InstructionSet.ofRules c).get? b version = some op) :
    ((op.check f w).halt = some .stackOverflow ↔
        f.stack.limit.toInt64.toInt < f.stack.height + op.produced - op.consumed) ∧
      ((op.check f w).halt = some .stackUnderflow ↔
        ¬f.stack.limit.toInt64.toInt < f.stack.height + op.produced - op.consumed ∧
          f.stack.height < op.consumed) := by
  obtain ⟨hconsumed, hproduced, hclear⟩ := counts_of_get? (f := f) (w := w) hop
  rw [halt_check_iff (.inl rfl) (hclear _ (.inl rfl)),
    halt_check_iff (.inr rfl) (hclear _ (.inr rfl)), stackHalt_eq_signed hconsumed hproduced]
  grind

end

/--
The checks compare the height that an operation of a table leads to with the limit as a signed
number, and look for its operands if that is fine. For a limit below `2 ^ 63` they have neither
complaint exactly if the operands can be popped and any results pushed, and the height keeps to the
limit. From `2 ^ 63` on they refuse every operation whose operands are there, whether or not there
is room for its results.
-/
theorem room_below_sign_bit (c : Rules) {b : Opcode} {version : Nat} {op : Operation}
    (hop : (InstructionSet.ofRules c).get? b version = some op) (f : Frame) (w : World)
    (hheight : f.stack.height ≤ f.stack.limit.toNat) :
    let limit := f.stack.limit.toNat
    let signed : Int := if limit < 2 ^ 63 then (limit : Int) else (limit : Int) - 2 ^ 64
    let after : Int := f.stack.height + op.produced - op.consumed
    let halt := (op.check f w).halt
    (halt = some .stackOverflow ↔ signed < after) ∧
      (halt = some .stackUnderflow ↔ ¬signed < after ∧ f.stack.height < op.consumed) ∧
      (limit < 2 ^ 63 → ((halt ≠ some .stackOverflow ∧ halt ≠ some .stackUnderflow) ↔
        (∀ results : List Word, results.length = op.produced →
          ∃ s, f.stack.exchange op.consumed results = .ok s) ∧ after ≤ limit)) ∧
      (2 ^ 63 ≤ limit → op.consumed ≤ f.stack.height → halt = some .stackOverflow) := by
  intro limit signed after halt
  obtain ⟨hover, hunder⟩ := halt_check_signed (f := f) (w := w) hop
  have hsigned : f.stack.limit.toInt64.toInt = signed := toInt_limit _
  rw [hsigned] at hover hunder
  refine ⟨hover, hunder, fun hlimit => ?_, fun hlimit hoperands => ?_⟩
  · have hexchange : (∀ results : List Word, results.length = op.produced →
        ∃ s, f.stack.exchange op.consumed results = .ok s) ↔
        op.consumed ≤ f.stack.height ∧ f.stack.height - op.consumed + op.produced ≤ limit := by
      simp only [Stack.exists_exchange_iff hheight]
      constructor
      · intro h
        simpa using h (List.replicate op.produced 0)
      · intro h results hlength
        rwa [hlength]
    have hsame : signed = limit := if_pos hlimit
    rw [ne_eq, ne_eq, hover, hunder, hexchange]
    omega
  · have hlt := f.stack.limit.toNat_lt
    have hnegative : signed = limit - 2 ^ 64 := if_neg (Nat.not_lt.mpr hlimit)
    exact hover.mpr (by omega)

def roomy (limit : UInt64) : Frame :=
  Frame.start { code := Code.ofBytes #[0x60, 1] 0, initialGas := 10 } { stack := limit }

theorem get?_push : (InstructionSet.ofRules .istanbul).get? 0x60 0 =
    some ((Instruction.push 0).toOperation Rules.istanbul.tariff.fees) :=
  InstructionSet.get?_ofRules_of_enabled (i := .push 0) rfl

/-- The last limit under which a word can be pushed, and the first under which it cannot. -/
theorem room_below_sign_bit_pushing :
    let op := (Instruction.push 0).toOperation Rules.istanbul.tariff.fees
    ((op.check (roomy 0x7fff_ffff_ffff_ffff) { base := {} }).halt ≠ some .stackOverflow) ∧
      (op.check (roomy 0x8000_0000_0000_0000) { base := {} }).halt = some .stackOverflow := by
  intro op
  obtain ⟨-, -, hbelow, -⟩ := room_below_sign_bit .istanbul get?_push
    (roomy 0x7fff_ffff_ffff_ffff) { base := {} } (Nat.zero_le _)
  obtain ⟨-, -, -, habove⟩ := room_below_sign_bit .istanbul get?_push
    (roomy 0x8000_0000_0000_0000) { base := {} } (Nat.zero_le _)
  refine ⟨((hbelow (by decide)).mpr ⟨fun results hlength => ?_, by decide⟩).1,
    habove (by decide) (by decide)⟩
  exact (Stack.exists_exchange_iff (Nat.zero_le _) 0 results).mpr
    ⟨Nat.zero_le _, by rw [hlength]; decide⟩

/--
Under a limit of `2 ^ 63` an empty stack has room for a word, and takes it; the checks say that a
push would pass the limit.
-/
theorem room_misread :
    let op := (Instruction.push 0).toOperation Rules.istanbul.tariff.fees
    let f := roomy 0x8000_0000_0000_0000
    (InstructionSet.ofRules .istanbul).get? 0x60 0 = some op ∧
      f.stack.height ≤ f.stack.limit.toNat ∧
      (f.stack.height : Int) + op.produced - op.consumed ≤ f.stack.limit.toNat ∧
      f.stack.exchange op.consumed [1] = .ok { f.stack with items := [1] } ∧
      (op.check f { base := {} }).halt = some .stackOverflow ∧
      ¬((op.check f { base := {} }).halt = some .stackOverflow ↔
        (f.stack.limit.toNat : Int) < f.stack.height + op.produced - op.consumed) := by
  refine ⟨get?_push, ?_⟩
  decide +kernel

end Operation

end MeteredVm
