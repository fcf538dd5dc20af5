import MeteredVm.Proofs.Decoding
import MeteredVm.Proofs.Soundness

/-!
# MeteredVm.Proofs.MemoryFees

Memory is paid for once, when it grows.

The price of an instruction is computed from its operands before it runs, and its effect touches
memory after that, so the two could disagree about which ranges are touched or how far they reach.
They do not: a part of the price is the difference of what memory costs after the instruction and
before it. Seen from the frame this is a potential, so the parts that a frame is charged add up to
what its memory costs, however often it waits for a child in between.

* `Memory.fee`: what active memory costs. `Fees.growth_pays`: the price of touching ranges is its
  difference.
* `Instruction.memoryPart`, `Instruction.ownPart` and `Instruction.cost_eq_add`: the price of an
  instruction, split in two.
* `Instruction.words_after`: the memory after an effect, even if the frame was halted before it.
* `Frame.handed`: a frame that was handed the outcome of its child. `Frame.words_handed`: this
  grows nothing.
* `Interpreter.memory_paid_once`: all of this, and what it comes to over a run of a frame.
-/

namespace MeteredVm

/-- What `n` active words cost, all of them together. -/
def Memory.fee (n : Nat) : Nat := 3 * n + n * n / 512

namespace Memory

theorem fee_mono {m n : Nat} (h : m ≤ n) : fee m ≤ fee n := by
  have hsquare := Nat.div_le_div_right (c := 512) (Nat.mul_le_mul h h)
  unfold fee
  omega

theorem fee_max (m n : Nat) : fee (max m n) = max (fee m) (fee n) := by
  rcases Nat.le_total m n with h | h
  · rw [Nat.max_eq_right h, Nat.max_eq_right (fee_mono h)]
  · rw [Nat.max_eq_left h, Nat.max_eq_left (fee_mono h)]

end Memory

theorem Gas.toNat_max (a b : Gas) : (a.max b).toNat = Max.max a.toNat b.toNat := by
  unfold Gas.max
  split
  · rename_i h
    exact (Nat.max_eq_right h).symm
  · rename_i h
    exact (Nat.max_eq_left (Nat.le_of_not_le h)).symm

namespace Fees

/-- The price of growing memory until it covers some ranges: the greatest price of one of them. -/
def growth (active : Nat) (touched : List OperandRange) : Option Gas :=
  touched.foldr (fun r rest => do
    let here ← expansion active r.1 r.2
    let rest ← rest
    some (here.max rest)) (some 0)

section

variable {active : Nat} {g : Gas}

theorem expansion_pays {offset len : Word} (h : expansion active offset len = some g) :
    g.toNat + Memory.fee active = Memory.fee (if len = 0 then active else
      max active (Memory.wordsFor (offset.toNat + len.toNat))) := by
  by_cases hl : len = 0
  · rw [expansion, if_pos hl] at h
    cases h
    rw [if_pos hl]
    exact Nat.zero_add _
  · rw [if_neg hl]
    rcases expansion_eq_some h hl with ⟨hle, rfl⟩ | ⟨hlt, grown, paid, hgrown, hpaid, hsub⟩
    · rw [Nat.max_eq_left hle]
      exact Nat.zero_add _
    · rw [Nat.max_eq_right (Nat.le_of_lt hlt), Memory.fee, Memory.fee,
        ← (memory_eq_some hgrown).1, ← (memory_eq_some hpaid).1]
      exact Gas.sub?_eq_some.mp hsub

theorem growth_cons {r : OperandRange} {rest : List OperandRange}
    (h : growth active (r :: rest) = some g) :
    ∃ here more, expansion active r.1 r.2 = some here ∧ growth active rest = some more ∧
      g = here.max more := by
  obtain ⟨here, hhere, h⟩ := Option.bind_eq_some_iff.mp h
  obtain ⟨more, hmore, h⟩ := Option.bind_eq_some_iff.mp h
  exact ⟨here, more, hhere, hmore, (Option.some.inj h).symm⟩

/-- One charge for several ranges pays for the memory that covers all of them. -/
theorem growth_pays (touched : List OperandRange) : ∀ {g : Gas},
    growth active touched = some g →
      g.toNat + Memory.fee active = Memory.fee (Instruction.wordsFor active touched) := by
  induction touched with
  | nil =>
    intro g h
    cases h
    exact Nat.zero_add _
  | cons r rest ih =>
    intro g h
    obtain ⟨here, more, hhere, hmore, rfl⟩ := growth_cons h
    have hfirst := expansion_pays hhere
    have hrest := ih hmore
    have hactive := Instruction.le_wordsFor active rest
    rw [Gas.toNat_max, Instruction.wordsFor, List.foldr_cons]
    change _ = Memory.fee (if r.2 = 0 then Instruction.wordsFor active rest else
      max (Instruction.wordsFor active rest) (Memory.wordsFor (r.1.toNat + r.2.toNat)))
    by_cases hl : r.2 = 0
    · rw [if_pos hl] at hfirst ⊢
      omega
    · rw [if_neg hl] at hfirst ⊢
      rw [Memory.fee_max] at hfirst ⊢
      have hmono := Memory.fee_mono hactive
      omega

theorem growth_singleton {offset len : Word} (h : expansion active offset len = some g) :
    growth active [(offset, len)] = some g := by
  have hmax : g.max 0 = g := Gas.ext ((Gas.toNat_max g 0).trans (Nat.max_eq_left (Nat.zero_le _)))
  simp only [growth, List.foldr, h, Option.bind_eq_bind, Option.bind_some, hmax]

end

end Fees

namespace Call

/-- The price of a call apart from the memory it needs; the gas for the child is a part of it. -/
def ownPart (fees : FeeSchedule) (kind : CallKind) (f : Frame) (w : World) : Nat :=
  let child := (baseCost fees kind f w).bind fun base =>
    fees.childGas (f.gas.saturatingSub base) (f.operand 0)
  fees.callBase.toNat + (if value kind f != 0 then 9000 else 0) +
    (if recipientIsNew fees kind f w && (value kind f != 0 || fees.emptyExists) then 25000
      else 0) + (child.map (·.toNat)).getD 0

/-- Of its two ranges a call pays for the one that costs more. -/
theorem cost_eq_add {fees : FeeSchedule} {kind : CallKind} {f : Frame} {w : World} {cost : Gas}
    (h : Call.cost fees kind f w = some cost) :
    ∃ part, memoryCost kind f = some part ∧
      cost.toNat = ownPart fees kind f w + part.toNat := by
  obtain ⟨base, child, hbase, hchild, hcost⟩ := cost_eq_some h
  obtain ⟨part, hpart, hcall⟩ := baseCost_eq_some hbase
  have hsum := FeeSchedule.call_eq_some hcall
  refine ⟨part, hpart, ?_⟩
  simp only [ownPart, hbase, Option.bind_some, hchild, Option.map_some, Option.getD_some]
  omega

theorem growth_ranges {kind : CallKind} {f : Frame} {part : Gas}
    (h : memoryCost kind f = some part) :
    Fees.growth f.memory.words [inputRange kind f, outputRange kind f] = some part := by
  obtain ⟨input, hinput, h⟩ := Option.bind_eq_some_iff.mp h
  obtain ⟨output, houtput, h⟩ := Option.bind_eq_some_iff.mp h
  have hrest := Fees.growth_singleton houtput
  show (Fees.expansion f.memory.words (inputRange kind f).1 (inputRange kind f).2 >>= fun here =>
    Fees.growth f.memory.words [outputRange kind f] >>= fun rest => some (here.max rest)) = _
  rw [hinput, hrest]
  exact h

end Call

namespace Instruction

/-- The part of the price of an instruction that pays for memory. -/
def memoryPart (f : Frame) (i : Instruction) : Option Gas :=
  Fees.growth f.memory.words (i.ranges f)

/-- The price of an instruction apart from the memory it needs. -/
def ownPart (fees : FeeSchedule) (f : Frame) (w : World) : Instruction → Nat
  | ret | revert => 0
  | copy _ => 3 + 3 * (f.operand 2).wordCount
  | keccak => 30 + 6 * (f.operand 1).wordCount
  | memoryLoad | memoryStore | memoryStoreByte => 3
  | log n => 375 + 8 * (f.operand 1).toNat + 375 * n
  | call kind => Call.ownPart fees kind f w
  | i => ((i.cost fees f w).map (·.toNat)).getD 0

section

variable {fees : FeeSchedule} {f : Frame} {w : World} {cost : Gas} {i : Instruction}

theorem cost_eq_add (h : i.cost fees f w = some cost) :
    ∃ part, i.memoryPart f = some part ∧ cost.toNat = i.ownPart fees f w + part.toNat := by
  cases i with
  | ret | revert =>
    obtain ⟨part, hpart, h⟩ := Option.bind_eq_some_iff.mp h
    exact ⟨part, Fees.growth_singleton hpart, Gas.add?_eq_some.mp h⟩
  | copy source =>
    obtain ⟨part, hpart, h⟩ := Fees.copy_eq_some h
    exact ⟨part, Fees.growth_singleton hpart, h⟩
  | keccak =>
    obtain ⟨part, hpart, h⟩ := Fees.keccak_eq_some h
    exact ⟨part, Fees.growth_singleton hpart, h⟩
  | memoryLoad | memoryStore | memoryStoreByte =>
    obtain ⟨part, hpart, h⟩ := Fees.memoryAccess_eq_some h
    exact ⟨part, Fees.growth_singleton hpart, h⟩
  | log n =>
    obtain ⟨part, hpart, h⟩ := Fees.log_eq_some h
    exact ⟨part, Fees.growth_singleton hpart, h⟩
  | call kind =>
    obtain ⟨part, hpart, h⟩ := Call.cost_eq_add h
    exact ⟨part, Call.growth_ranges hpart, h⟩
  | _ => exact ⟨0, rfl, by simp only [ownPart, h, Option.map_some, Option.getD_some]; rfl⟩

end

end Instruction

def Action.after {α : Type} (a : Action α) (m : Machine) : Machine :=
  match a m with
  | .ok _ m => m
  | .error _ m => m

namespace Action

variable {α : Type} {a : Action α} {m m' : Machine}

theorem after_ok {x : α} (h : a m = .ok x m') : a.after m = m' := by
  simp only [after, h]

theorem after_error {failure : Fatal} (h : a m = .error failure m') : a.after m = m' := by
  simp only [after, h]

end Action

namespace Instruction

theorem after_executed {fees : FeeSchedule} {i : Instruction} {a : Action Unit} {m : Machine}
    (h : a m = i.executed fees m) :
    ∃ status, (a.after m).frame = { i.frameAfter fees m.frame m.world with status := status } := by
  rw [executed] at h
  dsimp only at h
  split at h
  · exact ⟨m.frame.status, congrArg Machine.frame (Action.after_error h)⟩
  · exact ⟨_, congrArg Machine.frame (Action.after_ok h)⟩

section

variable {t : Tariff} {f : Frame} {w : World} {cost : Gas} {i : Instruction}

theorem words_after (journal : Journal) (h : i.Passes t.fees f w cost) :
    ((i.execute t.fees).after ⟨f.paid cost, w, journal⟩).frame.memory.words =
      wordsFor f.memory.words (i.ranges f) := by
  obtain ⟨status, hframe⟩ := after_executed (execute_eq_executed journal h)
  have hwords := words_frameAfter t.fees (f.paid cost) w i
  rw [hframe]
  refine hwords.trans ?_
  cases i <;> rfl

theorem call_after {kind : CallKind} (journal : Journal)
    (h : (call kind).Passes t.fees f w cost) :
    (((call kind).execute t.fees).after ⟨f.paid cost, w, journal⟩).frame =
      (call kind).frameAfter t.fees (f.paid cost) w := by
  rw [Action.after_ok (execute_eq journal h (.inr rfl))]
  rfl

theorem ranges_facing (s : Signature) : i.ranges (f.facing s) = i.ranges f := by
  cases i <;> rfl

theorem memoryPart_facing (s : Signature) : i.memoryPart (f.facing s) = i.memoryPart f := by
  rw [memoryPart, ranges_facing]
  rfl

end

end Instruction

namespace Frame

/--
The frame after it was handed the outcome of the child that it waits for. A resumption that fails
leaves what it had done up to then.
-/
def handed (f : Frame) (outcome : ChildOutcome) : Frame :=
  match f.pending with
  | none => f
  | some request =>
    match resume request.outputOffset request.outputLength outcome { f with pending := none } with
    | .ok _ f => f
    | .error _ f => f

def HasWindow (f : Frame) : Prop :=
  ∀ request, f.pending = some request →
    f.memory.Covers request.outputOffset request.outputLength

variable {f : Frame} {w : World} {i : Instruction} {cost : Gas} {s : Signature}

theorem words_resume {offset len : Nat} (h : f.memory.Covers offset len)
    (outcome : ChildOutcome) :
    (match resume offset len outcome f with
      | .ok _ f => f
      | .error _ f => f).memory.words = f.memory.words := by
  have hwrite : (f.memory.write offset (outcome.output.extract 0 len)).words = f.memory.words :=
    congrArg (· / 32) (size_write_extract h outcome.output)
  rcases resume_cases offset len outcome f with
    hrefused | ⟨-, hgas | ⟨gas, ⟨reason, hfull⟩ | ⟨stack, hdone⟩⟩⟩
  · rw [hrefused]
  · rw [hgas]
  · rw [hfull]
    exact hwrite
  · rw [hdone]
    simp only [adopt]
    cases outcome.success <;> exact hwrite

theorem pending_resume {offset len : Nat} (outcome : ChildOutcome) (h : f.pending = none) :
    (match resume offset len outcome f with
      | .ok _ f => f
      | .error _ f => f).pending = none := by
  rcases resume_cases offset len outcome f with
    hrefused | ⟨-, hgas | ⟨gas, ⟨reason, hfull⟩ | ⟨stack, hdone⟩⟩⟩
  · rw [hrefused]
    exact h
  · rw [hgas]
    exact h
  · rw [hfull]
    exact h
  · rw [hdone]
    simp only [adopt]
    cases outcome.success <;> exact h

theorem words_handed (h : f.HasWindow) (outcome : ChildOutcome) :
    (f.handed outcome).memory.words = f.memory.words := by
  unfold handed
  cases hp : f.pending with
  | none => rfl
  | some request => exact words_resume (f := { f with pending := none }) (h request hp) outcome

theorem pending_handed (f : Frame) (outcome : ChildOutcome) :
    (f.handed outcome).pending = none := by
  unfold handed
  cases hp : f.pending with
  | none => exact hp
  | some request => exact pending_resume outcome rfl

/-- A call leaves room for the output of its child, and no instruction takes room away. -/
theorem hasWindow_frameAfter (fees : FeeSchedule) (w : World)
    (h : f.HasWindow ∨ ∃ kind, i = .call kind) : (i.frameAfter fees f w).HasWindow := by
  intro request hr
  have hsize := Instruction.size_frameAfter fees f w i
  have hcall : ∀ kind gas, i = .call kind →
      (i.frameAfter fees f w).pending = some (Call.requested kind f gas) →
        (i.frameAfter fees f w).memory.Covers request.outputOffset request.outputLength := by
    rintro kind gas rfl hp
    cases hp.symm.trans hr
    exact Instruction.covers_requested kind f gas (hsize ▸ Nat.le_max_right ..)
  rcases Instruction.pending_frameAfter fees f w i with hp | ⟨kind, gas, hi, hp⟩
  · rcases h with h | ⟨kind, rfl⟩
    · exact (h request (hp.symm.trans hr)).of_size_le (hsize ▸ Nat.le_max_left ..)
    · exact hcall kind _ rfl (Instruction.pending_call ..)
  · exact hcall kind gas hi hp

theorem hasWindow_performed (fees : FeeSchedule) (h : f.HasWindow) :
    (f.performed fees w i cost s).HasWindow := by
  rw [performed, advance_eq]
  exact hasWindow_frameAfter (f := f.paid cost) fees w (.inl h)

theorem hasWindow_handed (f : Frame) (outcome : ChildOutcome) :
    (f.handed outcome).HasWindow := by
  intro request hr
  cases (pending_handed f outcome).symm.trans hr

inductive Turn where
  | step (world : World) (journal : Journal)
  | resume (outcome : ChildOutcome)

end Frame

/-- The part of a price that pays for memory, if the turn executes an instruction. -/
def Rules.memoryCharge (c : Rules) (f : Frame) : Frame.Turn → Nat
  | .step world _ => (((c.admitted? f world).bind (·.memoryPart f)).map (·.toNat)).getD 0
  | .resume _ => 0

namespace Interpreter

/-- The frame after a turn, also when the turn failed. -/
def turn (vm : Interpreter) (f : Frame) : Frame.Turn → Frame
  | .step world journal => (vm.step.after ⟨f, world, journal⟩).frame
  | .resume outcome => f.handed outcome

def memoryCharges (c : Rules) (f : Frame) : List Frame.Turn → Nat
  | [] => 0
  | t :: ts => c.memoryCharge f t + memoryCharges c ((ofRules c).turn f t) ts

theorem step_pays (c : Rules) {f : Frame} (world : World) (journal : Journal)
    (hf : f.HasWindow) :
    c.memoryCharge f (.step world journal) + Memory.fee f.memory.words =
      Memory.fee ((ofRules c).turn f (.step world journal)).memory.words ∧
        ((ofRules c).turn f (.step world journal)).HasWindow := by
  cases ha : c.admitted? f world with
  | some i =>
    obtain ⟨s, cost, journal', -, hpasses, hstep⟩ := step_admitted journal ha
    obtain ⟨part, hpart, -⟩ := Instruction.cost_eq_add hpasses.price
    rw [Instruction.memoryPart_facing] at hpart
    have hcharge : c.memoryCharge f (.step world journal) = part.toNat := by
      simp only [Rules.memoryCharge, ha, Option.bind_some, hpart, Option.map_some,
        Option.getD_some]
    rw [hcharge, turn, Action.after_ok hstep, Frame.words_performed, Instruction.ranges_facing]
    exact ⟨Fees.growth_pays _ hpart, Frame.hasWindow_performed _ hf⟩
  | none =>
    have hcharge : c.memoryCharge f (.step world journal) = 0 := by
      simp only [Rules.memoryCharge, ha, Option.bind_none, Option.map_none, Option.getD_none]
    rw [hcharge, turn, Nat.zero_add]
    by_cases he : f.status = .executing
    · obtain ⟨s, reason, journal', hstep⟩ := step_unadmitted journal he ha
      rw [Action.after_ok hstep]
      exact ⟨rfl, hf⟩
    · have hstep : (ofRules c).step ⟨f, world, journal⟩ =
          .error .notExecuting ⟨f, world, journal⟩ := by simp [step, he]
      rw [Action.after_error hstep]
      exact ⟨rfl, hf⟩

theorem turn_pays (c : Rules) {f : Frame} (t : Frame.Turn) (hf : f.HasWindow) :
    c.memoryCharge f t + Memory.fee f.memory.words =
      Memory.fee ((ofRules c).turn f t).memory.words ∧ ((ofRules c).turn f t).HasWindow := by
  cases t with
  | step world journal => exact step_pays c world journal hf
  | resume outcome =>
    refine ⟨?_, f.hasWindow_handed outcome⟩
    show 0 + Memory.fee f.memory.words = Memory.fee (f.handed outcome).memory.words
    rw [Frame.words_handed hf outcome, Nat.zero_add]

/-- The charges are a telescoping sum. -/
theorem turns_pay (c : Rules) (ts : List Frame.Turn) : ∀ {f : Frame}, f.HasWindow →
    memoryCharges c f ts + Memory.fee f.memory.words =
      Memory.fee (ts.foldl (ofRules c).turn f).memory.words := by
  induction ts with
  | nil =>
    intro f _
    exact Nat.zero_add _
  | cons t ts ih =>
    intro f hf
    obtain ⟨hpays, hf'⟩ := turn_pays c t hf
    have hrest := ih hf'
    rw [memoryCharges, List.foldl_cons]
    omega

/--
Whatever operation of the rules passes its checks, a part of the price that it is charged is the
difference of what memory costs after it and before it; a call pays for the dearer one of its two
ranges, and handing it any outcome of its child grows nothing. So a new frame is charged for its
memory once, whatever turns it takes.
-/
theorem memory_paid_once (c : Rules) :
    (∀ op ∈ InstructionSet.operations c, ∀ (f : Frame) (w : World) (journal : Journal),
      (op.check f w).halt = none →
        ∃ (i : Instruction) (cost part : Gas), op = i.toOperation c.tariff.fees ∧
          (op.check f w).cost = some cost ∧ i.memoryPart f = some part ∧
          cost.toNat = i.ownPart c.tariff.fees f w + part.toNat ∧
          let f' := (op.execute.after ⟨f.paid cost, w, journal⟩).frame
          part.toNat + Memory.fee f.memory.words = Memory.fee f'.memory.words ∧
            ∀ kind, i = .call kind → f'.status = .suspended ∧ f'.pending ≠ none ∧
              ∀ outcome, (f'.handed outcome).memory.words = f'.memory.words) ∧
      ∀ (message : Message) (limits : Limits) (turns : List Frame.Turn),
        memoryCharges c (Frame.start message limits) turns =
          Memory.fee (turns.foldl (ofRules c).turn (Frame.start message limits)).memory.words := by
  refine ⟨?_, ?_⟩
  · intro op hop f w journal hhalt
    rcases InstructionSet.enabled_of_mem_operations hop with rfl | ⟨i, -, rfl⟩
    · exact absurd hhalt (Operation.check_invalid f w)
    · rw [← i.operation_table c.tariff.fees] at hhalt ⊢
      obtain ⟨cost, hpasses, hcost⟩ := Operation.passes_of_check hhalt
      obtain ⟨part, hpart, hsum⟩ := Instruction.cost_eq_add hpasses.price
      have hwords := Instruction.words_after journal hpasses
      refine ⟨i, cost, part, i.operation_table _, hcost, hpart, hsum, ?_, ?_⟩
      · exact (Fees.growth_pays _ hpart).trans (congrArg Memory.fee hwords.symm)
      · rintro kind rfl
        have hafter := Instruction.call_after journal hpasses
        have hwindow := Frame.hasWindow_frameAfter (f := f.paid cost) c.tariff.fees w
          (.inr ⟨kind, rfl⟩)
        rw [← hafter] at hwindow
        refine ⟨?_, ?_, Frame.words_handed hwindow⟩
        · exact (congrArg Frame.status hafter).trans (Instruction.status_frameAfter ..)
        · exact fun hnone => nomatch (congrArg Frame.pending hafter).symm.trans hnone
  · intro message limits turns
    have hstart : (Frame.start message limits).HasWindow := by
      intro request hr
      cases hr
    have hpays := turns_pay c turns hstart
    have hwords : (Frame.start message limits).memory.words = 0 := Memory.words_empty _
    rwa [hwords, show Memory.fee 0 = 0 from rfl, Nat.add_zero] at hpays

/--
Account 5 calls account 7 with a word of input and room for a word of output, and then stores the
flag of its success behind that.
-/
def calling : Message where
  code := Code.ofBytes
    #[0x60, 32, 0x60, 64, 0x60, 32, 0x60, 0, 0x60, 0, 0x60, 7, 0x61, 3, 232, 0xf1, 0x60, 96, 0x52] 0
  initialGas := 100000
  address := 5

def callingTurns : List Frame.Turn :=
  List.replicate 8 (.step { base := {} } []) ++
    .resume { success := true, output := Bytes.window #[1, 2, 3] 0 40 } ::
      List.replicate 2 (.step { base := {} } [])

set_option maxRecDepth 8000 in
theorem calling_grows :
    ((callingTurns.take 8).foldl (ofRules .london).turn (Frame.start calling {})).memory.words = 3 ∧
      (callingTurns.foldl (ofRules .london).turn (Frame.start calling {})).memory.words = 4 := by
  decide +kernel

/-- The call pays for three words, the child's output for none, and the store for one more. -/
theorem memory_paid_once_calling :
    memoryCharges .london (Frame.start calling {}) (callingTurns.take 8) = 9 ∧
      memoryCharges .london (Frame.start calling {}) callingTurns = 12 := by
  obtain ⟨hcall, hall⟩ := calling_grows
  have hpaid := (memory_paid_once .london).2 calling {}
  exact ⟨(hpaid _).trans (congrArg Memory.fee hcall), (hpaid _).trans (congrArg Memory.fee hall)⟩

end Interpreter

end MeteredVm
