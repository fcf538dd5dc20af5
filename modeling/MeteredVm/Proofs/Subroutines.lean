import MeteredVm.Proofs.SingleStep
import MeteredVm.Proofs.Walking

/-!
# MeteredVm.Proofs.Subroutines

Subroutine calls and returns match like brackets.

The history of a frame lists its subroutine calls and its returns in the order in which they were
executed, whatever jumps, nested calls and resumptions lie between them. A call is answered by the
return that closes it: what lies between the two is balanced. The return stack says where to go on
after each call that has not been answered yet.

* `Passage.Balanced` and `Passage.unmatched`: the bracket structure, from the history alone.
  `Passage.answered_iff`: the answer to a call can be found by counting.
* `Passage.replay_eq`: a stack that follows the history holds the unmatched calls.
  `Interpreter.returnStack_moves`: the return stack of a frame does.
* `Interpreter.subroutines_match`: calls, returns and halts, by the history.
-/

namespace MeteredVm

/-- A passage into a subroutine, by a call at `pc`, or out of one. -/
inductive Passage where
  | enter (pc : Nat)
  | leave
  deriving DecidableEq

namespace Passage

inductive Balanced : List Passage → Prop
  | nil : Balanced []
  | call {pc : Nat} {inner later : List Passage} (body : Balanced inner) (next : Balanced later) :
    Balanced (.enter pc :: (inner ++ .leave :: later))

/-- One of the passages that follow a call is the return from it. -/
def Answered (later : List Passage) : Prop :=
  ∃ inner after, later = inner ++ .leave :: after ∧ Balanced inner

/-- The number of returns that answer none of the calls before them. -/
def surplus : List Passage → Nat
  | [] => 0
  | .enter _ :: later => surplus later - 1
  | .leave :: later => surplus later + 1

theorem surplus_append {inner : List Passage} (h : Balanced inner) (later : List Passage) :
    surplus (inner ++ later) = surplus later := by
  induction h generalizing later with
  | nil => rfl
  | call _ _ ihbody ihnext =>
    rw [List.cons_append, List.append_assoc, surplus, ihbody, List.cons_append, surplus,
      ihnext, Nat.add_sub_cancel]

theorem answered_of_surplus (later : List Passage) (h : 0 < surplus later) : Answered later := by
  match later with
  | [] => cases h
  | .leave :: after => exact ⟨[], after, rfl, .nil⟩
  | .enter pc :: later =>
    rw [surplus] at h
    obtain ⟨inner, after, rfl, hinner⟩ := answered_of_surplus later (by omega)
    rw [surplus_append hinner, surplus, Nat.add_sub_cancel] at h
    obtain ⟨inner', after', rfl, hinner'⟩ := answered_of_surplus after h
    exact ⟨.enter pc :: (inner ++ .leave :: inner'), after', by simp, .call hinner hinner'⟩
termination_by later.length

theorem answered_iff {later : List Passage} : Answered later ↔ 0 < surplus later := by
  refine ⟨?_, answered_of_surplus later⟩
  rintro ⟨inner, after, rfl, hinner⟩
  rw [surplus_append hinner]
  exact Nat.succ_pos _

instance (later : List Passage) : Decidable (Answered later) :=
  decidable_of_iff (0 < surplus later) answered_iff.symm

/-- The offsets of the calls that have not been answered, in the order of the calls. -/
def unmatched : List Passage → List Nat
  | [] => []
  | .enter pc :: later => if Answered later then unmatched later else pc :: unmatched later
  | .leave :: later => unmatched later

theorem unmatched_append {inner : List Passage} (h : Balanced inner) (later : List Passage) :
    unmatched (inner ++ later) = unmatched later := by
  induction h generalizing later with
  | nil => rfl
  | @call pc inner next hinner _ ihbody ihnext =>
    have hanswered : Answered (inner ++ .leave :: (next ++ later)) := ⟨inner, _, rfl, hinner⟩
    rw [List.cons_append, List.append_assoc, List.cons_append, unmatched, if_pos hanswered,
      ihbody, unmatched, ihnext]

theorem balanced_of_unmatched (h : List Passage) (hs : surplus h = 0) (hu : unmatched h = []) :
    Balanced h := by
  match h with
  | [] => exact .nil
  | .leave :: later => cases hs
  | .enter pc :: later =>
    have hanswered : Answered later := by
      refine Decidable.byContradiction fun hn => ?_
      rw [unmatched, if_neg hn] at hu
      cases hu
    rw [unmatched, if_pos hanswered] at hu
    obtain ⟨inner, after, rfl, hinner⟩ := hanswered
    rw [surplus, surplus_append hinner, surplus, Nat.add_sub_cancel] at hs
    rw [unmatched_append hinner, unmatched] at hu
    exact .call hinner (balanced_of_unmatched after hs hu)
termination_by h.length

/-- Behind the last unmatched call everything is balanced. -/
theorem split_of_unmatched {q : List Nat} {pc : Nat} (h : List Passage)
    (hu : unmatched h = q ++ [pc]) :
    ∃ before inner, h = before ++ .enter pc :: inner ∧ Balanced inner := by
  induction h generalizing q with
  | nil => simp [unmatched] at hu
  | cons e later ih =>
    cases e with
    | leave =>
      obtain ⟨before, inner, rfl, hinner⟩ := ih hu
      exact ⟨.leave :: before, inner, rfl, hinner⟩
    | enter first =>
      rw [unmatched] at hu
      split at hu
      · obtain ⟨before, inner, rfl, hinner⟩ := ih hu
        exact ⟨.enter first :: before, inner, rfl, hinner⟩
      · rename_i hn
        cases q with
        | nil =>
          obtain ⟨rfl, hnone⟩ := List.cons.inj hu
          rw [answered_iff, Nat.not_lt, Nat.le_zero] at hn
          exact ⟨[], later, rfl, balanced_of_unmatched later hn hnone⟩
        | cons _ q =>
          obtain ⟨before, inner, rfl, hinner⟩ := ih (List.cons.inj hu).2
          exact ⟨.enter first :: before, inner, rfl, hinner⟩

/-- A stack of return addresses that follows the passages, the innermost address first. -/
def replay : List Nat → List Passage → List Nat
  | s, [] => s
  | s, .enter pc :: later => replay ((pc + 1) :: s) later
  | s, .leave :: later => replay s.tail later

theorem replay_append (h later : List Passage) : ∀ s : List Nat,
    replay s (h ++ later) = replay (replay s h) later := by
  induction h with
  | nil => exact fun _ => rfl
  | cons e h ih => cases e <;> exact fun s => ih _

/-- The returns that answer none of the calls take from the stack as it was before. -/
theorem replay_eq (h : List Passage) : ∀ s : List Nat,
    replay s h = ((unmatched h).map (· + 1)).reverse ++ s.drop (surplus h) := by
  induction h with
  | nil => exact fun _ => rfl
  | cons e later ih =>
    intro s
    cases e with
    | leave => rw [replay, ih, unmatched, surplus, List.drop_tail]
    | enter pc =>
      rw [replay, ih, unmatched, surplus]
      by_cases ha : Answered later
      · obtain ⟨k, hk⟩ := Nat.exists_eq_succ_of_ne_zero (Nat.ne_of_gt (answered_iff.mp ha))
        rw [if_pos ha, hk, List.drop_succ_cons, Nat.succ_sub_one]
      · have hzero : surplus later = 0 := by
          rwa [answered_iff, Nat.not_lt, Nat.le_zero] at ha
        simp [if_neg ha, hzero]

end Passage

open Passage

namespace Rules

def passage (c : Rules) (f : Frame) (w : World) : List Passage :=
  match c.admitted? f w with
  | some .jumpSub => [.enter f.pc]
  | some .returnSub => [.leave]
  | _ => []

/-- Only steps make passages. -/
def passages (c : Rules) (f : Frame) : Frame.Move → List Passage
  | .step world _ => c.passage f world
  | .takePending => []
  | .resume _ _ _ => []

def history (c : Rules) (f : Frame) : List Frame.Move → List Passage
  | [] => []
  | move :: moves => c.passages f move ++ history c ((Interpreter.ofRules c).move f move) moves

end Rules

namespace Frame

variable {fees : FeeSchedule} {f : Frame} {w : World} {i : Instruction} {cost : Gas}
  {s : Signature}

theorem returnStack_performed : (f.performed fees w i cost s).returnStack =
    match i with
    | .jumpSub => { f.returnStack with items := (f.pc + 1) :: f.returnStack.items }
    | .returnSub => { f.returnStack with items := f.returnStack.items.tail }
    | _ => f.returnStack := by
  rw [performed, advance_eq]
  cases i <;> rfl

theorem pc_performed_of_jumps {p : Provenance} (hs : s = (i.operation fees p).toSignature)
    (hj : i.signature.jumps = true) :
    (f.performed fees w i cost s).pc = (i.frameAfter fees (f.paid cost) w).pc := by
  have hjumps : s.jumps = true := by
    rw [hs]
    exact hj
  rw [performed, advance_eq, hjumps]
  simp

end Frame

namespace Interpreter

variable {c : Rules} {f : Frame} {w : World}

theorem move_of_step {journal : Journal} {s : Step} {m : Machine}
    (h : (ofRules c).step ⟨f, w, journal⟩ = .ok s m) :
    (ofRules c).move f (.step w journal) = m.frame := by
  simp only [move, h]

/-- A step makes its passage, and nothing else changes the return stack. -/
theorem returnStack_step (journal : Journal) :
    ((ofRules c).move f (.step w journal)).returnStack =
      { f.returnStack with items := replay f.returnStack.items (c.passage f w) } := by
  by_cases he : f.status = .executing
  · cases ha : c.admitted? f w with
    | none =>
      obtain ⟨s, reason, journal', hstep⟩ := step_unadmitted journal he ha
      rw [move_of_step hstep, Rules.passage, ha]
      rfl
    | some i =>
      obtain ⟨s, cost, journal', -, -, hstep⟩ := step_admitted journal ha
      rw [move_of_step hstep, Frame.returnStack_performed, Rules.passage, ha]
      cases i <;> rfl
  · have ha : c.admitted? f w = none := if_neg he
    simp only [move, step, if_pos he, Rules.passage, ha]
    rfl

theorem returnStack_move (move : Frame.Move) :
    ((ofRules c).move f move).returnStack =
      { f.returnStack with items := replay f.returnStack.items (c.passages f move) } := by
  cases move with
  | step world journal => exact returnStack_step journal
  | takePending => rfl
  | resume offset len outcome =>
    simp only [Interpreter.move]
    rcases Frame.resume_cases offset len outcome f with
      h | ⟨-, h | ⟨gas, ⟨reason, h⟩ | ⟨stack, h⟩⟩⟩
    · rw [h]
      rfl
    · rw [h]
      rfl
    · rw [h]
      rfl
    · rw [h]
      unfold Frame.adopt
      cases outcome.success <;> rfl

theorem returnStack_moves (c : Rules) (moves : List Frame.Move) : ∀ f : Frame,
    (moves.foldl (ofRules c).move f).returnStack =
      { f.returnStack with items := replay f.returnStack.items (c.history f moves) } := by
  induction moves with
  | nil => exact fun _ => rfl
  | cons move moves ih =>
    intro f
    rw [List.foldl_cons, ih, returnStack_move, Rules.history, replay_append]

theorem returnStack_started (c : Rules) (message : Message) (limits : Limits)
    (moves : List Frame.Move) :
    let f := moves.foldl (ofRules c).move (Frame.start message limits)
    f.returnStack.items.reverse =
        (unmatched (c.history (Frame.start message limits) moves)).map (· + 1) ∧
      f.returnStack.limit = limits.returnStack := by
  intro f
  have hitems : f.returnStack.items = _ := congrArg ReturnStack.items (returnStack_moves c moves _)
  refine ⟨?_, congrArg ReturnStack.limit (returnStack_moves c moves _)⟩
  rw [hitems, replay_eq, List.drop_eq_nil_of_le (Nat.zero_le _), List.append_nil,
    List.reverse_reverse]

end Interpreter

def Frame.NamesSubroutine (f : Frame) (pc : Nat) : Prop :=
  (f.operand 0).toSize? = some pc ∧ f.code.opcodeAt? pc = some Opcode.beginSub ∧
    f.code.Boundary pc

namespace Instruction

variable {fees : FeeSchedule} {f : Frame}

theorem isBeginSub_iff_names {pc : Nat} (hpc : (f.operand 0).toSize? = some pc) :
    f.code.isBeginSub pc = true ↔ f.NamesSubroutine pc := by
  rw [Code.isBeginSub_iff]
  refine ⟨fun ⟨_, hbyte, hb⟩ => ⟨hpc, hbyte, hb⟩, fun ⟨_, hbyte, hb⟩ => ⟨?_, hbyte, hb⟩⟩
  exact (Array.getElem?_eq_some_iff.mp hbyte).1

theorem jumpSubHalt_eq_overflow : jumpSubHalt f = some .returnStackOverflow ↔
    (∃ pc, f.NamesSubroutine pc) ∧ f.returnStack.limit.toNat ≤ f.returnStack.height := by
  unfold jumpSubHalt
  cases hpc : (f.operand 0).toSize? with
  | none => simp [Frame.NamesSubroutine, hpc]
  | some pc =>
    have hnames : (∃ pc, f.NamesSubroutine pc) ↔ f.code.isBeginSub pc = true := by
      rw [isBeginSub_iff_names hpc]
      refine ⟨fun ⟨q, hq⟩ => ?_, fun h => ⟨pc, h⟩⟩
      obtain rfl := Option.some.inj (hpc.symm.trans hq.1)
      exact hq
    rw [hnames]
    by_cases hb : f.code.isBeginSub pc = true
    · simp [hb, ReturnStack.isFull]
    · simp [hb]

theorem names_of_clear (h : jumpSubHalt f = none) : f.NamesSubroutine (f.operand 0).toNat := by
  obtain ⟨hsize, hb, -⟩ := jumpSubHalt_eq_none h
  exact (isBeginSub_iff_names (Word.toSize?_eq_some hsize)).mp hb

end Instruction

namespace Interpreter

variable {c : Rules} {f : Frame} {w : World}

theorem step_jumps {i : Instruction} (journal : Journal) (h : c.admitted? f w = some i)
    (hj : i.signature.jumps = true) :
    i.haltCondition c.tariff.fees f = none ∧
      ((ofRules c).move f (.step w journal)).pc = (i.frameAfter c.tariff.fees f w).pc := by
  obtain ⟨p, s, cost, journal', hs, -, hpasses, hstep⟩ := step_performs journal h
  rw [move_of_step hstep, Frame.pc_performed_of_jumps hs hj]
  refine ⟨?_, ?_⟩
  · rw [← hpasses.clear]
    cases i <;> rfl
  · cases i <;> rfl

/--
Whatever a new frame executes, and however it is resumed in between: its return stack holds, from
the bottom to the top, the offset behind each call that has not been answered yet. A return goes on
behind the call that it answers, and a call behind the mark of a subroutine. Where operands and gas
suffice, a return halts for want of a call exactly if none is open, and a call for want of room
exactly if it names a subroutine and as many calls are open as there may be.
-/
theorem subroutines_match (c : Rules) (message : Message) (limits : Limits)
    (moves : List Frame.Move) (world : World) (journal : Journal) :
    let f := moves.foldl (ofRules c).move (Frame.start message limits)
    let next := (ofRules c).move f (.step world journal)
    let history := c.history (Frame.start message limits) moves
    f.returnStack.items.reverse = (unmatched history).map (· + 1) ∧
    (c.admitted? f world = some .returnSub → ∃ before pc inner,
      history = before ++ .enter pc :: inner ∧ Balanced inner ∧ next.pc = pc + 1) ∧
    (c.admitted? f world = some .jumpSub → ∃ pc, f.NamesSubroutine pc ∧ next.pc = pc + 1) ∧
    (f.status = .executing → c.instructionAt? f.code f.pc = some .returnSub →
      ((∃ m, (ofRules c).step ⟨f, world, journal⟩ = .ok (.halt .returnStackUnderflow) m) ↔
        Instruction.returnSub.Suffices c.tariff.fees f world ∧ unmatched history = [])) ∧
    (f.status = .executing → c.instructionAt? f.code f.pc = some .jumpSub →
      ((∃ m, (ofRules c).step ⟨f, world, journal⟩ = .ok (.halt .returnStackOverflow) m) ↔
        Instruction.jumpSub.Suffices c.tariff.fees f world ∧ (∃ pc, f.NamesSubroutine pc) ∧
          limits.returnStack.toNat ≤ (unmatched history).length)) := by
  intro f next history
  obtain ⟨hitems, hlimit⟩ := returnStack_started c message limits moves
  have hheight : f.returnStack.height = (unmatched history).length := by
    rw [← List.length_map (f := (· + 1)), ← hitems, List.length_reverse]
    rfl
  refine ⟨hitems, ?_, ?_, ?_, ?_⟩
  · intro ha
    obtain ⟨hclear, hpc⟩ := step_jumps journal ha rfl
    rcases List.eq_nil_or_concat (unmatched history) with hnone | ⟨q, pc, hlast⟩
    · -- then the return stack would be empty, and the return would have been refused
      have hempty : f.returnStack.items = [] :=
        List.reverse_eq_nil_iff.mp (hitems.trans (congrArg (List.map (· + 1)) hnone))
      simp [Instruction.haltCondition, hempty] at hclear
    · rw [List.concat_eq_append] at hlast
      obtain ⟨before, inner, hsplit, hinner⟩ := split_of_unmatched history hlast
      refine ⟨before, pc, inner, hsplit, hinner, hpc.trans ?_⟩
      have htop : f.returnStack.items = (pc + 1) :: (q.map (· + 1)).reverse := by
        rw [← List.reverse_reverse f.returnStack.items, hitems, hlast]
        simp
      show f.returnStack.items.headD 0 = pc + 1
      rw [htop]
      rfl
  · intro ha
    obtain ⟨hclear, hpc⟩ := step_jumps journal ha rfl
    exact ⟨_, Instruction.names_of_clear hclear, hpc⟩
  · intro he hi
    rw [step_halts_own journal he hi (by decide), ← List.length_eq_zero_iff, ← hheight]
    simp [Instruction.haltCondition, ReturnStack.height]
  · intro he hi
    rw [step_halts_own journal he hi (by decide), ← hheight, ← hlimit]
    exact and_congr_right fun _ => Instruction.jumpSubHalt_eq_overflow

/-- A subroutine at 4 that calls another at 9 and returns, as the other does. -/
def nesting : Message where
  code := Code.ofBytes #[0x60, 4, 0x5e, 0x00, 0x5c, 0x60, 9, 0x5e, 0x5d, 0x5c, 0x5d] 0
  initialGas := 1000

def nestingSteps (n : Nat) : List Frame.Move := List.replicate n (.step { base := {} } [])

def nested (limits : Limits) (n : Nat) : Frame :=
  (nestingSteps n).foldl (ofRules .berlin).move (Frame.start nesting limits)

set_option maxRecDepth 8000 in
theorem nested_admitted :
    Rules.berlin.admitted? (nested {} 1) { base := {} } = some .jumpSub ∧
    Rules.berlin.admitted? (nested {} 5) { base := {} } = some .returnSub ∧
    Rules.berlin.history (Frame.start nesting {}) (nestingSteps 5) =
      [.enter 2, .enter 7, .leave] := by
  decide +kernel

set_option maxRecDepth 8000 in
theorem nested_full :
    (nested { returnStack := 1 } 3).status = .executing ∧
    Rules.berlin.instructionAt? (nested { returnStack := 1 } 3).code
      (nested { returnStack := 1 } 3).pc = some .jumpSub ∧
    Operation.stackHalt Instruction.jumpSub.signature (nested { returnStack := 1 } 3).stack =
      none ∧
    Fees.jumpSub ≤ (nested { returnStack := 1 } 3).gas ∧
    ((nested { returnStack := 1 } 3).operand 0).toSize? = some 9 ∧
    (nested { returnStack := 1 } 3).code.isBeginSub 9 = true ∧
    unmatched (Rules.berlin.history (Frame.start nesting { returnStack := 1 })
      (nestingSteps 3)) = [2] := by
  decide +kernel

def returning : Message where
  code := Code.ofBytes #[0x5d] 0
  initialGas := 1000

/--
The inner call is answered, so the second return answers the outer one. With room for one return
address only, the inner call halts, and so does a return with which a frame begins.
-/
theorem subroutines_match_nesting :
    Rules.berlin.history (Frame.start nesting {}) (nestingSteps 5) =
      [.enter 2, .enter 7, .leave] ∧
    (∃ before pc inner, Rules.berlin.history (Frame.start nesting {}) (nestingSteps 5) =
        before ++ .enter pc :: inner ∧ Balanced inner ∧
        ((ofRules .berlin).move (nested {} 5) (.step { base := {} } [])).pc = pc + 1) ∧
    (∃ pc, (nested {} 1).NamesSubroutine pc ∧
      ((ofRules .berlin).move (nested {} 1) (.step { base := {} } [])).pc = pc + 1) ∧
    (∃ m, (ofRules .berlin).step ⟨nested { returnStack := 1 } 3, { base := {} }, []⟩ =
      .ok (.halt .returnStackOverflow) m) ∧
    ∃ m, (ofRules .berlin).step ⟨Frame.start returning {}, { base := {} }, []⟩ =
      .ok (.halt .returnStackUnderflow) m := by
  obtain ⟨hcall, hreturn, hhistory⟩ := nested_admitted
  obtain ⟨he, hi, hstack, hgas, hsize, hmark, hopen⟩ := nested_full
  have hnames := (Instruction.isBeginSub_iff_names hsize).mp hmark
  rw [nested] at he hi hstack hgas hnames
  have hroom := subroutines_match .berlin nesting { returnStack := 1 } (nestingSteps 3)
    { base := {} } []
  have hnone := subroutines_match .berlin returning {} [] { base := {} } []
  refine ⟨hhistory, ?_, ?_, ?_, ?_⟩
  · exact (subroutines_match .berlin nesting {} (nestingSteps 5) { base := {} } []).2.1 hreturn
  · exact (subroutines_match .berlin nesting {} (nestingSteps 1) { base := {} } []).2.2.1 hcall
  · rw [nested]
    refine (hroom.2.2.2.2 he hi).mpr ⟨⟨hstack, _, rfl, hgas⟩, ⟨9, hnames⟩, ?_⟩
    rw [hopen]
    decide
  · exact (hnone.2.2.2.1 rfl (by decide +kernel)).mpr ⟨⟨by decide +kernel, _, rfl, by decide⟩, rfl⟩

end Interpreter

end MeteredVm
