import MeteredVm.Frame.Command

/-!
# MeteredVm.Proofs.Halting

How long an exceptional halt lasts.

A frame is changed by commands, in any order and with any arguments. Four of them write its
status, and each asks something else of the status before: `setStatus` refuses to enter or leave a
halt, `halt` is always carried out, `resume` asks for a suspended frame, and `suspend` asks for
nothing. So a reason, once recorded, stays; the halt itself lasts until the frame is suspended.

* `Standing`: the status of a frame and the reason of its halt. `Command.turn` is what a command
  makes of it, and `Command.standing_after` says that this is what the command does.
* `Command.halt_lasts_until_suspended`: the reason and the halt after any commands.
* `Command.suspend_ends_halt`: a halted frame that is suspended, and then succeeds.
-/

namespace MeteredVm

structure Standing where
  status : Status
  reason : Option HaltReason
  deriving DecidableEq

def Frame.standing (f : Frame) : Standing := ⟨f.status, f.haltReason⟩

namespace Command

/-- The frame after a command. One that fails leaves what it had done up to the failure. -/
def after (c : Command) (f : Frame) : Frame :=
  match c.perform f with
  | .ok _ f => f
  | .error _ f => f

/-- The frame after commands. Unlike in `performAll`, a failure does not keep the later ones off. -/
def afterAll (cs : List Command) (f : Frame) : Frame := cs.foldl (fun f c => c.after f) f

def haltsFor : Command → Option HaltReason
  | halt reason => some reason
  | _ => none

def turn : Command → Standing → Standing
  | setStatus status, s =>
    if s.status = .halted ∨ status = .halted then s else { s with status := status }
  | halt reason, s => ⟨.halted, some (s.reason.getD reason)⟩
  | suspend _, s => { s with status := .suspended }
  | resume _ _ _, s => if s.status = .suspended then { s with status := .executing } else s
  | _, s => s

section

variable (f : Frame)

theorem standing_setStatus (status : Status) :
    ((setStatus status).after f).standing = (setStatus status).turn f.standing := by
  simp only [after, perform, performSetStatus, Frame.setStatus, turn, Frame.standing]
  by_cases h : f.status = .halted ∨ status = .halted
  · simp [h]
  · simp [h]

/-- A resumption that fails half way has left the suspension all the same. -/
theorem standing_resume (offset len : Nat) (outcome : ChildOutcome) :
    ((resume offset len outcome).after f).standing =
      (resume offset len outcome).turn f.standing := by
  simp only [after, perform, performResume, Frame.resume, turn, Frame.standing]
  by_cases h : f.status = .suspended
  · simp only [h, ne_eq, not_true_eq_false, if_false, if_true, Frame.credit]
    cases f.gas.add? outcome.gas with
    | none => rfl
    | some gas =>
      simp only [Option.map_some]
      cases f.stack.push (Word.ofBool outcome.success) with
      | error reason => rfl
      | ok stack =>
        simp only [Frame.adopt]
        cases outcome.success <;> rfl
  · simp [h]

theorem standing_updateStack (change : Stack → Except HaltReason Stack) :
    (match updateStack change f with
      | .ok _ f => f
      | .error _ f => f).standing = f.standing := by
  unfold updateStack
  cases change f.stack <;> rfl

theorem standing_after (c : Command) : (c.after f).standing = c.turn f.standing := by
  cases c with
  | setStatus status => exact standing_setStatus f status
  | resume offset len outcome => exact standing_resume f offset len outcome
  | push w => exact standing_updateStack f (·.push w)
  | set n w => exact standing_updateStack f (·.set n w)
  | dup n => exact standing_updateStack f (·.dup n)
  | swap n => exact standing_updateStack f (·.swap n)
  | pop =>
    simp only [after, perform, performPop, turn]
    cases f.stack.pop <;> rfl
  | peek n =>
    simp only [after, perform, performPeek, turn]
    cases f.stack.peek n <;> rfl
  | pushReturn pc =>
    simp only [after, perform, performPushReturn, turn]
    cases f.returnStack.push pc <;> rfl
  | popReturn =>
    simp only [after, perform, performPopReturn, turn]
    cases f.returnStack.pop <;> rfl
  | charge amount =>
    simp only [after, perform, updateGas, Frame.charge, turn]
    cases f.gas.sub? amount <;> rfl
  | credit amount =>
    simp only [after, perform, updateGas, Frame.credit, turn]
    cases f.gas.add? amount <;> rfl
  | _ => rfl

end

theorem standing_afterAll (cs : List Command) : ∀ f : Frame,
    (afterAll cs f).standing = cs.foldl (fun s c => c.turn s) f.standing := by
  induction cs with
  | nil =>
    intro f
    rfl
  | cons c cs ih =>
    intro f
    simp only [List.foldl_cons, ← standing_after]
    exact ih (c.after f)

theorem reason_turn (c : Command) (s : Standing) : (c.turn s).reason = s.reason.or c.haltsFor := by
  cases c with
  | halt reason => cases h : s.reason <;> simp [turn, haltsFor, h]
  | setStatus status | resume offset len outcome =>
    simp only [turn, haltsFor, Option.or_none]
    split <;> rfl
  | _ => simp [turn, haltsFor]

theorem reason_foldl_turn (cs : List Command) : ∀ s : Standing,
    (cs.foldl (fun s c => c.turn s) s).reason = s.reason.or (cs.findSome? haltsFor) := by
  induction cs with
  | nil => simp
  | cons c cs ih =>
    intro s
    rw [List.foldl_cons, ih, reason_turn, Option.or_assoc, List.findSome?_cons]
    cases c.haltsFor <;> rfl

/-- Only a halt enters a halt, and only a suspension leaves one. -/
theorem halted_turn (c : Command) (s : Standing) : (c.turn s).status = .halted ↔
    (∃ reason, c = halt reason) ∨ s.status = .halted ∧ ∀ request, c ≠ suspend request := by
  cases c with
  | setStatus status =>
    by_cases h : s.status = .halted <;> by_cases hs : status = .halted <;> simp [turn, h, hs]
  | resume offset len outcome =>
    by_cases h : s.status = .suspended <;> simp [turn, h]
  | _ => simp [turn]

/-- There is a halt among the commands, and no suspension after the last one. -/
def HaltLasts (cs : List Command) : Prop :=
  ∃ before reason rest, cs = before ++ halt reason :: rest ∧ ∀ request, suspend request ∉ rest

theorem haltLasts_cons (c : Command) (cs : List Command) : HaltLasts (c :: cs) ↔
    ((∃ reason, c = halt reason) ∧ ∀ request, suspend request ∉ cs) ∨ HaltLasts cs := by
  constructor
  · rintro ⟨before, reason, rest, hcs, hrest⟩
    cases before with
    | nil =>
      obtain ⟨rfl, rfl⟩ := List.cons.inj hcs
      exact .inl ⟨⟨reason, rfl⟩, hrest⟩
    | cons b before =>
      obtain ⟨rfl, rfl⟩ := List.cons.inj hcs
      exact .inr ⟨before, reason, rest, rfl, hrest⟩
  · rintro (⟨⟨reason, rfl⟩, hcs⟩ | ⟨before, reason, rest, rfl, hrest⟩)
    · exact ⟨[], reason, cs, rfl, hcs⟩
    · exact ⟨c :: before, reason, rest, rfl, hrest⟩

theorem halted_foldl_turn (cs : List Command) : ∀ s : Standing,
    (cs.foldl (fun s c => c.turn s) s).status = .halted ↔
      (s.status = .halted ∧ ∀ request, suspend request ∉ cs) ∨ HaltLasts cs := by
  induction cs with
  | nil =>
    intro s
    simp [HaltLasts]
  | cons c cs ih =>
    intro s
    have hmem : (∀ request, suspend request ∉ c :: cs) ↔
        (∀ request, c ≠ suspend request) ∧ ∀ request, suspend request ∉ cs := by
      simp only [List.mem_cons, not_or, forall_and, ne_eq, eq_comm (a := c)]
    rw [List.foldl_cons, ih, halted_turn, haltLasts_cons, hmem, or_and_right, and_assoc, or_assoc,
      or_left_comm]

/--
Whatever is done to a new frame, it shows the reason of its first halt from then on, and it is
halted exactly if it was not suspended since it was halted last.
-/
theorem halt_lasts_until_suspended (message : Message) (limits : Limits) (cs : List Command) :
    (afterAll cs (Frame.start message limits)).haltReason = cs.findSome? haltsFor ∧
      ((afterAll cs (Frame.start message limits)).status = .halted ↔ HaltLasts cs) := by
  have hstanding := standing_afterAll cs (Frame.start message limits)
  have hreason := reason_foldl_turn cs (Frame.start message limits).standing
  have hhalted := halted_foldl_turn cs (Frame.start message limits).standing
  rw [← hstanding] at hreason hhalted
  have hnew : (Frame.start message limits).standing.status ≠ .halted := by
    simp [Frame.standing, Frame.start]
  refine ⟨hreason, hhalted.trans ?_⟩
  simp only [hnew, false_and, false_or]

/-- A halted frame that is suspended is not halted any more, and it can go on to succeed. -/
theorem suspend_ends_halt :
    (afterAll [halt .badInstruction, suspend {}] (Frame.start {} {})).standing =
        ⟨.suspended, some .badInstruction⟩ ∧
      (afterAll [halt .badInstruction, suspend {}, resume 0 0 { success := true },
        setStatus .succeeded] (Frame.start {} {})).standing =
        ⟨.succeeded, some .badInstruction⟩ := by
  decide

end Command

end MeteredVm
