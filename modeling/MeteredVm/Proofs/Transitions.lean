import MeteredVm.Executor
import MeteredVm.Proofs.Soundness
import MeteredVm.Proofs.Substates

/-!
# MeteredVm.Proofs.Transitions

The moves of an executor for a set of rules.

A message that goes on makes one of four moves: the innermost frame executes an operation, the
child it waits for is refused, the child is started, or an ended child hands its outcome to the
frame around it. None of them fails.

* `CallTree.Sound`: the invariant of a message that runs.
* `CallTree.Transition`: the four moves, each with what made it due.
* `Executor.advance_refused`, `Executor.advance_started`, `Executor.advance_returned`: the moves
  around a nested call are made when they are due.
* `Executor.advance_cases`: a sound message makes one of the moves, or its last frame has ended.
* `Frame.Lasting`: a property of frames that new frames have, and that operations and resumptions
  keep. `CallTree.Transition.lasting`: a move keeps it for all frames.
-/

namespace MeteredVm

theorem Frame.gasBack_le (f : Frame) : f.gasBack.toNat ≤ f.gas.toNat := by
  unfold Frame.gasBack
  split
  · exact Nat.le_refl _
  · exact Nat.zero_le _

theorem Gas.exists_add? {a b : Gas} (h : a.toNat + b.toNat < 0x1_0000_0000_0000_0000) :
    ∃ g, a.add? b = some g :=
  Option.ne_none_iff_exists'.mp fun hn => absurd (Gas.add?_eq_none.mp hn) (Nat.not_le.mpr h)

namespace CallTree

def heldGas : List Frame → Nat
  | [] => 0
  | f :: rest => f.gas.toNat + heldGas rest

def stake (f : Frame) (rest : List Frame) : Nat := f.gas.toNat + heldGas rest + f.pendingGas

/-- The gas of the frames, and the gas of the child that was asked for and has not started. -/
def totalGas (t : CallTree) : Nat :=
  heldGas t.frames + (t.frames.head?.map Frame.pendingGas).getD 0

/-- The invariant: all but the innermost frame wait, and each frame has a substate of its own. -/
structure Sound (t : CallTree) : Prop where
  inhabited : t.frames ≠ []
  frames : ∀ f ∈ t.frames, f.Sound
  waiting : ∀ f ∈ t.frames.tail, f.status = .suspended
  substates : t.frames.length ≤ t.world.outer.length
  gas : t.totalGas < 0x1_0000_0000_0000_0000

inductive Transition (c r : Rules) (t t' : CallTree) : Prop
  | stepped {f f' : Frame} {rest : List Frame} {s : Step} (before : t.frames = f :: rest)
    (executing : f.status = .executing) (steps : f.Steps c.tariff.fees t.world s f' t'.world)
    (after : t'.frames = f' :: rest) (codes : t'.codes = t.codes)
  | refused {f : Frame} {rest : List Frame} {request : MessageRequest} {gas : Gas}
    (before : t.frames = f :: rest) (suspended : f.status = .suspended)
    (waits : f.Waits request)
    (reason : r.callDepth.toNat ≤ f.depth ∨
      t.world.enter.transfer request.caller request.address request.transferValue = none)
    (credited : f.gas.add? request.gas = some gas)
    (after : t'.frames = f.resumed request (.notStarted request.gas) gas :: rest)
    (world : t'.world = t.world) (codes : t'.codes = t.codes)
  | started {f : Frame} {rest : List Frame} {request : MessageRequest}
    (before : t.frames = f :: rest) (suspended : f.status = .suspended)
    (waits : f.Waits request) (shallow : f.depth < r.callDepth.toNat)
    (transferred : t.world.enter.transfer request.caller request.address request.transferValue =
      some t'.world)
    (after : t'.frames = f.child request (t.code request.codeAddress) r.limits :: f :: rest)
    (codes : ∀ a, t'.code a = t.code a)
  | returned {child parent : Frame} {rest : List Frame} {request : MessageRequest} {gas : Gas}
    (before : t.frames = child :: parent :: rest) (ended : child.status.isTerminal = true)
    (suspended : parent.status = .suspended) (waits : parent.Waits request)
    (credited : parent.gas.add? child.gasBack = some gas)
    (left : t.world.leave child.status.merge = .ok t'.world)
    (after : t'.frames = parent.resumed request child.childOutcome gas :: rest)
    (codes : t'.codes = t.codes)

theorem world_remember (t : CallTree) (a : Address) : (t.remember a).world = t.world := by
  unfold remember
  split <;> rfl

theorem code_congr {t t' : CallTree} (hc : t'.codes = t.codes)
    (hb : t'.world.base = t.world.base) (a : Address) : t'.code a = t.code a := by
  simp only [code, World.code, World.version, hc, hb]

theorem code_remember (t : CallTree) (a b : Address) : (t.remember a).code b = t.code b := by
  unfold remember
  split
  · rfl
  · simp only [code, Std.ExtTreeMap.getElem?_insert]
    by_cases h : a = b
    · subst h
      simp
    · simp [h]

section

variable {t : CallTree} {f : Frame} {rest : List Frame}

theorem totalGas_cons (h : t.frames = f :: rest) :
    t.totalGas = stake f rest := by
  simp [totalGas, stake, heldGas, h]

theorem Sound.head (hs : t.Sound) (h : t.frames = f :: rest) : f.Sound :=
  hs.frames f (by simp [h])

theorem Sound.tail (hs : t.Sound) (h : t.frames = f :: rest) :
    ∀ p ∈ rest, p.Sound ∧ p.status = .suspended := by
  intro p hp
  exact ⟨hs.frames p (by simp [h, hp]), hs.waiting p (by simp [h, hp])⟩

theorem Sound.depth (hs : t.Sound) (h : t.frames = f :: rest) :
    (f :: rest).length ≤ t.world.outer.length := h ▸ hs.substates

theorem Sound.exists_leave (hs : t.Sound) (h : t.frames = f :: rest) (merge : Merge) :
    ∃ w, t.world.leave merge = .ok w := by
  obtain ⟨changes, outer, ho⟩ : ∃ changes outer, t.world.outer = changes :: outer :=
    List.exists_cons_of_length_pos (Nat.lt_of_lt_of_le (Nat.zero_lt_succ _) (hs.depth h))
  obtain ⟨changes', hl, -⟩ := World.leave_cons merge ho
  exact ⟨_, hl⟩

theorem Sound.refused_lt {request : MessageRequest} (hs : t.Sound) (h : t.frames = f :: rest)
    (hf : f.status = .suspended) (hp : f.pending = some request) :
    f.gas.toNat + request.gas.toNat < 0x1_0000_0000_0000_0000 := by
  have hlt := hs.gas
  have hpending : f.pendingGas = request.gas.toNat := by
    simp [Frame.pendingGas, hf, hp]
  rw [totalGas_cons h, stake] at hlt
  omega

theorem Sound.returned_lt {child parent : Frame} (hs : t.Sound)
    (h : t.frames = child :: parent :: rest) :
    parent.gas.toNat + child.gasBack.toNat < 0x1_0000_0000_0000_0000 := by
  have hlt := hs.gas
  have hback := child.gasBack_le
  rw [totalGas_cons h, stake, heldGas] at hlt
  omega

theorem deliver_eq {parent : Frame} {request : MessageRequest} {gas : Gas}
    (outcome : MessageRequest → ChildOutcome) (hs : parent.status = .suspended)
    (hw : parent.Waits request) (hg : parent.gas.add? (outcome request).gas = some gas) :
    t.deliver parent rest outcome =
      .running { t with frames := parent.resumed request (outcome request) gas :: rest } := by
  have hr := Frame.resume_eq request hs hw.room hg
  simp only [deliver, hw.pending, hr]

end

end CallTree

namespace Executor

open CallTree

section

variable {c r : Rules} {t : CallTree} {f parent child : Frame} {rest : List Frame}
  {request : MessageRequest}

theorem advance_executing {x : Executor} {t' : CallTree} (h : t.frames = f :: rest)
    (hf : f.status = .executing) (ha : x.advance t = .running t') :
    ∃ s m, x.vm.step ⟨f, t.world, t.journal⟩ = .ok s m ∧ t'.frames = m.frame :: rest := by
  simp only [advance, h, hf, stepFrame] at ha
  split at ha
  · rename_i s m hstep
    cases ha
    exact ⟨s, m, hstep, rfl⟩
  · cases ha

theorem advance_suspended {x : Executor} (h : t.frames = f :: rest) (hf : f.status = .suspended) :
    x.advance t = x.startChild t f rest := by
  simp only [advance, h, hf]

theorem advance_of_isTerminal {x : Executor} (hf : t.frames = f :: rest)
    (hs : f.status.isTerminal = true) : x.advance t = finish t f rest := by
  unfold advance
  rw [hf]
  dsimp only
  cases h : f.status with
  | executing | suspended =>
    rw [h] at hs
    cases hs
  | _ => rfl

theorem advance_stepped (h : t.frames = f :: rest) (hf : f.status = .executing) :
    ∃ s f' t', advance ⟨.ofRules c, r⟩ t = .running t' ∧
      f.Steps c.tariff.fees t.world s f' t'.world ∧ t'.frames = f' :: rest ∧
      t'.codes = t.codes := by
  obtain ⟨s, f', w', journal', hstep, hsteps⟩ :=
    Interpreter.step_ofRules c t.world t.journal hf
  simp only [advance, h, hf, stepFrame, hstep]
  exact ⟨s, f', _, rfl, hsteps, rfl, rfl⟩

theorem startChild_refused (c : Rules) (rest : List Frame) (hp : f.pending = some request)
    (hn : r.callDepth.toNat ≤ f.depth ∨
      t.world.enter.transfer request.caller request.address request.transferValue = none) :
    ∃ e, startChild ⟨.ofRules c, r⟩ t f rest = (t.record e).refuse f rest := by
  simp only [startChild_eq, hp]
  by_cases hdepth : r.callDepth.toNat ≤ f.depth
  · rw [if_pos hdepth]
    exact ⟨_, rfl⟩
  · rw [if_neg hdepth, hn.resolve_left hdepth]
    exact ⟨_, rfl⟩

/-- A call that cannot start: the frame goes on at once with the gas for the child. -/
theorem advance_refused_of_lt (h : t.frames = f :: rest) (hf : f.status = .suspended)
    (hw : f.Waits request) (hn : r.callDepth.toNat ≤ f.depth ∨
      t.world.enter.transfer request.caller request.address request.transferValue = none)
    (hlt : f.gas.toNat + request.gas.toNat < 0x1_0000_0000_0000_0000) :
    ∃ gas t', f.gas.add? request.gas = some gas ∧
      advance ⟨.ofRules c, r⟩ t = .running t' ∧
      t'.frames = f.resumed request (.notStarted request.gas) gas :: rest ∧
      t'.world = t.world ∧ t'.codes = t.codes := by
  obtain ⟨gas, hg⟩ := Gas.exists_add? hlt
  obtain ⟨e, hrefused⟩ := startChild_refused c rest hw.pending hn
  rw [advance_suspended h hf, hrefused, refuse,
    deliver_eq (fun request => .notStarted request.gas) hf hw hg]
  exact ⟨gas, _, hg, rfl, rfl, rfl, rfl⟩

theorem advance_refused (hs : t.Sound) (h : t.frames = f :: rest) (hf : f.status = .suspended)
    (hw : f.Waits request) (hn : r.callDepth.toNat ≤ f.depth ∨
      t.world.enter.transfer request.caller request.address request.transferValue = none) :
    ∃ gas t', f.gas.add? request.gas = some gas ∧
      advance ⟨.ofRules c, r⟩ t = .running t' ∧
      t'.frames = f.resumed request (.notStarted request.gas) gas :: rest ∧
      t'.world = t.world ∧ t'.codes = t.codes :=
  advance_refused_of_lt h hf hw hn (hs.refused_lt h hf hw.pending)

/-- A call that starts: the child is the innermost frame, in a substate of its own. -/
theorem advance_started {u : World} (h : t.frames = f :: rest) (hf : f.status = .suspended)
    (hp : f.pending = some request) (hd : f.depth < r.callDepth.toNat)
    (hu : t.world.enter.transfer request.caller request.address request.transferValue = some u) :
    ∃ t', advance ⟨.ofRules c, r⟩ t = .running t' ∧
      t'.frames = f.child request (t.code request.codeAddress) r.limits :: f :: rest ∧
      t'.world = u ∧ ∀ a, t'.code a = t.code a := by
  have hbelow := World.transfer_sameBelow hu
  have hcode : ∀ a, (({ t with world := u } : CallTree).remember request.codeAddress).code a =
      t.code a := by
    intro a
    rw [code_remember]
    refine code_congr ?_ hbelow.base a
    rfl
  simp only [advance_suspended h hf, startChild_eq, hp, if_neg (Nat.not_le.mpr hd), hu]
  refine ⟨_, rfl, ?_, world_remember _ _, hcode⟩
  rw [← hcode]

/-- A child that ended: its substate is closed, and its caller goes on with the outcome. -/
theorem advance_returned_of_lt {w : World} (h : t.frames = child :: parent :: rest)
    (hc : child.status.isTerminal = true) (hsuspended : parent.status = .suspended)
    (hw : parent.Waits request) (hl : t.world.leave child.status.merge = .ok w)
    (hlt : parent.gas.toNat + child.gasBack.toNat < 0x1_0000_0000_0000_0000) :
    ∃ gas t', parent.gas.add? child.gasBack = some gas ∧
      advance ⟨.ofRules c, r⟩ t = .running t' ∧
      t'.frames = parent.resumed request child.childOutcome gas :: rest ∧
      t.world.leave child.status.merge = .ok t'.world ∧ t'.codes = t.codes := by
  obtain ⟨gas, hg⟩ := Gas.exists_add? hlt
  rw [advance_of_isTerminal h hc, finish, hl]
  dsimp only
  rw [deliver_eq (fun _ => child.childOutcome) hsuspended hw hg]
  exact ⟨gas, _, hg, rfl, rfl, rfl, rfl⟩

theorem advance_returned (hs : t.Sound) (h : t.frames = child :: parent :: rest)
    (hc : child.status.isTerminal = true) (hw : parent.Waits request) :
    ∃ gas t', parent.gas.add? child.gasBack = some gas ∧
      advance ⟨.ofRules c, r⟩ t = .running t' ∧
      t'.frames = parent.resumed request child.childOutcome gas :: rest ∧
      t.world.leave child.status.merge = .ok t'.world ∧ t'.codes = t.codes := by
  obtain ⟨w, hl⟩ := hs.exists_leave h child.status.merge
  exact advance_returned_of_lt h hc (hs.tail h parent List.mem_cons_self).2 hw hl (hs.returned_lt h)

/-- The outermost frame ended: its substate is closed for good. -/
theorem advance_finished {x : Executor} (hs : t.Sound) (h : t.frames = [f])
    (hf : f.status.isTerminal = true) :
    ∃ t', x.advance t = .finished f.outcome t' ∧ t.world.leave f.status.merge = .ok t'.world ∧
      t'.frames = [] := by
  obtain ⟨w, hl⟩ := hs.exists_leave h f.status.merge
  refine ⟨{ t with world := w, frames := [] }, ?_, hl, rfl⟩
  rw [advance_of_isTerminal h hf, finish, hl]

theorem refused_or_started (r : Rules) (f : Frame) (request : MessageRequest) (w : World) :
    (r.callDepth.toNat ≤ f.depth ∨
        w.enter.transfer request.caller request.address request.transferValue = none) ∨
      f.depth < r.callDepth.toNat ∧ ∃ u,
        w.enter.transfer request.caller request.address request.transferValue = some u := by
  rcases Nat.lt_or_ge f.depth r.callDepth.toNat with hd | hd
  · cases w.enter.transfer request.caller request.address request.transferValue with
    | none => exact .inl (.inr rfl)
    | some u => exact .inr ⟨hd, u, rfl⟩
  · exact .inl (.inl hd)

/-- A sound message makes one of the four moves, unless its last frame has ended. -/
theorem advance_cases (c r : Rules) (hs : t.Sound) :
    (∃ t', advance ⟨.ofRules c, r⟩ t = .running t' ∧ t.Transition c r t') ∨
      ∃ f t', t.frames = [f] ∧ f.status.isTerminal = true ∧
        advance ⟨.ofRules c, r⟩ t = .finished f.outcome t' ∧ t'.frames = [] := by
  obtain ⟨f, rest, hframes⟩ := List.exists_cons_of_ne_nil hs.inhabited
  cases hstatus : f.status with
  | executing =>
    obtain ⟨s, f', t', ha, hsteps, hafter, hcodes⟩ :=
      advance_stepped (c := c) (r := r) hframes hstatus
    exact .inl ⟨t', ha, .stepped hframes hstatus hsteps hafter hcodes⟩
  | suspended =>
    obtain ⟨request, hw⟩ := (hs.head hframes).waiting hstatus
    rcases refused_or_started r f request t.world with hn | ⟨hd, u, hu⟩
    · obtain ⟨gas, t', hg, ha, hafter, hworld, hcodes⟩ :=
        advance_refused (c := c) hs hframes hstatus hw hn
      exact .inl ⟨t', ha, .refused hframes hstatus hw hn hg hafter hworld hcodes⟩
    · obtain ⟨t', ha, hafter, hworld, hcodes⟩ :=
        advance_started (c := c) hframes hstatus hw.pending hd hu
      exact .inl ⟨t', ha, .started hframes hstatus hw hd (hworld ▸ hu) hafter hcodes⟩
  | _ =>
    have hended : f.status.isTerminal = true := by
      rw [hstatus]
      rfl
    cases rest with
    | nil =>
      obtain ⟨t', ha, -, hafter⟩ := advance_finished (x := ⟨.ofRules c, r⟩) hs hframes hended
      exact .inr ⟨f, t', hframes, hended, ha, hafter⟩
    | cons parent rest =>
      obtain ⟨hparent, hsuspended⟩ := hs.tail hframes parent List.mem_cons_self
      obtain ⟨request, hw⟩ := hparent.waiting hsuspended
      obtain ⟨gas, t', hg, ha, hafter, hleft, hcodes⟩ :=
        advance_returned (c := c) (r := r) hs hframes hended hw
      exact .inl ⟨t', ha, .returned hframes hended hsuspended hw hg hleft hafter hcodes⟩

theorem advance_transition {t' : CallTree} (hs : t.Sound)
    (h : advance ⟨.ofRules c, r⟩ t = .running t') : t.Transition c r t' := by
  rcases advance_cases c r hs with ⟨t₁, ha, htransition⟩ | ⟨f, t₁, -, -, ha, -⟩
  · cases h.symm.trans ha
    exact htransition
  · cases h.symm.trans ha

end

end Executor

/-- What new frames have, and operations and resumptions keep. -/
structure Frame.Lasting (c : Rules) (P : Frame → Prop) : Prop where
  start : ∀ message limits, P (Frame.start message limits)
  steps : ∀ {f f' : Frame} {w w' : World} {s : Step}, P f → f.status = .executing →
    f.Steps c.tariff.fees w s f' w' → P f'
  resumed : ∀ {f : Frame} {request : MessageRequest} {outcome : ChildOutcome} {gas : Gas}, P f →
    f.status = .suspended → f.Waits request → P (f.resumed request outcome gas)

theorem CallTree.Transition.lasting {c r : Rules} {P : Frame → Prop} {t t' : CallTree}
    (h : t.Transition c r t') (hP : Frame.Lasting c P) (ht : ∀ f ∈ t.frames, P f) :
    ∀ f ∈ t'.frames, P f := by
  cases h with
  | stepped before executing steps after =>
    rw [before, List.forall_mem_cons] at ht
    rw [after, List.forall_mem_cons]
    exact ⟨hP.steps ht.1 executing steps, ht.2⟩
  | refused before suspended waits _ _ after =>
    rw [before, List.forall_mem_cons] at ht
    rw [after, List.forall_mem_cons]
    exact ⟨hP.resumed ht.1 suspended waits, ht.2⟩
  | started before _ _ _ _ after =>
    rw [before] at ht
    rw [after, List.forall_mem_cons]
    exact ⟨hP.start _ _, ht⟩
  | returned before _ suspended waits _ _ after =>
    rw [before, List.forall_mem_cons, List.forall_mem_cons] at ht
    rw [after, List.forall_mem_cons]
    exact ⟨hP.resumed ht.2.1 suspended waits, ht.2.2⟩

end MeteredVm
