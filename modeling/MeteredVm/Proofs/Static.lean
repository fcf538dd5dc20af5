import MeteredVm.Proofs.Evaluation

/-!
# MeteredVm.Proofs.Static

A static message changes nothing.

A static frame can ask only for static children that receive no value, so all frames above it are
static too. None of them writes to storage, to the log or to the refund, and the substates that
they open stay empty.

* `Frame.Quiet`: the invariant of such a frame; `Frame.Steps.quiet` and `Frame.resumed_quiet` keep
  it, and a step leaves the world as it is.
* `CallTree.QuietAbove`: the frames above some point are quiet and have changed nothing.
  `Executor.quietAbove_of_transition` keeps it while there are any.
* `Executor.process_static`: what becomes of a static message, and of each static call.
-/

namespace MeteredVm

namespace World

/-- The world inside `n` substates in which nothing has changed. -/
def entered (w : World) : Nat → World
  | 0 => w
  | n + 1 => (w.entered n).enter

theorem over_empty (changes : Changes) : ({} : Changes).over changes = changes := by
  have hbalances : changes.balances ∪ ∅ = changes.balances :=
    Std.ExtTreeMap.ext_getElem? fun a => by simp [Std.ExtTreeMap.getElem?_union]
  have hstorages : changes.storages ∪ ∅ = changes.storages :=
    Std.ExtTreeMap.ext_getElem? fun cell => by simp [Std.ExtTreeMap.getElem?_union]
  unfold Changes.over
  rw [hbalances, hstorages]

/-- A substate without changes may be kept or dropped. -/
theorem leave_enter (w : World) (merge : Merge) : w.enter.leave merge = .ok w := by
  simp [leave, enter, over_empty]

theorem alike_entered (w : World) (n : Nat) : w.Alike (w.entered n) := by
  induction n with
  | zero => exact .refl w
  | succ n ih => exact ih.trans (alike_enter _)

theorem transfer_zero (w : World) (source target : Address) :
    w.transfer source target 0 = some w := by
  simp [transfer]

end World

/-- The request describes a child that cannot change the world, and does not change it to start. -/
def MessageRequest.IsQuiet (request : MessageRequest) : Prop :=
  request.isStatic = true ∧ request.transferValue = 0

def ChildOutcome.IsQuiet (outcome : ChildOutcome) : Prop :=
  outcome.logs = [] ∧ outcome.refund = 0

theorem Call.requested_quiet {kind : CallKind} {f : Frame} (gas : Gas) (hs : f.isStatic = true)
    (hv : value kind f = 0) : (requested kind f gas).IsQuiet := by
  cases kind with
  | call => exact ⟨hs, hv⟩
  | delegateCall => exact ⟨hs, rfl⟩
  | staticCall => exact ⟨rfl, rfl⟩

namespace Instruction

variable {fees : FeeSchedule} {f : Frame} {w : World} {i : Instruction}

theorem quiet_of_clear (hs : f.isStatic = true) (hc : i.haltCondition fees f = none) :
    i ≠ .storageStore ∧ (∀ n, i ≠ .log n) ∧ ∀ kind, i = .call kind → Call.value kind f = 0 := by
  refine ⟨?_, ?_, ?_⟩
  · rintro rfl
    simp [haltCondition, storeHalt, hs] at hc
    split at hc <;> cases hc
  · rintro n rfl
    simp [haltCondition, writeHalt, hs] at hc
  · rintro kind rfl
    simp only [haltCondition, writeHalt, hs, Bool.true_and] at hc
    split at hc
    · cases hc
    · rename_i hv
      simpa using hv

end Instruction

namespace Frame

structure Quiet (f : Frame) : Prop where
  static : f.isStatic = true
  logs : f.logs = []
  refund : f.refund = 0
  pending : ∀ request, f.pending = some request → request.IsQuiet

theorem start_quiet {message : Message} (limits : Limits) (h : message.isStatic = true) :
    (Frame.start message limits).Quiet where
  static := h
  logs := rfl
  refund := rfl
  pending := by simp [Frame.start]

section

variable {fees : FeeSchedule} {f f' : Frame} {w w' : World}

theorem Steps.quiet {s : Step} (hf : f.Quiet) (h : f.Steps fees w s f' w') :
    f'.Quiet ∧ w' = w := by
  have hpending : ∀ request, f'.pending = some request → request.IsQuiet := by
    intro request hr
    rcases h.pending_cases with hp | ⟨kind, sig, cost, gas, hpasses, hp⟩
    · exact hf.pending request (hp.symm.trans hr)
    · obtain rfl := Option.some.inj (hp.symm.trans hr)
      obtain ⟨-, -, hcall⟩ :=
        Instruction.quiet_of_clear (f := f.facing sig) hf.static hpasses.clear
      exact Call.requested_quiet gas hf.static (hcall kind rfl)
  cases h with
  | refused sig reason => exact ⟨⟨hf.static, hf.logs, hf.refund, hpending⟩, rfl⟩
  | performed i p sig cost hsig hp =>
    obtain ⟨hstore, hlog, -⟩ :=
      Instruction.quiet_of_clear (f := f.facing sig) hf.static hp.clear
    refine ⟨⟨?_, ?_, ?_, hpending⟩, Instruction.worldAfter_of_ne hstore⟩
    · exact (congrArg Message.isStatic message_performed).trans hf.static
    · exact (logs_performed hlog).trans hf.logs
    · exact (refund_performed hstore).trans hf.refund

theorem child_quiet {request : MessageRequest} (f : Frame) (code : Code) (limits : Limits)
    (h : request.IsQuiet) : (f.child request code limits).Quiet :=
  start_quiet limits h.1

theorem childOutcome_quiet (hf : f.Quiet) : f.childOutcome.IsQuiet := by
  simp [childOutcome, ChildOutcome.IsQuiet, hf.logs, hf.refund]

theorem resumed_quiet {request : MessageRequest} {outcome : ChildOutcome} (gas : Gas)
    (hf : f.Quiet) (ho : outcome.IsQuiet) : (f.resumed request outcome gas).Quiet where
  static := hf.static
  logs := by simp [resumed, hf.logs, ho.1]
  refund := by
    have hzero : MeteredVm.addRefund 0 0 = 0 := by decide
    simp [resumed, hf.refund, ho.2, hzero]
  pending := by simp [resumed]

end

def AsksQuietly (f : Frame) : Prop :=
  ∀ request, f.pending = some request → request.kind = .staticCall → request.IsQuiet

theorem lasting_asksQuietly (c : Rules) : Frame.Lasting c AsksQuietly where
  start := by
    intro message limits request hr
    cases hr
  steps := by
    intro f f' w w' s hf _ h request hr hk
    rcases h.pending_cases with hp | ⟨kind, sig, cost, gas, -, hp⟩
    · exact hf request (hp.symm.trans hr) hk
    · obtain rfl := Option.some.inj (hp.symm.trans hr)
      cases kind with
      | staticCall => exact ⟨rfl, rfl⟩
      | call | delegateCall => cases hk
  resumed := by
    intro f request outcome gas _ _ _ request hr
    cases hr

end Frame

/-- The frames above `lower` are quiet, and the substates that they opened over `w` are empty. -/
def CallTree.QuietAbove (lower : List Frame) (w : World) (t : CallTree) : Prop :=
  ∃ upper, upper ≠ [] ∧ t.frames = upper ++ lower ∧ (∀ f ∈ upper, f.Quiet) ∧
    t.world = w.entered upper.length

namespace Executor

open CallTree

section

variable {c r : Rules} {t t' : CallTree} {lower : List Frame} {w : World}

theorem quietAbove_of_transition (hq : t.QuietAbove lower w) (h : t.Transition c r t')
    (hl : lower.length < t'.frames.length) : t'.QuietAbove lower w := by
  obtain ⟨upper, hne, hframes, hquiet, hworld⟩ := hq
  obtain ⟨f, upper, rfl⟩ := List.exists_cons_of_ne_nil hne
  rw [List.forall_mem_cons] at hquiet
  rw [List.cons_append] at hframes
  have hfirst : ∀ {g : Frame}, g.Quiet → ∀ f ∈ g :: upper, f.Quiet := by
    intro g hg
    rw [List.forall_mem_cons]
    exact ⟨hg, hquiet.2⟩
  cases h with
  | @stepped f₁ f' _ _ before _ steps after =>
    obtain ⟨rfl, rfl⟩ := List.cons.inj (hframes.symm.trans before)
    obtain ⟨hf', hw⟩ := steps.quiet hquiet.1
    exact ⟨f' :: upper, by simp, after, hfirst hf', hw.trans hworld⟩
  | refused before _ _ _ _ after hw =>
    obtain ⟨rfl, rfl⟩ := List.cons.inj (hframes.symm.trans before)
    exact ⟨_ :: upper, by simp, after, hfirst (Frame.resumed_quiet _ hquiet.1 ⟨rfl, rfl⟩),
      hw.trans hworld⟩
  | started before _ waits _ transferred after =>
    obtain ⟨rfl, rfl⟩ := List.cons.inj (hframes.symm.trans before)
    have hrequest := hquiet.1.pending _ waits.pending
    rw [hrequest.2, World.transfer_zero, hworld] at transferred
    refine ⟨_ :: f :: upper, by simp, after, ?_, (Option.some.inj transferred).symm⟩
    rw [List.forall_mem_cons]
    exact ⟨Frame.child_quiet f _ _ hrequest, hfirst hquiet.1⟩
  | @returned child parent rest _ _ before _ _ _ _ left after =>
    obtain ⟨rfl, hrest⟩ := List.cons.inj (hframes.symm.trans before)
    cases upper with
    | nil =>
      -- the last frame above `lower` is gone
      rw [List.nil_append] at hrest
      rw [after, hrest] at hl
      exact absurd hl (Nat.lt_irrefl _)
    | cons g upper =>
      obtain ⟨rfl, rfl⟩ := List.cons.inj hrest
      rw [List.forall_mem_cons] at hquiet
      rw [hworld] at left
      have hleave := (w.entered (upper.length + 1)).leave_enter f.status.merge
      refine ⟨_ :: upper, by simp, after, ?_, (Except.ok.inj (hleave.symm.trans left)).symm⟩
      rw [List.forall_mem_cons]
      exact ⟨Frame.resumed_quiet _ hquiet.2.1 (Frame.childOutcome_quiet hquiet.1), hquiet.2.2⟩

theorem quietAbove_of_within (hs : t.Sound) (hq : t.QuietAbove lower w)
    (h : Within ⟨.ofRules c, r⟩ (lower.length + 1) t t') : t'.QuietAbove lower w := by
  induction h with
  | refl => exact hq
  | move before next high ih =>
    have hs' := (sound_of_within hs before).1
    exact quietAbove_of_transition ih (advance_transition hs' next) high

/-- The last of the quiet frames ends, and leaves `w` as it was. -/
theorem quiet_left {f : Frame} {u : World} (hq : t.QuietAbove lower w) (h : t.frames = f :: lower)
    (hl : t.world.leave f.status.merge = .ok u) : f.childOutcome.IsQuiet ∧ u = w := by
  obtain ⟨upper, -, hframes, hquiet, hworld⟩ := hq
  obtain rfl : upper = [f] := List.append_cancel_right (hframes.symm.trans h)
  rw [hworld] at hl
  exact ⟨Frame.childOutcome_quiet (hquiet f List.mem_cons_self),
    (Except.ok.inj ((w.leave_enter f.status.merge).symm.trans hl)).symm⟩

theorem exists_returns (c r : Rules) {f : Frame} {rest : List Frame} (hs : t.Sound)
    (h : t.frames = f :: rest) (he : f.status = .executing) :
    ∃ f' t', Returns ⟨.ofRules c, r⟩ t rest f' t' := by
  obtain ⟨ended, t', hreturns, -⟩ := run_evaluates c r t.code _ (Nat.lt_succ_self _) hs h he
    (.refl t.world) fun _ => rfl
  exact ⟨ended.1, t', hreturns⟩

end

/-- The child that was started in `t₁` changes nothing as long as it runs, and then it returns. -/
structure Undisturbed (x : Executor) (t t₁ : CallTree) : Prop where
  during : ∀ t₂, x.Within t₁.frames.length t₁ t₂ → t.world.SameAnswers t₂.world
  after : ∃ t₂ child t₃, x.Within t₁.frames.length t₁ t₂ ∧ t₂.frames = child :: t.frames ∧
    child.status.isTerminal = true ∧ x.advance t₂ = .running t₃ ∧
    child.childOutcome.logs = [] ∧ child.childOutcome.refund = 0 ∧ t.world.SameAnswers t₃.world

section

variable {c r : Rules} {t t₁ : CallTree}

theorem undisturbed_of_started (hs : t.Sound) (h : advance ⟨.ofRules c, r⟩ t = .running t₁)
    (hl : t₁.frames.length = t.frames.length + 1)
    (hasks : ∀ f rest request, t.frames = f :: rest → f.pending = some request →
      request.IsQuiet) : Undisturbed ⟨.ofRules c, r⟩ t t₁ := by
  have hs₁ := (sound_of_advance hs h).1
  cases advance_transition hs h with
  | stepped before _ _ after | refused before _ _ _ _ after =>
    rw [before, after] at hl
    exact absurd hl (Nat.ne_of_lt (Nat.lt_succ_self _))
  | returned before _ _ _ _ _ after =>
    rw [before, after] at hl
    simp at hl
  | @started f rest request before _ waits _ transferred after =>
    have hrequest := hasks f rest request before waits.pending
    rw [hrequest.2, World.transfer_zero] at transferred
    rw [← before] at after
    have hquiet : t₁.QuietAbove t.frames t.world := by
      refine ⟨[_], by simp, after, ?_, (Option.some.inj transferred).symm⟩
      simpa using Frame.child_quiet f _ _ hrequest
    refine ⟨?_, ?_⟩
    · intro t₂ hmoves
      rw [hl] at hmoves
      obtain ⟨upper, -, -, -, hworld⟩ := quietAbove_of_within hs₁ hquiet hmoves
      rw [hworld]
      exact (t.world.alike_entered _).sameAnswers
    · obtain ⟨child, t₂, hreturns⟩ := exists_returns c r hs₁ after rfl
      have hs₂ := (sound_of_within hs₁ hreturns.moves).1
      have hframes := hreturns.frames
      rw [before] at hframes
      obtain ⟨-, t₃, -, hback, -, hleft, -⟩ :=
        advance_returned (c := c) (r := r) hs₂ hframes hreturns.ended waits
      obtain ⟨⟨hlogs, hrefund⟩, hworld⟩ :=
        quiet_left (quietAbove_of_within hs₁ hquiet hreturns.moves) hreturns.frames hleft
      refine ⟨t₂, child, t₃, ?_, hreturns.frames, hreturns.ended, hback, hlogs, hrefund,
        .of_eq hworld⟩
      rw [hl]
      exact hreturns.moves

end

/--
A static message finishes with an empty log and no refund, and every account is as before. The
same holds of each static call in any message: nothing changes from its start to its return.
-/
theorem process_static (c r : Rules) (message : Message) (limits : Limits) (world : World)
    (codes : CodeCache) (journal : Journal) :
    (∃ outcome t, process ⟨.ofRules c, r⟩
        (Frame.start { message with isStatic := true } limits) world codes journal =
          .finished outcome t ∧
      outcome.logs = [] ∧ outcome.refund = 0 ∧ world.SameAnswers t.world) ∧
    ∀ n t t₁ parent rest request,
      run ⟨.ofRules c, r⟩ n (begin (Frame.start message limits) world codes journal) =
        .running t →
      t.frames = parent :: rest → parent.pending = some request → request.kind = .staticCall →
      advance ⟨.ofRules c, r⟩ t = .running t₁ → t₁.frames.length = t.frames.length + 1 →
      Undisturbed ⟨.ofRules c, r⟩ t t₁ := by
  refine ⟨?_, ?_⟩
  · have hs := begin_sound { message with isStatic := true } limits world codes journal
    obtain ⟨f, t', hreturns⟩ := exists_returns c r hs rfl rfl
    have hs' := (sound_of_within hs hreturns.moves).1
    obtain ⟨t, hlast, hleft, -⟩ := advance_finished (x := ⟨.ofRules c, r⟩) hs' hreturns.frames
      hreturns.ended
    have hquiet : (begin (Frame.start { message with isStatic := true } limits) world codes
        journal).QuietAbove [] world := by
      refine ⟨[_], by simp, rfl, ?_, rfl⟩
      simpa using Frame.start_quiet limits rfl
    obtain ⟨⟨hlogs, hrefund⟩, hworld⟩ :=
      quiet_left (quietAbove_of_within hs hquiet hreturns.moves) hreturns.frames hleft
    exact ⟨f.outcome, t, process_of_within hreturns.moves hlast, hlogs, hrefund, .of_eq hworld⟩
  · intro n t t₁ parent rest request h hframes hp hk ha hl
    have hs := begin_sound message limits world codes journal
    obtain ⟨hst, -, -⟩ := run_running c r n hs h
    have hasks : parent.AsksQuietly := run_begin_lasting message limits world codes journal
      (Frame.lasting_asksQuietly c) r n h parent (by simp [hframes])
    refine undisturbed_of_started hst ha hl ?_
    intro f rest' request' hf hr
    obtain ⟨rfl, rfl⟩ := List.cons.inj (hframes.symm.trans hf)
    obtain rfl := Option.some.inj (hp.symm.trans hr)
    exact hasks request hp hk

def probe : Message where
  code := Code.ofBytes #[0x60, 0, 0x60, 0, 0x60, 0, 0x60, 0, 0x60, 1, 0x61, 0x75, 0x30, 0xfa] 0
  initialGas := 100000

def probed : CodeCache :=
  ({} : CodeCache).insert 1 (Code.ofBytes #[0x60, 1, 0x60, 0, 0x55] 0)

def probing (n : Nat) : Progress :=
  run ⟨.ofRules .london, .london⟩ n (begin (Frame.start probe {}) { base := {} } probed [])

set_option maxRecDepth 8000 in
theorem probing_calls : (probing 7).outcome? = none ∧ (probing 7).failure? = none ∧
    ((probing 7).tree.frames.map fun f => f.pending.map (·.kind)) = [some .staticCall] := by
  decide +kernel

set_option maxRecDepth 8000 in
theorem probing_starts : (probing 8).outcome? = none ∧ (probing 8).failure? = none ∧
    (probing 8).tree.frames.length = 2 := by
  decide +kernel

theorem process_static_probe :
    ∃ t t₁, probing 7 = .running t ∧ probing 8 = .running t₁ ∧
      Undisturbed ⟨.ofRules .london, .london⟩ t t₁ := by
  have hrun := Progress.eq_running probing_calls.1 probing_calls.2.1
  have hnext := Progress.eq_running probing_starts.1 probing_starts.2.1
  have hframes := probing_calls.2.2
  generalize (probing 7).tree = t at hrun hframes
  obtain ⟨parent, hf, hpending⟩ := List.map_eq_singleton_iff.mp hframes
  obtain ⟨request, hp, hk⟩ := Option.map_eq_some_iff.mp hpending
  have hadvance : advance ⟨.ofRules .london, .london⟩ t = .running (probing 8).tree := by
    have hlast : run ⟨.ofRules .london, .london⟩ 1 t = .running (probing 8).tree :=
      (run_add 7 1 hrun).symm.trans hnext
    rw [run] at hlast
    split at hlast
    · rename_i t₁ ha
      rw [ha]
      exact hlast
    · exact hlast
  have hlength : (probing 8).tree.frames.length = t.frames.length + 1 := by
    rw [probing_starts.2.2, hf]
    rfl
  exact ⟨t, _, hrun, hnext, (process_static .london .london probe {} { base := {} } probed []).2 7
    t _ parent [] request hrun hf hp hk hadvance hlength⟩

end Executor

end MeteredVm
