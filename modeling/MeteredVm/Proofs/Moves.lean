import MeteredVm.Proofs.Transitions

/-!
# MeteredVm.Proofs.Moves

What the moves of an executor for a set of rules take from a message and the calls it makes.

A message has three measures. `CallTree.totalGas` is the gas of its frames and of the child that
one of them asks for; no move makes more of it. `CallTree.credit` pays for the operations, one
each, and `CallTree.fuel` for the moves.

* `CallTree.Follows` and `CallTree.Transition.follows`: a move keeps the invariant and takes its
  payment. `Executor.advance_follows`: it does, or it ends the message. It never fails.
* `Executor.run_running` and `Executor.run_finished`: the same for many moves.
* `Executor.run_keeps` and `Executor.process_keeps`: what each move keeps holds at every point of a
  message. `Executor.run_begin_lasting`: what each of its frames has.
-/

namespace MeteredVm

namespace Status

/-- What the innermost frame adds to the operations that a message can still execute. -/
def credit : Status → Nat
  | executing => 1
  | suspended => 2
  | _ => 0

def fuel : Status → Nat
  | executing => 2
  | suspended => 5
  | _ => 1

theorem measures_of_isTerminal {s : Status} (h : s.isTerminal = true) :
    s.credit = 0 ∧ s.fuel = 1 ∧ s ≠ .suspended := by
  cases s with
  | executing | suspended => cases h
  | _ => exact ⟨rfl, rfl, by simp⟩

theorem ne_executing_of_isTerminal {s : Status} (h : s.isTerminal = true) : s ≠ .executing := by
  rintro rfl
  cases h

end Status

theorem Frame.Steps.measures {t : Tariff} {f f' : Frame} {w w' : World} {s : Step}
    (h : f.Steps t.fees w s f' w') (he : f.status = .executing) :
    f'.gas.toNat + f'.pendingGas ≤ f.gas.toNat ∧
      f'.gas.toNat + f'.pendingGas + f'.status.credit ≤ f.gas.toNat ∧
      3 * (f'.gas.toNat + f'.pendingGas) + f'.status.fuel < 3 * f.gas.toNat + 2 := by
  rcases h.account he with ⟨hs, hle⟩ | ⟨hs, hle⟩ | ⟨hs, hle⟩
  · have hp := f'.pendingGas_eq_zero (by simp [hs])
    rw [hp, hs]
    simp only [Status.credit, Status.fuel]
    omega
  · rw [hs]
    simp only [Status.credit, Status.fuel]
    omega
  · obtain ⟨hcredit, hfuel, hn⟩ := Status.measures_of_isTerminal hs
    rw [f'.pendingGas_eq_zero hn, hcredit, hfuel]
    omega

namespace CallTree

/-- A bound on the operations that the message can still execute. -/
def credit (t : CallTree) : Nat :=
  t.totalGas + (t.frames.head?.map (·.status.credit)).getD 0 + t.frames.tail.length

def fuel (t : CallTree) : Nat :=
  3 * t.totalGas + (t.frames.head?.map (·.status.fuel)).getD 0 + 2 * t.frames.tail.length

def executes (t : CallTree) : Bool := t.frames.head?.any (·.status = .executing)

inductive Follows (t : CallTree) : Progress → Prop
  | running {t' : CallTree} (sound : t'.Sound) (gas : t'.totalGas ≤ t.totalGas)
    (credit : t'.credit + t.executes.toNat ≤ t.credit) (fuel : t'.fuel < t.fuel) :
    Follows t (.running t')
  | finished {outcome : Outcome} {t' : CallTree} (gas : outcome.gas.toNat ≤ t.totalGas)
    (executes : t.executes = false) (ended : t'.frames = []) : Follows t (.finished outcome t')

section

variable {t : CallTree} {f : Frame} {rest : List Frame}

theorem credit_cons (h : t.frames = f :: rest) :
    t.credit = t.totalGas + f.status.credit + rest.length := by
  simp [credit, h]

theorem fuel_cons (h : t.frames = f :: rest) :
    t.fuel = 3 * t.totalGas + f.status.fuel + 2 * rest.length := by
  simp [fuel, h]

theorem executes_cons (h : t.frames = f :: rest) :
    t.executes = decide (f.status = .executing) := by
  simp [executes, h]

theorem Follows.of_frames {t' : CallTree} (f' : Frame) (rest' : List Frame)
    (h : t.frames = f :: rest) (h' : t'.frames = f' :: rest') (hs : t.Sound) (hf' : f'.Sound)
    (hrest : ∀ p ∈ rest', p.Sound ∧ p.status = .suspended)
    (hw : (f' :: rest').length ≤ t'.world.outer.length)
    (hgas : stake f' rest' ≤ stake f rest)
    (hcredit : stake f' rest' + f'.status.credit + rest'.length +
      (decide (f.status = .executing)).toNat ≤ stake f rest + f.status.credit + rest.length)
    (hfuel : 3 * stake f' rest' + f'.status.fuel + 2 * rest'.length <
      3 * stake f rest + f.status.fuel + 2 * rest.length) :
    t.Follows (.running t') := by
  have hg := totalGas_cons h
  have hg' := totalGas_cons h'
  refine .running ⟨?_, ?_, ?_, ?_, ?_⟩ ?_ ?_ ?_
  · simp [h']
  · rw [h']
    intro g hgm
    rcases List.mem_cons.mp hgm with rfl | hgm
    · exact hf'
    · exact (hrest g hgm).1
  · rw [h']
    intro p hp
    exact (hrest p hp).2
  · rw [h']
    exact hw
  · have hlt := hs.gas
    omega
  · omega
  · rw [credit_cons h, credit_cons h', executes_cons h]
    omega
  · rw [fuel_cons h, fuel_cons h']
    omega

theorem Follows.of_resumed {t' : CallTree} {f₀ parent : Frame} {rest₀ : List Frame}
    {request : MessageRequest} {outcome : ChildOutcome} {gas : Gas} (hs : t.Sound)
    (h : t.frames = f₀ :: rest₀) (h' : t'.frames = parent.resumed request outcome gas :: rest)
    (hp : parent.Sound) (hstatus : parent.status = .suspended) (hw : parent.Waits request)
    (hrest : ∀ p ∈ rest, p.Sound ∧ p.status = .suspended)
    (hworld : (parent :: rest).length ≤ t'.world.outer.length)
    (hgas : gas.toNat + heldGas rest ≤ stake f₀ rest₀)
    (hcredit : 1 + rest.length ≤ f₀.status.credit + rest₀.length)
    (hfuel : 2 + 2 * rest.length < f₀.status.fuel + 2 * rest₀.length)
    (hexecutes : f₀.status ≠ .executing) : t.Follows (.running t') := by
  have hstake : stake (parent.resumed request outcome gas) rest = gas.toNat + heldGas rest := rfl
  have hcr : (parent.resumed request outcome gas).status.credit = 1 := rfl
  have hfu : (parent.resumed request outcome gas).status.fuel = 2 := rfl
  have hex : (decide (f₀.status = .executing)).toNat = 0 := by simp [hexecutes]
  refine Follows.of_frames _ rest h h' hs (Frame.resumed_sound hp hstatus hw) hrest hworld
    ?_ ?_ ?_
  · omega
  · omega
  · omega

theorem Transition.follows {c r : Rules} {t' : CallTree} (h : t.Transition c r t')
    (hs : t.Sound) : t.Follows (.running t') := by
  cases h with
  | @stepped f f' rest _ before executing steps after =>
    have hdepth := hs.depth before
    rw [← steps.outer_eq] at hdepth
    obtain ⟨hgas, hcredit, hfuel⟩ := steps.measures executing
    have hpending := f.pendingGas_eq_zero (by simp [executing])
    have hcr : f.status.credit = 1 := by simp [executing, Status.credit]
    have hfu : f.status.fuel = 2 := by simp [executing, Status.fuel]
    have hex : (decide (f.status = .executing)).toNat = 1 := by simp [executing]
    refine Follows.of_frames f' rest before after hs (steps.sound (hs.head before) executing)
      (hs.tail before) hdepth ?_ ?_ ?_
    all_goals
      simp only [stake]
      omega
  | @refused f rest request gas before suspended waits _ credited after world =>
    have hsum := Gas.add?_eq_some.mp credited
    have hpending := waits.pendingGas_eq suspended
    have hcr : f.status.credit = 2 := by simp [suspended, Status.credit]
    have hfu : f.status.fuel = 5 := by simp [suspended, Status.fuel]
    refine Follows.of_resumed hs before after (hs.head before) suspended waits (hs.tail before)
      (world ▸ hs.depth before) ?_ (by omega) (by omega) (by simp [suspended])
    rw [stake, hpending]
    omega
  | @started f rest request before suspended waits _ transferred after =>
    have hpending := waits.pendingGas_eq suspended
    have hcr : f.status.credit = 2 := by simp [suspended, Status.credit]
    have hfu : f.status.fuel = 5 := by simp [suspended, Status.fuel]
    have hex : (decide (f.status = .executing)).toNat = 0 := by simp [suspended]
    have hout := (World.transfer_sameBelow transferred).outer
    generalize hchild : f.child request (t.code request.codeAddress) r.limits = child at after
    have hgas : child.gas = request.gas := hchild ▸ rfl
    have hstatus : child.status = .executing := hchild ▸ rfl
    have hzero := child.pendingGas_eq_zero (by simp [hstatus])
    have hcr' : child.status.credit = 1 := by simp [hstatus, Status.credit]
    have hfu' : child.status.fuel = 2 := by simp [hstatus, Status.fuel]
    -- the gas of the request becomes the gas of the child
    have hstake : stake f rest = f.gas.toNat + heldGas rest + request.gas.toNat := by
      rw [stake, hpending]
    have hstake' : stake child (f :: rest) =
        request.gas.toNat + (f.gas.toNat + heldGas rest) := by
      simp [stake, heldGas, hgas, hzero]
    refine Follows.of_frames child (f :: rest) before after hs (hchild ▸ Frame.start_sound _ _) ?_
      ?_ ?_ ?_ ?_
    · intro p hp
      rcases List.mem_cons.mp hp with rfl | hp
      · exact ⟨hs.head before, suspended⟩
      · exact hs.tail before p hp
    · rw [hout]
      exact Nat.succ_le_succ (hs.depth before)
    · omega
    · rw [List.length_cons]
      omega
    · rw [List.length_cons]
      omega
  | @returned child parent rest request gas before ended suspended waits credited left after =>
    obtain ⟨hcr, hfu, hn⟩ := Status.measures_of_isTerminal ended
    have hsum := Gas.add?_eq_some.mp credited
    have hback := child.gasBack_le
    have hexecuting : child.status ≠ .executing := by
      intro he
      rw [he] at ended
      cases ended
    have hrest := hs.tail before
    have hdepth := hs.depth before
    rw [World.length_outer_leave left] at hdepth
    refine Follows.of_resumed hs before after (hrest parent List.mem_cons_self).1 suspended waits
      (fun p hp => hrest p (List.mem_cons_of_mem _ hp)) (Nat.le_of_succ_le_succ hdepth) ?_ ?_ ?_
      hexecuting
    · simp only [stake, heldGas]
      omega
    · rw [List.length_cons]
      omega
    · rw [List.length_cons]
      omega

end

end CallTree

namespace Executor

open CallTree

section

variable {c r : Rules} {t : CallTree} {f : Frame} {rest : List Frame}

theorem advance_follows (c r : Rules) (hs : t.Sound) :
    t.Follows (advance ⟨.ofRules c, r⟩ t) := by
  rcases advance_cases c r hs with ⟨t', ha, htransition⟩ | ⟨f, t', hframes, hended, ha, hafter⟩
  · rw [ha]
    exact htransition.follows hs
  · have hback := f.gasBack_le
    have hexecuting := Status.ne_executing_of_isTerminal hended
    rw [ha]
    refine .finished ?_ ?_ hafter
    · show f.gasBack.toNat ≤ t.totalGas
      rw [totalGas_cons hframes, stake]
      omega
    · simp [executes_cons hframes, hexecuting]

end

/-- The number of operations that the first moves execute, at most `n` moves. -/
def operations (x : Executor) : Nat → CallTree → Nat
  | 0, _ => 0
  | n + 1, t =>
    t.executes.toNat +
      match x.advance t with
      | .running t => operations x n t
      | _ => 0

section

variable (c r : Rules) {t : CallTree}

theorem run_running (n : Nat) : ∀ {t t' : CallTree}, t.Sound →
    run ⟨.ofRules c, r⟩ n t = .running t' →
      t'.Sound ∧ t'.totalGas ≤ t.totalGas ∧ t'.fuel + n ≤ t.fuel := by
  induction n with
  | zero =>
    intro t t' hs h
    cases h
    exact ⟨hs, Nat.le_refl _, Nat.le_refl _⟩
  | succ n ih =>
    intro t t' hs h
    have hf := advance_follows c r hs
    unfold run at h
    generalize advance ⟨.ofRules c, r⟩ t = p at h hf
    cases hf with
    | finished => cases h
    | running hs₁ hgas _ hfuel =>
      obtain ⟨hs', hgas', hfuel'⟩ := ih hs₁ h
      exact ⟨hs', Nat.le_trans hgas' hgas, by omega⟩

theorem run_keeps {P : CallTree → Prop}
    (hP : ∀ {t t' : CallTree}, t.Sound → P t → t.Transition c r t' → P t') (n : Nat) :
    ∀ {t t' : CallTree}, t.Sound → P t → run ⟨.ofRules c, r⟩ n t = .running t' → P t' := by
  induction n with
  | zero =>
    intro t t' _ ht h
    cases h
    exact ht
  | succ n ih =>
    intro t t' hs ht h
    unfold run at h
    rcases advance_cases c r hs with ⟨t₁, ha, htransition⟩ | ⟨f, t₁, -, -, ha, -⟩
    · rw [ha] at h
      cases htransition.follows hs with
      | running hs₁ => exact ih hs₁ (hP hs ht htransition) h
    · rw [ha] at h
      cases h

theorem run_lasting {P : Frame → Prop} (hP : Frame.Lasting c P) (n : Nat) {t t' : CallTree}
    (hs : t.Sound) (ht : ∀ f ∈ t.frames, P f) (h : run ⟨.ofRules c, r⟩ n t = .running t') :
    ∀ f ∈ t'.frames, P f :=
  run_keeps c r (fun _ ht htransition => htransition.lasting hP ht) n hs ht h

/-- Before a message finishes, its last frame has ended and has only its substate to close. -/
theorem run_last (n : Nat) : ∀ {t t' : CallTree} {outcome : Outcome}, t.Sound →
    run ⟨.ofRules c, r⟩ n t = .finished outcome t' →
    ∃ k t₁ f, run ⟨.ofRules c, r⟩ k t = .running t₁ ∧ t₁.frames = [f] ∧
      f.status.isTerminal = true ∧ outcome = f.outcome ∧
      t₁.world.leave f.status.merge = .ok t'.world := by
  induction n with
  | zero =>
    intro t t' outcome _ h
    cases h
  | succ n ih =>
    intro t t' outcome hs h
    unfold run at h
    rcases advance_cases c r hs with ⟨t₁, ha, htransition⟩ | ⟨f, -, hframes, hended, -, -⟩
    · rw [ha] at h
      cases htransition.follows hs with
      | running hs₁ =>
        obtain ⟨k, t₂, f, hrun, hlast⟩ := ih hs₁ h
        refine ⟨k + 1, t₂, f, ?_, hlast⟩
        rw [run, ha]
        exact hrun
    · obtain ⟨t₁, ha, hleft, -⟩ := advance_finished (x := ⟨.ofRules c, r⟩) hs hframes hended
      rw [ha] at h
      cases h
      exact ⟨0, t, f, rfl, hframes, hended, rfl, hleft⟩

/-- A message whose fuel does not last for `n` moves ends in `n` moves. -/
theorem run_finished (n : Nat) : ∀ {t : CallTree}, t.Sound → t.fuel < n →
    ∃ outcome t', run ⟨.ofRules c, r⟩ n t = .finished outcome t' ∧
      outcome.gas.toNat ≤ t.totalGas := by
  induction n with
  | zero =>
    intro t _ hn
    exact absurd hn (Nat.not_lt_zero _)
  | succ n ih =>
    intro t hs hn
    have hf := advance_follows c r hs
    unfold run
    generalize advance ⟨.ofRules c, r⟩ t = p at hf ⊢
    cases hf with
    | finished hgas => exact ⟨_, _, rfl, hgas⟩
    | running hs' hgas _ hfuel =>
      obtain ⟨outcome, t', h, hle⟩ := ih hs' (by omega)
      exact ⟨outcome, t', h, Nat.le_trans hle hgas⟩

theorem operations_le (n : Nat) : ∀ {t : CallTree}, t.Sound →
    operations ⟨.ofRules c, r⟩ n t ≤ t.credit := by
  induction n with
  | zero =>
    intro t _
    exact Nat.zero_le _
  | succ n ih =>
    intro t hs
    have hf := advance_follows c r hs
    unfold operations
    generalize advance ⟨.ofRules c, r⟩ t = p at hf ⊢
    cases hf with
    | finished _ he =>
      rw [he]
      exact Nat.zero_le _
    | running hs' _ hcredit =>
      have hle := ih hs'
      dsimp only
      omega

end

section

variable (message : Message) (limits : Limits) (world : World) (codes : CodeCache)
  (journal : Journal)

theorem totalGas_begin : (begin (Frame.start message limits) world codes journal).totalGas =
    message.initialGas.toNat := by
  rw [totalGas_cons rfl]
  rfl

theorem credit_begin : (begin (Frame.start message limits) world codes journal).credit =
    message.initialGas.toNat + 1 := by
  rw [credit_cons rfl, totalGas_begin]
  rfl

theorem fuel_begin : (begin (Frame.start message limits) world codes journal).fuel =
    3 * message.initialGas.toNat + 2 := by
  rw [fuel_cons rfl, totalGas_begin]
  rfl

theorem begin_sound : (begin (Frame.start message limits) world codes journal).Sound where
  inhabited := List.cons_ne_nil _ _
  frames := fun _ hf => List.mem_singleton.mp hf ▸ Frame.start_sound message limits
  waiting := by simp [begin]
  substates := Nat.succ_le_succ (Nat.zero_le _)
  gas := by
    rw [totalGas_begin]
    exact message.initialGas.isLt

theorem run_begin_lasting {c : Rules} {P : Frame → Prop} (hP : Frame.Lasting c P) (r : Rules)
    (n : Nat) {t : CallTree}
    (h : run ⟨.ofRules c, r⟩ n (begin (Frame.start message limits) world codes journal) =
      .running t) : ∀ f ∈ t.frames, P f := by
  refine run_lasting c r hP n (begin_sound message limits world codes journal) ?_ h
  intro f hf
  rw [List.mem_singleton.mp hf]
  exact hP.start message limits

theorem run_moveBound_finished (c r : Rules) :
    ∃ outcome t, run ⟨.ofRules c, r⟩ moveBound
        (begin (Frame.start message limits) world codes journal) = .finished outcome t ∧
      outcome.gas.toNat ≤ message.initialGas.toNat := by
  have hlt := message.initialGas.isLt
  have hfuel : (begin (Frame.start message limits) world codes journal).fuel < moveBound := by
    rw [fuel_begin]
    unfold moveBound
    omega
  rw [← totalGas_begin message limits world codes journal]
  exact run_finished c r moveBound (begin_sound message limits world codes journal) hfuel

theorem process_of_run {x : Executor} {outcome : Outcome} {t : CallTree}
    (h : run x moveBound (begin (Frame.start message limits) world codes journal) =
      .finished outcome t) :
    process x (Frame.start message limits) world codes journal = .finished outcome t := by
  simp only [process, h, cleanUp]

theorem process_finished (c r : Rules) :
    ∃ outcome t, process ⟨.ofRules c, r⟩ (Frame.start message limits) world codes journal =
        .finished outcome t ∧
      outcome.gas.toNat ≤ message.initialGas.toNat := by
  obtain ⟨outcome, t, h, hgas⟩ := run_moveBound_finished message limits world codes journal c r
  exact ⟨outcome, t, process_of_run message limits world codes journal h, hgas⟩

/--
What holds when a message begins and is kept by its moves holds until its last frame has ended,
and what is left to do then is to close the substate of that frame.
-/
theorem process_keeps {c r : Rules} {P : CallTree → Prop}
    (hP : ∀ {t t' : CallTree}, t.Sound → P t → t.Transition c r t' → P t')
    (hbegin : P (begin (Frame.start message limits) world codes journal)) :
    ∃ t f t', P t ∧ t.frames = [f] ∧ f.status.isTerminal = true ∧
      process ⟨.ofRules c, r⟩ (Frame.start message limits) world codes journal =
        .finished f.outcome t' ∧
      t.world.leave f.status.merge = .ok t'.world := by
  have hs := begin_sound message limits world codes journal
  obtain ⟨outcome, t', h, -⟩ := run_moveBound_finished message limits world codes journal c r
  obtain ⟨k, t, f, hrun, hframes, hended, rfl, hleft⟩ := run_last c r moveBound hs h
  exact ⟨t, f, t', run_keeps c r hP k hs hbegin hrun, hframes, hended,
    process_of_run message limits world codes journal h, hleft⟩

end

end Executor

end MeteredVm
