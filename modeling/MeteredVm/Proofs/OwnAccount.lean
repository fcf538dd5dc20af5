import MeteredVm.Proofs.CallStack
import MeteredVm.Proofs.Retained
import MeteredVm.Proofs.Static
import MeteredVm.Proofs.Tracing

/-!
# MeteredVm.Proofs.OwnAccount

A frame writes only to its own account.

The one thing that an instruction changes in the world is the storage of the account that its frame
runs for. A message changes storage through the steps of its frames and balances when it starts a
child, and both come to nothing if the frame that did it, or one around it, does not succeed. So
what is different in the end can be traced back to a move of frames that all succeeded: going back
from the end, the first move that changes what is going to be kept.

* `World.SameBut`: the worlds differ in the storage of one account. `Frame.Steps.sameBut` and
  `Interpreter.run_sameBut`: so they do before and after a run.
* `Snapshots.surviving` and `Executor.prospect`: what will be kept of the world as it is now.
* `Executor.prospect_move`: a move changes it only when all open frames are going to succeed.
  `Executor.exists_move`: where a difference comes from.
* `Executor.writes_own_account`: what a run, and what a message changes.
-/

namespace MeteredVm

namespace World

structure SameBut (a : Address) (w w' : World) : Prop where
  balance : ∀ b, w'.balance b = w.balance b
  exists? : ∀ b, w'.exists? b = w.exists? b
  storage : ∀ b key, b ≠ a → w'.storage b key = w.storage b key
  depth : w'.depth = w.depth

namespace SameBut

variable {a : Address} {w w' w'' : World}

theorem refl (a : Address) (w : World) : w.SameBut a w :=
  ⟨fun _ => rfl, fun _ => rfl, fun _ _ _ => rfl, rfl⟩

theorem trans (h : w.SameBut a w') (h' : w'.SameBut a w'') : w.SameBut a w'' where
  balance b := (h'.balance b).trans (h.balance b)
  exists? b := (h'.exists? b).trans (h.exists? b)
  storage b key hb := (h'.storage b key hb).trans (h.storage b key hb)
  depth := h'.depth.trans h.depth

theorem setStorage (a : Address) (w : World) (key value : Word) :
    w.SameBut a (w.setStorage a key value) where
  balance _ := rfl
  exists? _ := rfl
  storage b k hb := by
    rw [storage_setStorage, if_neg fun h => hb (Prod.mk.inj h).1]
  depth := rfl

end SameBut

theorem party_of_transfer {w w' : World} {source target a : Address} {value : Word}
    (h : w.transfer source target value = some w') (hne : w'.balance a ≠ w.balance a) :
    value ≠ 0 ∧ (a = source ∨ a = target) := by
  rcases transfer_cases h with ⟨-, rfl⟩ | ⟨hvalue, -, rfl⟩
  · exact absurd rfl hne
  · refine ⟨hvalue, Decidable.byContradiction fun hparty => hne ?_⟩
    obtain ⟨hsource, htarget⟩ := not_or.mp hparty
    rw [balance_setBalance, if_neg htarget, balance_setBalance, if_neg hsource]

end World

namespace Frame.Steps

variable {fees : FeeSchedule} {f f' : Frame} {w w' : World} {s : Step}

theorem sameBut (h : f.Steps fees w s f' w') : w.SameBut f.address w' := by
  cases h with
  | refused sig reason => exact .refl _ w
  | performed i p sig cost =>
    by_cases hi : i = .storageStore
    · subst hi
      exact .setStorage f.address w (f.operand 0) (f.operand 1)
    · rw [Instruction.worldAfter_of_ne hi]
      exact .refl _ w

theorem writes {a : Address} {key : Word} (h : f.Steps fees w s f' w')
    (hne : w'.storage a key ≠ w.storage a key) : f.address = a ∧ f.isStatic = false := by
  constructor
  · refine Decidable.byContradiction fun ha => hne ?_
    exact h.sameBut.storage a key (Ne.symm ha)
  · refine Bool.eq_false_iff.mpr fun hstatic => ?_
    cases h with
    | refused sig reason => exact hne rfl
    | performed i p sig cost hsig hp =>
      have hstore := (Instruction.quiet_of_clear (f := f.facing sig) hstatic hp.clear).1
      rw [Instruction.worldAfter_of_ne hstore] at hne
      exact hne rfl

end Frame.Steps

theorem Interpreter.run_sameBut (c : Rules) (n : Nat) : ∀ {m m' : Machine}
    {result : Except ExitError Unit}, (ofRules c).run n m = .ended result m' →
      m.world.SameBut m.frame.address m'.world := by
  induction n with
  | zero =>
    intro m m' result h
    cases h
  | succ n ih =>
    intro m m' result h
    by_cases he : m.frame.status = .executing
    · obtain ⟨s, f₁, w₁, journal₁, hstep, hsteps⟩ := step_ofRules c m.world m.journal he
      rw [run_of_step n hstep] at h
      have hstepped := hsteps.sameBut
      cases hresult : s.result? with
      | none =>
        rw [hresult] at h
        have hrest := ih h
        rw [show f₁.address = m.frame.address from congrArg Message.address hsteps.message_eq]
          at hrest
        exact hstepped.trans hrest
      | some result =>
        rw [hresult] at h
        cases h
        exact hstepped
    · rw [run_of_ne_executing n he] at h
      cases h
      exact .refl _ m.world

theorem MessageRequest.AskedBy.kind_of_value {request : MessageRequest} {message : Message}
    (h : request.AskedBy message) (hvalue : request.transferValue ≠ 0) : request.kind = .call := by
  unfold AskedBy at h
  cases hkind : request.kind with
  | call => rfl
  | delegateCall | staticCall =>
    rw [hkind] at h
    exact absurd h.2.2.1 hvalue

namespace Snapshots

/-- What the accounts will be like when the open substates end like this, innermost first. -/
def surviving : List Status → Snapshots → View
  | s :: ss, ⟨top, next :: below⟩ =>
    surviving ss ⟨if s.merge = .commit then top else next, below⟩
  | _, ⟨top, _⟩ => top

/-- The top counts only if all open substates are kept, and then it is all that counts. -/
theorem surviving_cases {ss : List Status} {below : List View} (hl : ss.length ≤ below.length)
    (top top' : View) :
    surviving ss ⟨top, below⟩ = surviving ss ⟨top', below⟩ ∨
      ss.all (· = .succeeded) = true ∧ surviving ss ⟨top, below⟩ = top ∧
        surviving ss ⟨top', below⟩ = top' := by
  induction ss generalizing top top' below with
  | nil => exact .inr ⟨rfl, rfl, rfl⟩
  | cons s ss ih =>
    cases below with
    | nil => exact absurd hl (Nat.not_succ_le_zero _)
    | cons next below =>
      by_cases hsuccess : s = .succeeded
      · subst hsuccess
        exact ih (Nat.le_of_succ_le_succ hl) top top'
      · left
        simp only [surviving, if_neg (Executor.merge_ne_commit hsuccess)]

end Snapshots

def CallTree.Open (t : CallTree) : Prop :=
  ∀ f rest, t.frames = f :: rest → f.status.isTerminal = false

theorem CallTree.Open.of_head {t : CallTree} {f : Frame} {rest : List Frame}
    (h : t.frames = f :: rest) (hf : f.status.isTerminal = false) : t.Open := by
  intro g rest' hg
  obtain ⟨rfl, -⟩ := List.cons.inj (h.symm.trans hg)
  exact hf

namespace Executor

/-- All open frames are going to succeed, each of them on top of the frames below it. -/
def Succeeds (x : Executor) (t : CallTree) : Prop :=
  ∀ upper f lower, t.frames = upper ++ f :: lower →
    ∃ t' f', x.Within (lower.length + 1) t t' ∧ t'.frames = f' :: lower ∧ f'.status = .succeeded

/-- What will be kept of the world as it is now when the message has ended, within `n` moves. -/
def prospect (x : Executor) (n : Nat) (t : CallTree) : View :=
  Snapshots.surviving (x.fates n t) t.world.snapshots

section

variable {c r : Rules} {n : Nat} {t t' last : CallTree} {outcome : Outcome}

theorem succeeds_of_fates (hs : t.Sound)
    (h : run ⟨.ofRules c, r⟩ n t = .finished outcome last)
    (hall : (fates ⟨.ofRules c, r⟩ n t).all (· = .succeeded) = true) :
    Succeeds ⟨.ofRules c, r⟩ t := by
  intro upper f lower hframes
  obtain ⟨k, t', f', hrun, hframes', -, hfate, hstays⟩ := fates_of_run n hs h hframes
  have hsuccess := List.all_eq_true.mp hall f'.status (List.mem_of_getElem? hfate)
  refine ⟨t', f', .of_run k hrun fun j hj t₁ h₁ => ?_, hframes', of_decide_eq_true hsuccess⟩
  obtain ⟨upper₁, f₁, hframes₁⟩ := hstays j hj t₁ h₁
  rw [hframes₁, List.length_append, List.length_cons]
  omega

theorem fates_length_le (hs : t.Sound) (h : run ⟨.ofRules c, r⟩ n t = .finished outcome last) :
    (fates ⟨.ofRules c, r⟩ n t).length ≤ t.world.snapshots.below.length := by
  rw [length_fates n hs h]
  show _ ≤ (Snapshots.ofOuter _ _).length
  rw [Snapshots.length_ofOuter]
  exact hs.substates

theorem surviving_leave {w w' : World} {s : Status} (ss : List Status)
    (h : w.leave s.merge = .ok w') :
    Snapshots.surviving (s :: ss) w.snapshots = Snapshots.surviving ss w'.snapshots := by
  obtain ⟨next, below, hbelow, hsnapshots⟩ := World.snapshots_leave h
  have hopen : w.snapshots = ⟨w.view, next :: below⟩ := by rw [← hbelow]; rfl
  rw [hopen, hsnapshots]
  rfl

/--
A move that changes the prospect is not a return, and all frames that are open then are going to
succeed.
-/
theorem prospect_move (htransition : t.Transition c r t') (hs' : t'.Sound)
    (ha : advance ⟨.ofRules c, r⟩ t = .running t')
    (hend : run ⟨.ofRules c, r⟩ n t' = .finished outcome last) :
    prospect ⟨.ofRules c, r⟩ (n + 1) t = prospect ⟨.ofRules c, r⟩ n t' ∨
      t.Open ∧ (fates ⟨.ofRules c, r⟩ n t').all (· = .succeeded) = true ∧
        prospect ⟨.ofRules c, r⟩ (n + 1) t = t.world.view ∧
        prospect ⟨.ofRules c, r⟩ n t' = t'.world.view := by
  have hlength := fates_length_le hs' hend
  unfold prospect
  cases htransition with
  | @stepped f f' rest s before executing steps after =>
    have hsnapshots := World.snapshots_of_sameBelow ⟨steps.base_eq, steps.outer_eq⟩
    rw [hsnapshots] at hlength ⊢
    rw [fates_of_replaced f' before (by rw [executing]; rfl) ha after]
    exact (Snapshots.surviving_cases hlength t.world.view t'.world.view).imp_right fun hkept =>
      ⟨.of_head before (by rw [executing]; rfl), hkept⟩
  | refused before suspended _ _ _ after world =>
    rw [fates_of_replaced _ before (by rw [suspended]; rfl) ha after, world]
    exact .inl rfl
  | @started f rest request before suspended _ _ transferred after =>
    have hsnapshots := World.snapshots_of_sameBelow (World.transfer_sameBelow transferred)
    rw [World.snapshots_enter] at hsnapshots
    rw [hsnapshots] at hlength ⊢
    rw [fates_of_started _ before (by rw [suspended]; rfl) ha after]
    obtain ⟨s, ss, hfates⟩ :
        ∃ s ss, fates ⟨.ofRules c, r⟩ n t' = s :: ss := by
      refine List.exists_cons_of_length_pos ?_
      rw [length_fates n hs' hend, after]
      exact Nat.succ_pos _
    rw [hfates] at hlength ⊢
    by_cases hsuccess : s = .succeeded
    · subst hsuccess
      exact (Snapshots.surviving_cases (Nat.le_of_succ_le_succ hlength) t.world.view
        t'.world.view).imp_right fun hkept => ⟨.of_head before (by rw [suspended]; rfl), hkept⟩
    · left
      simp only [Snapshots.surviving, if_neg (merge_ne_commit hsuccess), List.tail_cons]
      rfl
  | @returned child parent rest request gas before ended _ _ _ left after =>
    rw [fates_of_ended before ended ha]
    exact .inl (surviving_leave _ left)

/--
A difference in the end comes from a move that makes it, of frames that are all going to succeed.
-/
theorem exists_move {A : Type} (read : View → A) (n : Nat) : ∀ {t last : CallTree}
    {outcome : Outcome}, t.Sound → run ⟨.ofRules c, r⟩ n t = .finished outcome last →
      read last.world.view ≠ read (prospect ⟨.ofRules c, r⟩ n t) →
      ∃ k m t₁ t₂, run ⟨.ofRules c, r⟩ k t = .running t₁ ∧
        advance ⟨.ofRules c, r⟩ t₁ = .running t₂ ∧ t₁.Open ∧
        run ⟨.ofRules c, r⟩ m t₂ = .finished outcome last ∧
        (fates ⟨.ofRules c, r⟩ m t₂).all (· = .succeeded) = true ∧
        read t₂.world.view ≠ read t₁.world.view := by
  induction n with
  | zero =>
    intro t last outcome _ h
    cases h
  | succ n ih =>
    intro t last outcome hs h hne
    rw [run] at h
    rcases advance_cases c r hs with ⟨t₁, ha, htransition⟩ | ⟨f, t₁, hframes, hended, ha, -⟩
    · have hs₁ := (sound_of_advance hs ha).1
      rw [ha] at h
      have hmove := prospect_move htransition hs₁ ha h
      by_cases hlater : read last.world.view = read (prospect ⟨.ofRules c, r⟩ n t₁)
      · rcases hmove with hsame | ⟨hopen, hall, hbefore, hafter⟩
        · rw [hsame] at hne
          exact absurd hlater hne
        · rw [hlater, hbefore, hafter] at hne
          exact ⟨0, n, t, t₁, rfl, ha, hopen, h, hall, hne⟩
      · obtain ⟨k, m, t₂, t₃, hrun, hrest⟩ := ih hs₁ h hlater
        refine ⟨k + 1, m, t₂, t₃, ?_, hrest⟩
        rw [run, ha]
        exact hrun
    · obtain ⟨t₂, ha', hleft, -⟩ := advance_finished (x := ⟨.ofRules c, r⟩) hs hframes hended
      rw [ha'] at h
      cases h
      refine absurd (congrArg read ?_) hne
      rw [prospect, fates_finished hframes ha']
      exact (surviving_leave [] hleft).symm

/-- A storage value that is changed by a move: one of the account of the innermost frame. -/
theorem writer_of_transition {a : Address} {key : Word} (h : t.Transition c r t')
    (ha : advance ⟨.ofRules c, r⟩ t = .running t') (hopen : t.Open)
    (hne : t'.world.storage a key ≠ t.world.storage a key) :
    ∃ f rest, t.frames = f :: rest ∧ f.address = a ∧ f.isStatic = false ∧
      ∀ n, fates ⟨.ofRules c, r⟩ (n + 1) t = fates ⟨.ofRules c, r⟩ n t' := by
  cases h with
  | @stepped f f' rest s before executing steps after =>
    obtain ⟨haddress, hstatic⟩ := steps.writes hne
    exact ⟨f, rest, before, haddress, hstatic, fun n =>
      fates_of_replaced f' before (by rw [executing]; rfl) ha after⟩
  | refused before _ _ _ _ _ world => exact absurd (by rw [world]) hne
  | started before _ _ _ transferred =>
    have hstorage : t'.world.storage = t.world.storage :=
      (World.storage_transfer transferred).trans (congrArg View.storage t.world.view_enter)
    exact absurd (congrFun (congrFun hstorage a) key) hne
  | returned before ended => exact absurd (hopen _ _ before) (by simp [ended])

/-- A balance that is changed by a move: one of a party of the call that is started. -/
theorem party_of_transition {a : Address} (h : t.Transition c r t') (hopen : t.Open)
    (hne : t'.world.balance a ≠ t.world.balance a) :
    ∃ f rest request child, t.frames = f :: rest ∧ f.pending = some request ∧
      request.transferValue ≠ 0 ∧ (a = request.caller ∨ a = request.address) ∧
      t'.frames = child :: f :: rest := by
  cases h with
  | stepped before _ steps => exact absurd (steps.sameBut.balance a) hne
  | refused before _ _ _ _ _ world => exact absurd (by rw [world]) hne
  | @started f rest request before _ waits _ transferred after =>
    rw [← t.world.balance_enter] at hne
    obtain ⟨hvalue, hparty⟩ := World.party_of_transfer transferred hne
    exact ⟨f, rest, request, _, before, waits.pending, hvalue, hparty, after⟩
  | returned before ended => exact absurd (hopen _ _ before) (by simp [ended])

end

section

variable (c r : Rules) (message : Message) (limits : Limits) (world : World) (codes : CodeCache)
  (journal : Journal)

/-- Where a difference between the worlds before and after a message comes from. -/
theorem exists_change {A : Type} (read : View → A) {outcome : Outcome} {last : CallTree}
    (h : run ⟨.ofRules c, r⟩ moveBound (begin (Frame.start message limits) world codes journal) =
      .finished outcome last) (hne : read last.world.view ≠ read world.view) :
    ∃ k m t t', run ⟨.ofRules c, r⟩ k
        (begin (Frame.start message limits) world codes journal) = .running t ∧ t.Sound ∧
      advance ⟨.ofRules c, r⟩ t = .running t' ∧ t.Open ∧
      run ⟨.ofRules c, r⟩ m t' = .finished outcome last ∧
      (fates ⟨.ofRules c, r⟩ m t').all (· = .succeeded) = true ∧
      read t'.world.view ≠ read t.world.view := by
  have hs := begin_sound message limits world codes journal
  -- as long as nothing has changed, all that can be kept is the world from before
  have hbegin : prospect ⟨.ofRules c, r⟩ moveBound
      (begin (Frame.start message limits) world codes journal) = world.view := by
    obtain ⟨s, hfates⟩ := List.length_eq_one_iff.mp (length_fates moveBound hs h)
    show Snapshots.surviving _ world.enter.snapshots = _
    rw [hfates, World.snapshots_enter]
    exact ite_self _
  obtain ⟨k, m, t, t', hrun, hrest⟩ := exists_move read moveBound hs h (hbegin ▸ hne)
  exact ⟨k, m, t, t', hrun, (run_running c r k hs hrun).1, hrest⟩

/--
A run writes only to the storage of the account of its frame, whatever it ends with: every
balance, every account there is, the depth of substates and all other storage stay. So after a
message a storage value is different only if a frame for its account, not a static one, has
written to it and succeeded together with all frames around it; and a balance is different only if
the account is a party of a `CALL` that carries value and is started, again by frames that succeed.
-/
theorem writes_own_account :
    (∀ f w j, ∃ result m, (Interpreter.ofRules c).runToHalt ⟨f, w, j⟩ = .ended result m ∧
      w.SameBut f.address m.world) ∧
    ∃ outcome last, process ⟨.ofRules c, r⟩ (Frame.start message limits) world codes journal =
        .finished outcome last ∧
      (∀ a key, last.world.storage a key ≠ world.storage a key →
        ∃ n t f rest, run ⟨.ofRules c, r⟩ n
            (begin (Frame.start message limits) world codes journal) = .running t ∧
          t.frames = f :: rest ∧ f.address = a ∧ f.isStatic = false ∧
          Succeeds ⟨.ofRules c, r⟩ t) ∧
      ∀ a, last.world.balance a ≠ world.balance a →
        ∃ n t t₁ f rest request child, run ⟨.ofRules c, r⟩ n
            (begin (Frame.start message limits) world codes journal) = .running t ∧
          t.frames = f :: rest ∧ f.pending = some request ∧ request.kind = .call ∧
          request.transferValue ≠ 0 ∧ (a = request.caller ∨ a = request.address) ∧
          advance ⟨.ofRules c, r⟩ t = .running t₁ ∧ t₁.frames = child :: f :: rest ∧
          Succeeds ⟨.ofRules c, r⟩ t₁ := by
  refine ⟨?_, ?_⟩
  · intro f w j
    obtain ⟨result, m, hrun⟩ : ∃ result m, (Interpreter.ofRules c).runToHalt ⟨f, w, j⟩ =
        .ended result m := Interpreter.run_ends c _ f.gas.isLt
    exact ⟨result, m, hrun, Interpreter.run_sameBut c _ hrun⟩
  obtain ⟨outcome, last, hend, -⟩ := run_moveBound_finished message limits world codes journal c r
  refine ⟨outcome, last, process_of_run message limits world codes journal hend, ?_, ?_⟩
  · intro a key hne
    obtain ⟨k, m, t, t', hrun, hs, ha, hopen, hend', hall, hne⟩ :=
      exists_change c r message limits world codes journal (·.storage a key) hend hne
    obtain ⟨f, rest, hframes, haddress, hstatic, hfates⟩ :=
      writer_of_transition (advance_transition hs ha) ha hopen hne
    have hend₁ : run ⟨.ofRules c, r⟩ (m + 1) t = .finished outcome last := by
      rw [run, ha]
      exact hend'
    exact ⟨k, t, f, rest, hrun, hframes, haddress, hstatic,
      succeeds_of_fates hs hend₁ ((hfates m).symm ▸ hall)⟩
  · intro a hne
    obtain ⟨k, m, t, t', hrun, hs, ha, hopen, hend', hall, hne⟩ :=
      exists_change c r message limits world codes journal (·.balance a) hend hne
    obtain ⟨f, rest, request, child, hframes, hpending, hvalue, hparty, hframes'⟩ :=
      party_of_transition (advance_transition hs ha) hopen hne
    have hkind : request.kind = .call := by
      have hasked := run_begin_lasting message limits world codes journal (Frame.lasting_asks c) r
        k hrun f (by simp [hframes]) request hpending
      exact hasked.kind_of_value hvalue
    exact ⟨k, t, t', f, rest, request, child, hrun, hframes, hpending, hkind, hvalue, hparty, ha,
      hframes', succeeds_of_fates (sound_of_advance hs ha).1 hend' hall⟩

end

/-- Account 5 pays 3 to account 6. -/
def tipping : Message where
  code := Code.ofBytes
    #[0x60, 0, 0x60, 0, 0x60, 0, 0x60, 0, 0x60, 3, 0x60, 6, 0x61, 0x75, 0x30, 0xf1] 0
  initialGas := 100000
  address := 5

/-- Account 5 has 10, and account 6 writes 7 to its first cell. -/
def tippable : World :=
  { base := (({} : Ledger).insert 5 { balance := 10 }).insert 6
      { code := #[0x60, 7, 0x60, 0, 0x55] } }

set_option maxRecDepth 8000 in
theorem tipping_changes :
    (process ⟨.ofRules .london, .london⟩ (Frame.start tipping {}) tippable {} []).tree.world.storage
        6 0 = 7 ∧ tippable.storage 6 0 = 0 ∧
      (process ⟨.ofRules .london, .london⟩ (Frame.start tipping {}) tippable {}
        []).tree.world.balance 6 = 3 ∧ tippable.balance 6 = 0 := by
  decide +kernel

theorem writes_own_account_tipping : ∃ outcome last,
    process ⟨.ofRules .london, .london⟩ (Frame.start tipping {}) tippable {} [] =
      .finished outcome last ∧
    last.world.storage 6 0 = 7 ∧ last.world.balance 6 = 3 ∧
    (∃ n t f rest,
      run ⟨.ofRules .london, .london⟩ n (begin (Frame.start tipping {}) tippable {} []) =
        .running t ∧
      t.frames = f :: rest ∧ f.address = 6 ∧ f.isStatic = false ∧
      Succeeds ⟨.ofRules .london, .london⟩ t) ∧
    ∃ n t t₁ f rest request child,
      run ⟨.ofRules .london, .london⟩ n (begin (Frame.start tipping {}) tippable {} []) =
        .running t ∧
      t.frames = f :: rest ∧ f.pending = some request ∧ request.kind = .call ∧
      request.transferValue ≠ 0 ∧ (6 = request.caller ∨ 6 = request.address) ∧
      advance ⟨.ofRules .london, .london⟩ t = .running t₁ ∧ t₁.frames = child :: f :: rest ∧
      Succeeds ⟨.ofRules .london, .london⟩ t₁ := by
  obtain ⟨hstored, hclear, hpaid, hpoor⟩ := tipping_changes
  obtain ⟨-, outcome, last, hprocess, hstorage, hbalance⟩ :=
    writes_own_account .london .london tipping {} tippable {} []
  rw [hprocess] at hstored hpaid
  have hwritten : last.world.storage 6 0 = 7 := hstored
  have hmoved : last.world.balance 6 = 3 := hpaid
  refine ⟨outcome, last, hprocess, hwritten, hmoved, hstorage 6 0 ?_, hbalance 6 ?_⟩
  · rw [hwritten, hclear]
    decide
  · rw [hmoved, hpoor]
    decide

end Executor

end MeteredVm
