import Mathlib.Algebra.Ring.Int.Defs
import MeteredVm.Proofs.Refunds

/-!
# MeteredVm.Proofs.Retained

Only frames that succeed are heard.

Logs and refunds are kept in the frames and handed from child to caller, one return at a time, and
a frame that does not succeed hands on nothing. What comes out in the end has a simple description:
go through the moves of the message in their order, and keep those that were made while all open
frames, the one that made the move and those around it, were going to succeed.

The proof goes backwards from the end. At each point, what the open frames have so far and what
the moves to come will add make up what comes out; each move only shifts something from the moves
to come to the frames, or from a child to its caller.

* `Executor.fates`: how the open frames will end. `Executor.fates_of_run`: they do end like that,
  and `Executor.length_fates`: there is a fate for each.
  `Executor.retained`: the moves that count.
* `Carries`: something that frames carry along and hand on; `due` is what the open frames still
  have to hand on. `Carries.outcome_eq`: what comes out.
* `Executor.outcome_retained`: the logs and the refund of a message.
-/

namespace MeteredVm

namespace Frame

def entry (f : Frame) (n : Nat) : Log where
  address := f.address
  topics := (List.range n).map fun k => f.operand (k + 2)
  data := f.memory.read (f.operand 0).toNat (f.operand 1).toNat

end Frame

namespace Instruction

/-- The log entries that an instruction emits when a frame executes it. -/
def emits (i : Instruction) (f : Frame) : List Log :=
  match i with
  | log n => [f.entry n]
  | _ => []

/-- The refund that an instruction earns, or takes back, when a frame executes it. -/
def earns (fees : FeeSchedule) (i : Instruction) (f : Frame) (w : World) : Int :=
  match i with
  | storageStore => f.storeRefund fees w
  | _ => 0

variable {t : Tariff} {i : Instruction} {f : Frame} {w : World} {cost : Gas} {s s' : Signature}

theorem emits_of_ne (h : ∀ n, i ≠ log n) : i.emits f = [] := by
  cases i with
  | log n => exact absurd rfl (h n)
  | _ => rfl

theorem earns_of_ne {fees : FeeSchedule} (h : i ≠ storageStore) : i.earns fees f w = 0 := by
  cases i with
  | storageStore => exact absurd rfl h
  | _ => rfl

theorem logs_performed :
    ((f.facing s').performed t.fees w i cost s).logs = f.logs ++ i.emits f := by
  by_cases hi : ∃ n, i = log n
  · obtain ⟨n, rfl⟩ := hi
    rw [Frame.performed, Frame.advance_eq]
    rfl
  · have hne : ∀ n, i ≠ log n := fun n h => hi ⟨n, h⟩
    rw [Frame.logs_performed hne, emits_of_ne hne, List.append_nil]
    rfl

theorem refund_performed (hfits : i = storageStore →
      addRefund f.refund (f.storeRefund t.fees w) = f.refund + f.storeRefund t.fees w) :
    ((f.facing s').performed t.fees w i cost s).refund = f.refund + i.earns t.fees f w := by
  by_cases hi : i = storageStore
  · subst hi
    rw [Frame.refund_stored]
    exact hfits rfl
  · rw [Frame.refund_performed hi, earns_of_ne hi, Int.add_zero]
    rfl

end Instruction

namespace CallTree

/-- What the instruction of the next move says; `e` if the move executes none. -/
def next {M : Type} (c : Rules) (e : M) (say : Instruction → Frame → World → M)
    (t : CallTree) : M :=
  match t.frames with
  | [] => e
  | f :: _ => (c.admitted? f t.world).elim e (say · f t.world)

def logged (c : Rules) : CallTree → List Log := next c [] fun i f _ => i.emits f

def refunded (c : Rules) : CallTree → Int := next c 0 (Instruction.earns c.tariff.fees)

section

variable {M : Type} {c : Rules} {e : M} {say : Instruction → Frame → World → M} {t : CallTree}
  {f : Frame} {rest : List Frame}

theorem next_cons (h : t.frames = f :: rest) :
    t.next c e say = (c.admitted? f t.world).elim e (say · f t.world) := by
  simp only [next, h]

theorem next_idle (h : t.frames = f :: rest) (hf : f.status ≠ .executing) :
    t.next c e say = e := by
  rw [next_cons h, Rules.admitted?, if_neg hf]
  rfl

end

end CallTree

namespace Executor

/-- How the open frames end, innermost first, in a message that ends within `n` moves. -/
def fates (x : Executor) : Nat → CallTree → List Status
  | 0, _ => []
  | n + 1, t =>
    match t.frames, x.advance t with
    | f :: _, .running t' =>
      -- the innermost frame has ended, or the moves to come tell, less a child that starts now
      if f.status.isTerminal then f.status :: fates x n t'
      else (fates x n t').drop (t'.frames.length - t.frames.length)
    | f :: _, .finished _ _ => [f.status]
    | _, _ => []

/--
The points of a message whose moves count, in order: those at which every open frame is going to
succeed.
-/
def retained (x : Executor) : Nat → CallTree → List CallTree
  | 0, _ => []
  | n + 1, t =>
    match x.advance t with
    | .running t' =>
      if (x.fates (n + 1) t).all (· = .succeeded) then t :: retained x n t' else retained x n t'
    | _ => []

section

variable {x : Executor} {n : Nat} {t t' : CallTree} {f : Frame} {rest : List Frame}

theorem fates_of_live (h : t.frames = f :: rest) (hf : f.status.isTerminal = false)
    (ha : x.advance t = .running t') :
    x.fates (n + 1) t = (x.fates n t').drop (t'.frames.length - t.frames.length) := by
  simp only [fates, h, ha, hf, Bool.false_eq_true, if_false]

theorem fates_of_ended (h : t.frames = f :: rest) (hf : f.status.isTerminal = true)
    (ha : x.advance t = .running t') :
    x.fates (n + 1) t = f.status :: x.fates n t' := by
  simp only [fates, h, ha, hf, if_true]

theorem fates_of_replaced (f' : Frame) (h : t.frames = f :: rest)
    (hf : f.status.isTerminal = false) (ha : x.advance t = .running t')
    (h' : t'.frames = f' :: rest) : x.fates (n + 1) t = x.fates n t' := by
  rw [fates_of_live h hf ha, h, h', List.length_cons, List.length_cons, Nat.sub_self,
    List.drop_zero]

theorem fates_of_started (child : Frame) (h : t.frames = f :: rest)
    (hf : f.status.isTerminal = false) (ha : x.advance t = .running t')
    (h' : t'.frames = child :: f :: rest) : x.fates (n + 1) t = (x.fates n t').tail := by
  rw [fates_of_live h hf ha, h, h', List.length_cons, List.length_cons, Nat.add_sub_cancel_left,
    List.drop_one]

theorem fates_finished {outcome : Outcome} (h : t.frames = f :: rest)
    (ha : x.advance t = .finished outcome t') : x.fates (n + 1) t = [f.status] := by
  simp only [fates, h, ha]

theorem retained_running (ha : x.advance t = .running t') :
    x.retained (n + 1) t =
      if (x.fates (n + 1) t).all (· = .succeeded) then t :: x.retained n t'
      else x.retained n t' := by
  simp only [retained, ha]

theorem retained_finished {outcome : Outcome} (ha : x.advance t = .finished outcome t') :
    x.retained (n + 1) t = [] := by
  simp only [retained, ha]

end

section

variable {c r : Rules} {n : Nat} {t t' : CallTree} {outer below : List Frame} {f : Frame}

theorem split_of_replaced {g : Frame} {rest : List Frame} (g' : Frame)
    (h : outer ++ f :: below = g :: rest) :
    ∃ outer' f', g' :: rest = outer' ++ f' :: below ∧ outer'.length = outer.length := by
  cases outer with
  | nil =>
    obtain ⟨-, rfl⟩ := List.cons.inj h
    exact ⟨[], g', rfl, rfl⟩
  | cons o outer =>
    obtain ⟨-, rfl⟩ := List.cons.inj h
    exact ⟨g' :: outer, f, rfl, rfl⟩

/-- A frame that goes on after a move stays over the same frames, and keeps its fate. -/
theorem fates_advance (htransition : t.Transition c r t')
    (ha : advance ⟨.ofRules c, r⟩ t = .running t') (h : t.frames = outer ++ f :: below)
    (hopen : outer = [] → f.status.isTerminal = false) :
    ∃ outer' f', t'.frames = outer' ++ f' :: below ∧
      (fates ⟨.ofRules c, r⟩ (n + 1) t)[outer.length]? =
        (fates ⟨.ofRules c, r⟩ n t')[outer'.length]? := by
  cases htransition with
  | @stepped g g' rest _ before executing _ after =>
    obtain ⟨outer', f', hsplit, hlength⟩ := split_of_replaced g' (h.symm.trans before)
    refine ⟨outer', f', after.trans hsplit, ?_⟩
    rw [fates_of_replaced g' before (by rw [executing]; rfl) ha after, hlength]
  | @refused g rest request gas before suspended _ _ _ after =>
    obtain ⟨outer', f', hsplit, hlength⟩ :=
      split_of_replaced (g.resumed request (.notStarted request.gas) gas) (h.symm.trans before)
    refine ⟨outer', f', after.trans hsplit, ?_⟩
    rw [fates_of_replaced _ before (by rw [suspended]; rfl) ha after, hlength]
  | @started g rest request before suspended _ _ _ after =>
    rw [fates_of_started _ before (by rw [suspended]; rfl) ha after, List.getElem?_tail]
    rw [← before, h] at after
    exact ⟨_ :: outer, f, after, rfl⟩
  | @returned child parent rest request gas before ended _ _ _ _ after =>
    cases outer with
    | nil =>
      obtain ⟨rfl, -⟩ := List.cons.inj (h.symm.trans before)
      cases ended.symm.trans (hopen rfl)
    | cons o outer =>
      obtain ⟨-, hrest⟩ := List.cons.inj (h.symm.trans before)
      obtain ⟨outer', f', hsplit, hlength⟩ :=
        split_of_replaced (parent.resumed request child.childOutcome gas) hrest
      refine ⟨outer', f', after.trans hsplit, ?_⟩
      rw [fates_of_ended before ended ha, List.length_cons, List.getElem?_cons_succ, hlength]

/--
The fate of an open frame is the status that it ends with: it stays over the frames below it until
it is the innermost one and has ended like that.
-/
theorem fates_of_run (n : Nat) : ∀ {t t' : CallTree} {outcome : Outcome} {outer : List Frame}
    {f : Frame}, t.Sound → run ⟨.ofRules c, r⟩ n t = .finished outcome t' →
      t.frames = outer ++ f :: below →
      ∃ k t₁ f₁, run ⟨.ofRules c, r⟩ k t = .running t₁ ∧ t₁.frames = f₁ :: below ∧
        f₁.status.isTerminal = true ∧
        (fates ⟨.ofRules c, r⟩ n t)[outer.length]? = some f₁.status ∧
        ∀ j ≤ k, ∀ t₂, run ⟨.ofRules c, r⟩ j t = .running t₂ →
          ∃ outer₂ f₂, t₂.frames = outer₂ ++ f₂ :: below := by
  induction n with
  | zero =>
    intro t t' outcome outer f _ h
    cases h
  | succ n ih =>
    intro t t' outcome outer f hs h hframes
    have hstays : ∀ j ≤ 0, ∀ t₂, run ⟨.ofRules c, r⟩ j t = .running t₂ →
        ∃ outer₂ f₂, t₂.frames = outer₂ ++ f₂ :: below := by
      intro j hj t₂ h₂
      obtain rfl := Nat.le_zero.mp hj
      cases h₂
      exact ⟨outer, f, hframes⟩
    unfold run at h
    rcases advance_cases c r hs with ⟨t₁, ha, htransition⟩ | ⟨g, t₁, hlast, hended, ha, -⟩
    · by_cases hends : outer = [] ∧ f.status.isTerminal = true
      · obtain ⟨rfl, hended⟩ := hends
        refine ⟨0, t, f, rfl, hframes, hended, ?_, hstays⟩
        rw [fates_of_ended hframes hended ha]
        rfl
      · have hopen : outer = [] → f.status.isTerminal = false := by
          intro houter
          exact Bool.eq_false_iff.mpr fun hended => hends ⟨houter, hended⟩
        obtain ⟨outer', f', hframes', hfate⟩ := fates_advance (n := n) htransition ha hframes hopen
        rw [ha] at h
        cases htransition.follows hs with
        | running hs₁ =>
          obtain ⟨k, t₂, f₂, hrun, hframes₂, hended, hfate₂, hstays₂⟩ := ih hs₁ h hframes'
          refine ⟨k + 1, t₂, f₂, by rw [run, ha]; exact hrun, hframes₂, hended,
            hfate.trans hfate₂, ?_⟩
          intro j hj t₃ h₃
          cases j with
          | zero => exact hstays 0 (Nat.le_refl 0) t₃ h₃
          | succ j =>
            rw [run, ha] at h₃
            exact hstays₂ j (Nat.le_of_succ_le_succ hj) t₃ h₃
    · -- the last frame is the only one
      rcases List.singleton_eq_append_iff.mp (hlast.symm.trans hframes) with
        ⟨rfl, honly⟩ | ⟨-, hnone⟩
      · obtain ⟨rfl, rfl⟩ := List.cons.inj honly
        refine ⟨0, t, f, rfl, hlast, hended, ?_, hstays⟩
        rw [fates_finished hlast ha]
        rfl
      · cases hnone

theorem length_fates (n : Nat) : ∀ {t t' : CallTree} {outcome : Outcome}, t.Sound →
    run ⟨.ofRules c, r⟩ n t = .finished outcome t' →
      (fates ⟨.ofRules c, r⟩ n t).length = t.frames.length := by
  induction n with
  | zero =>
    intro t t' outcome _ h
    cases h
  | succ n ih =>
    intro t t' outcome hs h
    unfold run at h
    rcases advance_cases c r hs with ⟨t₁, ha, htransition⟩ | ⟨f, t₁, hlast, -, ha, -⟩
    · rw [ha] at h
      cases htransition.follows hs with
      | running hs₁ =>
        have hlength := ih hs₁ h
        cases htransition with
        | stepped before executing _ after =>
          rw [fates_of_replaced _ before (by rw [executing]; rfl) ha after, hlength, before, after]
          rfl
        | refused before suspended _ _ _ after =>
          rw [fates_of_replaced _ before (by rw [suspended]; rfl) ha after, hlength, before, after]
          rfl
        | started before suspended _ _ _ after =>
          rw [fates_of_started _ before (by rw [suspended]; rfl) ha after, List.length_tail,
            hlength, before, after]
          rfl
        | returned before ended _ _ _ _ after =>
          rw [fates_of_ended before ended ha, List.length_cons, hlength, before, after]
          rfl
    · rw [fates_finished hlast ha, hlast]
      rfl

end

end Executor

/--
Frames carry `μ` along: a new frame has nothing, a step adds what is said at that point, and only
a frame that succeeds hands on what it has. `Q` is what is known of the points where it is added.
-/
structure Carries {M : Type} (c : Rules) (op : M → M → M) (e : M) (μ : Frame → M)
    (heard : Outcome → M) (say : CallTree → M) (Q : CallTree → Prop) : Prop where
  start : ∀ message limits, μ (Frame.start message limits) = e
  silent : ∀ {t f rest}, t.frames = f :: rest → f.status ≠ .executing → say t = e
  step : ∀ {t f rest s m}, Q t → t.frames = f :: rest →
    (Interpreter.ofRules c).step ⟨f, t.world, t.journal⟩ = .ok s m → μ m.frame = op (μ f) (say t)
  dropped : ∀ {f request outcome gas}, outcome.success = false →
    μ (f.resumed request outcome gas) = μ f
  adopted : ∀ {t child parent rest request gas}, Q t → t.frames = child :: parent :: rest →
    child.status = .succeeded →
    μ (parent.resumed request child.childOutcome gas) = op (μ parent) (μ child)
  ends : ∀ f, heard f.outcome = if f.status = .succeeded then μ f else e

namespace Carries

section

variable {M : Type} (op : M → M → M) (e : M)

/--
What the open frames have to hand on when they end like this: each what it has so far, from the
outside in, if it succeeds and all frames around it do.
-/
def due (μ : Frame → M) : List Frame → List Status → M
  | f :: rest, s :: ss =>
    op (due μ rest ss) (if (s :: ss).all (· = .succeeded) then μ f else e)
  | _, _ => e

theorem due_singleton [hid : Std.LawfulIdentity op e] (μ : Frame → M) (f : Frame) (s : Status) :
    due op e μ [f] [s] = if s = .succeeded then μ f else e := by
  simp [due, hid.left_id]

def said (say : CallTree → M) (points : List CallTree) : M :=
  points.foldr (fun t rest => op (say t) rest) e

end

section

variable {M : Type} {op : M → M → M} {e : M} [hid : Std.LawfulIdentity op e] {c r : Rules}
  {μ : Frame → M} {heard : Outcome → M} {say : CallTree → M} {Q : CallTree → Prop} {n : Nat}
  {t t' : CallTree}

theorem said_retained {x : Executor} (ha : x.advance t = .running t') :
    said op e say (x.retained (n + 1) t) =
      op (if (x.fates (n + 1) t).all (· = .succeeded) then say t else e)
        (said op e say (x.retained n t')) := by
  rw [Executor.retained_running ha]
  split
  · rfl
  · exact (hid.left_id _).symm

variable [hop : Std.Associative op]

theorem due_taken {f f' : Frame} {v : M} (h : μ f' = op (μ f) v) (rest : List Frame) (s : Status)
    (ss : List Status) (later : M) :
    op (due op e μ (f :: rest) (s :: ss))
        (op (if (s :: ss).all (· = .succeeded) then v else e) later) =
      op (due op e μ (f' :: rest) (s :: ss)) later := by
  unfold due
  rw [← hop.assoc, hop.assoc (due op e μ rest ss)]
  split
  · rw [h]
  · rw [hid.right_id]

/-- A frame that ends hands what it has to its caller, or both are unheard. -/
theorem due_handed {child parent parent' : Frame}
    (hadopted : child.status = .succeeded → μ parent' = op (μ parent) (μ child))
    (hdropped : child.status ≠ .succeeded → μ parent' = μ parent) (rest : List Frame) (s : Status)
    (ss : List Status) :
    due op e μ (child :: parent :: rest) (child.status :: s :: ss) =
      due op e μ (parent' :: rest) (s :: ss) := by
  rw [due, List.all_cons]
  by_cases hsuccess : child.status = .succeeded
  · rw [decide_eq_true hsuccess, Bool.true_and]
    have htaken := due_taken (hadopted hsuccess) rest s ss e
    rwa [hid.right_id, hid.right_id] at htaken
  · rw [decide_eq_false hsuccess, Bool.false_and, if_neg Bool.false_ne_true,
      hid.right_id, due, due, hdropped hsuccess]

/-- A move shifts what comes out from the moves to come to the frames, and loses nothing. -/
theorem move (hc : Carries c op e μ heard say Q) (hQ : Q t) (htransition : t.Transition c r t')
    (ha : Executor.advance ⟨.ofRules c, r⟩ t = .running t') {s : Status} {ss : List Status}
    (hfates : Executor.fates ⟨.ofRules c, r⟩ n t' = s :: ss) :
    op (due op e μ t.frames (Executor.fates ⟨.ofRules c, r⟩ (n + 1) t))
        (said op e say (Executor.retained ⟨.ofRules c, r⟩ (n + 1) t)) =
      op (due op e μ t'.frames (Executor.fates ⟨.ofRules c, r⟩ n t'))
        (said op e say (Executor.retained ⟨.ofRules c, r⟩ n t')) := by
  rw [said_retained ha]
  generalize said op e say (Executor.retained ⟨.ofRules c, r⟩ n t') = later
  cases htransition with
  | @stepped f f' rest _ before executing _ after =>
    obtain ⟨_, m, hstep, hm⟩ := Executor.advance_executing before executing ha
    obtain ⟨rfl, -⟩ := List.cons.inj (after.symm.trans hm)
    rw [Executor.fates_of_replaced _ before (by rw [executing]; rfl) ha after, hfates, before,
      after]
    exact due_taken (hc.step hQ before hstep) rest s ss later
  | @refused f rest request gas before suspended _ _ _ after =>
    rw [Executor.fates_of_replaced _ before (by rw [suspended]; rfl) ha after, hfates, before,
      after]
    refine due_taken ?_ rest s ss later
    rw [hc.silent before (by simp [suspended]), hc.dropped rfl, hid.right_id]
  | @started f rest request before suspended _ _ _ after =>
    rw [Executor.fates_of_started _ before (by rw [suspended]; rfl) ha after, hfates, before,
      after, List.tail_cons, hc.silent before (by simp [suspended]), due, Frame.child, hc.start,
      ite_self, ite_self, hid.left_id, hid.right_id]
  | @returned child parent rest request gas before ended _ _ _ _ after =>
    rw [Executor.fates_of_ended before ended ha, hfates, before, after,
      hc.silent before (Status.ne_executing_of_isTerminal ended), ite_self, hid.left_id]
    refine congrArg (op · later) (due_handed (hc.adopted hQ before) (fun hfailed => ?_) rest s ss)
    exact hc.dropped (child.childOutcome_failed hfailed)

theorem run_eq (hc : Carries c op e μ heard say Q) (n : Nat) :
    ∀ {t t' : CallTree} {outcome : Outcome}, t.Sound →
      (∀ k t₁, Executor.run ⟨.ofRules c, r⟩ k t = .running t₁ → Q t₁) →
      Executor.run ⟨.ofRules c, r⟩ n t = .finished outcome t' →
      heard outcome = op (due op e μ t.frames (Executor.fates ⟨.ofRules c, r⟩ n t))
        (said op e say (Executor.retained ⟨.ofRules c, r⟩ n t)) := by
  induction n with
  | zero =>
    intro t t' outcome _ _ h
    cases h
  | succ n ih =>
    intro t t' outcome hs hQ h
    unfold Executor.run at h
    rcases Executor.advance_cases c r hs with ⟨t₁, ha, htransition⟩ | ⟨f, t₁, hframes, -, ha, -⟩
    · rw [ha] at h
      cases htransition.follows hs with
      | running hs₁ =>
        have hQ₁ : ∀ k t₂, Executor.run ⟨.ofRules c, r⟩ k t₁ = .running t₂ → Q t₂ := by
          intro k t₂ h₂
          refine hQ (k + 1) t₂ ?_
          rw [Executor.run, ha]
          exact h₂
        obtain ⟨s, ss, hfates⟩ : ∃ s ss, Executor.fates ⟨.ofRules c, r⟩ n t₁ = s :: ss := by
          refine List.exists_cons_of_length_pos ?_
          rw [Executor.length_fates n hs₁ h]
          exact List.length_pos_iff.mpr hs₁.inhabited
        exact (ih hs₁ hQ₁ h).trans (hc.move (hQ 0 t rfl) htransition ha hfates).symm
    · rw [ha] at h
      cases h
      rw [Executor.fates_finished hframes ha, Executor.retained_finished ha, hframes, hc.ends,
        due_singleton, said, List.foldr_nil, hid.right_id]

theorem outcome_eq (hc : Carries c op e μ heard say Q) (n : Nat) (message : Message)
    (limits : Limits) (world : World) (codes : CodeCache) (journal : Journal) {outcome : Outcome}
    (hQ : ∀ k t₁, Executor.run ⟨.ofRules c, r⟩ k
      (Executor.begin (Frame.start message limits) world codes journal) = .running t₁ → Q t₁)
    (h : Executor.run ⟨.ofRules c, r⟩ n
      (Executor.begin (Frame.start message limits) world codes journal) = .finished outcome t') :
    heard outcome = said op e say (Executor.retained ⟨.ofRules c, r⟩ n
      (Executor.begin (Frame.start message limits) world codes journal)) := by
  have hbegin := Executor.begin_sound message limits world codes journal
  obtain ⟨s, hfates⟩ := List.length_eq_one_iff.mp (Executor.length_fates n hbegin h)
  rw [hc.run_eq n hbegin hQ h, hfates]
  show op (due op e μ [Frame.start message limits] [s]) _ = _
  rw [due_singleton, hc.start, ite_self, hid.left_id]

end

theorem said_append (say : CallTree → List Log) (points : List CallTree) :
    said (· ++ ·) [] say points = points.flatMap say := by
  induction points with
  | nil => rfl
  | cons t points ih => rw [said, List.foldr_cons, ← said, ih, List.flatMap_cons]

theorem said_add (say : CallTree → Int) (points : List CallTree) :
    said (· + ·) 0 say points = (points.map say).sum := by
  induction points with
  | nil => rfl
  | cons t points ih => rw [said, List.foldr_cons, ← said, ih, List.map_cons, List.sum_cons]

variable (c : Rules)

theorem logs : Carries c (· ++ ·) [] Frame.logs Outcome.logs (CallTree.logged c)
    fun _ => True where
  start _ _ := rfl
  silent := CallTree.next_idle
  step := by
    intro t f rest s m _ h hstep
    rw [CallTree.logged, CallTree.next_cons h]
    rcases Interpreter.frame_of_step hstep with ⟨i, sig, cost, ha, hm⟩ | ⟨ha, sig, reason, hm⟩
    · rw [hm, ha]
      exact Instruction.logs_performed
    · rw [hm, ha]
      exact (List.append_nil _).symm
  dropped := by
    intro f request outcome gas h
    simp [Frame.resumed, h]
  adopted := by
    intro t child parent rest request gas _ _ h
    rw [child.childOutcome_succeeded h]
    rfl
  ends f := by simp [Frame.outcome, Frame.childOutcome]

theorem refund : Carries c (· + ·) 0 Frame.refund Outcome.refund (CallTree.refunded c)
    (CallTree.AddsExactly c) where
  start _ _ := rfl
  silent := CallTree.next_idle
  step := by
    intro t f rest s m hadds h hstep
    rw [CallTree.refunded, CallTree.next_cons h]
    rcases Interpreter.frame_of_step hstep with ⟨i, sig, cost, ha, hm⟩ | ⟨ha, sig, reason, hm⟩
    · rw [hm, ha]
      refine Instruction.refund_performed fun hi => ?_
      exact hadds.stored f rest h (hi ▸ ha)
    · rw [hm, ha]
      exact (Int.add_zero _).symm
  dropped := by
    intro f request outcome gas h
    rw [Frame.refund_resumed, if_neg (by simp [h])]
  adopted := by
    intro t child parent rest request gas hadds h hsuccess
    rw [child.childOutcome_succeeded hsuccess, Frame.refund_resumed, if_pos rfl]
    exact hadds.returned child parent rest h hsuccess
  ends f := by simp [Frame.outcome, Frame.childOutcome]

end Carries

namespace Executor

/--
A message finishes with the logs of the moves that count, in their order, and with the sum of their
refunds where no sum is cut; with neither if it does not succeed.
-/
theorem outcome_retained (c r : Rules) (message : Message) (limits : Limits) (world : World)
    (codes : CodeCache) (journal : Journal) :
    ∃ outcome t, process ⟨.ofRules c, r⟩ (Frame.start message limits) world codes journal =
        .finished outcome t ∧
      outcome.logs =
        (retained ⟨.ofRules c, r⟩ moveBound
          (begin (Frame.start message limits) world codes journal)).flatMap (CallTree.logged c) ∧
      ((∀ n t, run ⟨.ofRules c, r⟩ n (begin (Frame.start message limits) world codes journal) =
          .running t → t.AddsExactly c) →
        outcome.refund =
          ((retained ⟨.ofRules c, r⟩ moveBound
            (begin (Frame.start message limits) world codes journal)).map
              (CallTree.refunded c)).sum) ∧
      (outcome.status ≠ .succeeded → outcome.logs = [] ∧ outcome.refund = 0) := by
  obtain ⟨outcome, t', h, -⟩ := run_moveBound_finished message limits world codes journal c r
  refine ⟨outcome, t', process_of_run message limits world codes journal h, ?_, ?_, ?_⟩
  · rw [← Carries.said_append]
    exact (Carries.logs c).outcome_eq moveBound message limits world codes journal
      (fun _ _ _ => trivial) h
  · intro hadds
    rw [← Carries.said_add]
    exact (Carries.refund c).outcome_eq moveBound message limits world codes journal hadds h
  · obtain ⟨-, -, f, -, -, -, rfl, -⟩ :=
      run_last c r moveBound (begin_sound message limits world codes journal) h
    intro hfailed
    have hf : f.status ≠ .succeeded := hfailed
    exact ⟨((Carries.logs c).ends f).trans (if_neg hf),
      ((Carries.refund c).ends f).trans (if_neg hf)⟩

/-- Account 5 emits a log, clears its first cell and calls account 6. -/
def logging : Message where
  code := Code.ofBytes
    #[0x60, 0, 0x60, 0, 0xa0, 0x60, 0, 0x60, 0, 0x55, 0x60, 0, 0x60, 0, 0x60, 0, 0x60, 0, 0x60, 0,
      0x60, 6, 0x61, 0x75, 0x30, 0xf1] 0
  initialGas := 100000
  address := 5

/-- Account 6 does the same and goes on to an invalid operation. Both cells hold 7. -/
def failing : World :=
  let code := #[0x60, 0, 0x60, 0, 0xa0, 0x60, 0, 0x60, 0, 0x55, 0xfe]
  { base := ((({} : Ledger).insert 6 { code }).setStorage (5, 0) 7).setStorage (6, 0) 7 }

def loggings : CallTree := begin (Frame.start logging {}) failing {} []

set_option maxRecDepth 8000 in
theorem retained_loggings :
    ((retained ⟨.ofRules .london, .london⟩ moveBound loggings).flatMap
        (CallTree.logged .london)).map (·.address) = [5] ∧
      ((retained ⟨.ofRules .london, .london⟩ moveBound loggings).map
        (CallTree.refunded .london)).sum = 15000 := by
  decide +kernel

set_option maxRecDepth 8000 in
theorem loggings_fail : (run ⟨.ofRules .london, .london⟩ 22 loggings).outcome? = none ∧
    (run ⟨.ofRules .london, .london⟩ 22 loggings).failure? = none ∧
    ((run ⟨.ofRules .london, .london⟩ 22 loggings).tree.frames.map fun f =>
      (f.status, f.logs.map (·.address), f.refund)) =
        [(.halted, [6], 15000), (.suspended, [5], 15000)] := by
  decide +kernel

/-- The callee has emitted a log and has earned a refund, but it halts, and neither is kept. -/
theorem outcome_retained_logging :
    (∃ t, run ⟨.ofRules .london, .london⟩ 22 loggings = .running t ∧
      (t.frames.map fun f => (f.status, f.logs.map (·.address), f.refund)) =
        [(.halted, [6], 15000), (.suspended, [5], 15000)]) ∧
      ∃ outcome t, process ⟨.ofRules .london, .london⟩ (Frame.start logging {}) failing {} [] =
          .finished outcome t ∧
        outcome.logs.map (·.address) = [5] ∧ outcome.refund = 15000 := by
  obtain ⟨houtcome, hfailure, hframes⟩ := loggings_fail
  obtain ⟨hlogs, hrefund⟩ := retained_loggings
  rw [loggings] at hlogs hrefund
  refine ⟨⟨_, Progress.eq_running houtcome hfailure, hframes⟩, ?_⟩
  obtain ⟨outcome, t, hprocess, hlogs', hrefund', -⟩ :=
    outcome_retained .london .london logging {} failing {} []
  rw [← hlogs'] at hlogs
  refine ⟨outcome, t, hprocess, hlogs, (hrefund' fun n t h => ?_).trans hrefund⟩
  exact run_addsExactly .london .london logging {} failing {} [] (by decide) n h

end Executor

end MeteredVm
