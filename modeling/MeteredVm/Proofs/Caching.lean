import MeteredVm.Proofs.Evaluation
import MeteredVm.Proofs.Settling

/-!
# MeteredVm.Proofs.Caching

The code cache cannot be seen.

An entry of the cache is never dropped, and it outlives the message, the revert and the commit it
was made under. It does not get stale because nothing changes the code of an account: running
messages writes to substates only, and settling them writes balances and storage.

* `CodeCache.Faithful`: no entry differs from the ledger.
* `Executor.advance_sameCode` and `Executor.process_sameCode`: neither a move nor a whole message
  changes what code is found, so they keep the cache faithful.
* `Executor.process_uncached`: two faithful caches lead to the same progress, cache apart.
* `Session.transcript_afresh`: a session has the answers, worlds and journals that it has if the
  cache is emptied before each change.
-/

namespace MeteredVm

theorem World.base_abandon (n : Nat) : ∀ w : World, (w.abandon n).base = w.base := by
  induction n with
  | zero => exact fun _ => rfl
  | succ n ih =>
    intro w
    rw [abandon]
    cases hl : w.leave .discard with
    | ok w' => exact (ih w').trans (base_leave hl)
    | error failure => rfl

/-- What the cache tells about an account is what the world tells. -/
def CodeCache.Faithful (codes : CodeCache) (w : World) : Prop :=
  ∀ a, codes.lookup w a = CodeCache.lookup {} w a

namespace CodeCache

theorem faithful_empty (w : World) : Faithful {} w := fun _ => rfl

theorem Faithful.of_code {codes : CodeCache} {w w' : World} (h : codes.Faithful w)
    (hcode : ∀ a, w'.code a = w.code a) (hversion : ∀ a, w'.version a = w.version a) :
    codes.Faithful w' := by
  intro a
  have ha := h a
  unfold lookup at ha ⊢
  rw [hcode, hversion]
  exact ha

theorem Faithful.of_base {codes : CodeCache} {w w' : World} (h : codes.Faithful w)
    (hb : w'.base = w.base) : codes.Faithful w' :=
  h.of_code (fun a => congrArg (·.code a) hb) fun a => congrArg (·.version a) hb

end CodeCache

namespace CallTree

structure SameCode (t t' : CallTree) : Prop where
  base : t'.world.base = t.world.base
  code : ∀ a, t'.code a = t.code a

namespace SameCode

theorem refl (t : CallTree) : t.SameCode t := ⟨rfl, fun _ => rfl⟩

theorem trans {t t' t'' : CallTree} (h : t.SameCode t') (h' : t'.SameCode t'') :
    t.SameCode t'' :=
  ⟨h'.base.trans h.base, fun a => (h'.code a).trans (h.code a)⟩

theorem of_codes {t t' : CallTree} (hc : t'.codes = t.codes)
    (hb : t'.world.base = t.world.base) : t.SameCode t' :=
  ⟨hb, code_congr hc hb⟩

theorem faithful {t t' : CallTree} (h : t.SameCode t') (ht : t.codes.Faithful t.world) :
    t'.codes.Faithful t'.world := by
  intro a
  have hempty : CodeCache.lookup {} t'.world a = CodeCache.lookup {} t.world a := by
    simp only [CodeCache.lookup, World.code, World.version, h.base]
  exact (h.code a).trans ((ht a).trans hempty.symm)

end SameCode

/-- The same moment with nothing in the cache. -/
def uncached (t : CallTree) : CallTree := { t with codes := {} }

theorem uncached_frames (t : CallTree) : t.uncached.frames = t.frames := rfl

theorem uncached_world (t : CallTree) : t.uncached.world = t.world := rfl

theorem uncached_journal (t : CallTree) : t.uncached.journal = t.journal := rfl

theorem journal_remember (t : CallTree) (a : Address) : (t.remember a).journal = t.journal := by
  unfold remember
  split <;> rfl

end CallTree

def Progress.uncached : Progress → Progress
  | .running t => .running t.uncached
  | .finished outcome t => .finished outcome t.uncached
  | .failed failure t => .failed failure t.uncached

theorem Progress.uncached_uncached (p : Progress) : p.uncached.uncached = p.uncached := by
  cases p <;> rfl

namespace CallTree

section

variable (t : CallTree) (parent : Frame) (rest : List Frame)
  (outcome : MessageRequest → ChildOutcome)

theorem deliver_sameCode : t.SameCode (t.deliver parent rest outcome).tree := by
  unfold deliver
  cases parent.pending with
  | none => exact .of_codes rfl rfl
  | some request =>
    dsimp only
    split
    · exact .of_codes rfl rfl
    · exact .of_codes rfl rfl

theorem deliver_uncached :
    t.uncached.deliver parent rest outcome = (t.deliver parent rest outcome).uncached := by
  unfold deliver
  cases parent.pending with
  | none => rfl
  | some request =>
    dsimp only
    split
    · rfl
    · rfl

theorem refuse_sameCode : t.SameCode (t.refuse parent rest).tree := t.deliver_sameCode parent rest _

theorem refuse_uncached : t.uncached.refuse parent rest = (t.refuse parent rest).uncached :=
  t.deliver_uncached parent rest _

end

end CallTree

namespace Executor

open CallTree

section

variable {x : Executor} (t : CallTree) (f : Frame) (rest : List Frame)

theorem stepFrame_sameCode (hx : x.vm.KeepsSubstates) :
    t.SameCode (x.stepFrame t f rest).tree := by
  have hkeeps := Interpreter.step_keepsSubstates hx
  unfold stepFrame
  cases hs : x.vm.step ⟨f, t.world, t.journal⟩ with
  | ok s m => exact .of_codes rfl (hkeeps.ok hs).base
  | error failure m => exact .of_codes rfl (hkeeps.error hs).base

theorem stepFrame_uncached :
    x.stepFrame t.uncached f rest = (x.stepFrame t f rest).uncached := by
  unfold stepFrame
  rw [uncached_world, uncached_journal]
  cases x.vm.step ⟨f, t.world, t.journal⟩ with
  | ok s m => rfl
  | error failure m => rfl

theorem startChild_sameCode : t.SameCode (x.startChild t f rest).tree := by
  have hrecord : ∀ e, t.SameCode (t.record e) := fun e => .of_codes rfl rfl
  rw [startChild_eq]
  cases f.pending with
  | none => exact .refl t
  | some request =>
    dsimp only
    split
    · exact (hrecord _).trans (refuse_sameCode _ f rest)
    · split
      · exact (hrecord _).trans (refuse_sameCode _ f rest)
      · rename_i world htransfer
        have hmoved : t.SameCode { t with world := world } :=
          .of_codes rfl (World.transfer_sameBelow htransfer).base
        refine hmoved.trans ⟨?_, code_remember _ request.codeAddress⟩
        show (CallTree.remember _ _).world.base = _
        rw [world_remember]

/-- What a started child adds to the call tree, but for the cache. -/
theorem startChild_started {request : MessageRequest} {world : World}
    (hp : f.pending = some request) (hd : ¬ x.rules.callDepth.toNat ≤ f.depth)
    (hmoved : t.world.enter.transfer request.caller request.address request.transferValue =
      some world) :
    let child := f.child request (t.code request.codeAddress) x.rules.limits
    (x.startChild t f rest).uncached = .running
      { frames := child :: f :: rest
        world
        journal := .entered child.depth child.address child.gas :: t.journal } := by
  have hsame : t.SameCode { t with world := world } :=
    .of_codes rfl (World.transfer_sameBelow hmoved).base
  simp only [startChild_eq, hp, if_neg hd, hmoved, Progress.uncached, uncached, record,
    code_remember, world_remember, journal_remember, hsame.code]

/-- The code of the child is the ledger's, whether or not it comes from the cache. -/
theorem startChild_uncached (ht : t.codes.Faithful t.world) :
    (x.startChild t.uncached f rest).uncached = (x.startChild t f rest).uncached := by
  cases hp : f.pending with
  | none => simp only [startChild_eq, hp, Progress.uncached, uncached]
  | some request =>
    have hrefuse : ∀ e, ((t.uncached.record e).refuse f rest).uncached =
        ((t.record e).refuse f rest).uncached := by
      intro e
      exact (congrArg Progress.uncached (refuse_uncached (t.record e) f rest)).trans
        (Progress.uncached_uncached _)
    by_cases hd : x.rules.callDepth.toNat ≤ f.depth
    · simp only [startChild_eq, hp, if_pos hd, hrefuse]
    · cases hmoved : t.world.enter.transfer request.caller request.address
          request.transferValue with
      | none =>
        simp only [startChild_eq, hp, if_neg hd, uncached_world, hmoved, hrefuse]
      | some world =>
        -- the child's code is looked up in two caches, and both are faithful
        have hcode : t.uncached.code request.codeAddress = t.code request.codeAddress :=
          (ht request.codeAddress).symm
        rw [startChild_started t f rest hp hd hmoved,
          startChild_started t.uncached f rest hp hd hmoved, hcode]
        rfl

theorem finish_sameCode : t.SameCode (finish t f rest).tree := by
  unfold finish
  cases hl : t.world.leave f.status.merge with
  | error failure => exact .of_codes rfl rfl
  | ok world =>
    cases rest with
    | nil => exact .of_codes rfl (World.base_leave hl)
    | cons parent rest =>
      have hrecorded : t.SameCode (CallTree.record
          { t with world := world, frames := parent :: rest }
          (.left f.depth f.status f.gasBack)) := .of_codes rfl (World.base_leave hl)
      exact hrecorded.trans (deliver_sameCode _ parent rest _)

theorem finish_uncached : finish t.uncached f rest = (finish t f rest).uncached := by
  unfold finish
  rw [uncached_world]
  cases t.world.leave f.status.merge with
  | error failure => rfl
  | ok world =>
    cases rest with
    | nil => rfl
    | cons parent rest =>
      exact deliver_uncached (CallTree.record { t with world := world, frames := parent :: rest }
        (.left f.depth f.status f.gasBack)) parent rest fun _ => f.childOutcome

end

section

variable {x : Executor} {t : CallTree}

theorem advance_sameCode (hx : x.vm.KeepsSubstates) : t.SameCode (x.advance t).tree := by
  unfold advance
  split
  · exact .refl t
  · split
    · exact stepFrame_sameCode t _ _ hx
    · exact startChild_sameCode t _ _
    · exact finish_sameCode t _ _

theorem run_sameCode (hx : x.vm.KeepsSubstates) (n : Nat) :
    ∀ t : CallTree, t.SameCode (x.run n t).tree := by
  induction n with
  | zero => exact .refl
  | succ n ih =>
    intro t
    have hmove := advance_sameCode (t := t) hx
    rw [run]
    cases ha : x.advance t with
    | running t' =>
      rw [ha] at hmove
      exact hmove.trans (ih t')
    | finished outcome t' =>
      rw [ha] at hmove
      exact hmove
    | failed failure t' =>
      rw [ha] at hmove
      exact hmove

theorem advance_uncached (ht : t.codes.Faithful t.world) :
    (x.advance t.uncached).uncached = (x.advance t).uncached := by
  unfold advance
  rw [uncached_frames]
  cases t.frames with
  | nil => rfl
  | cons f rest =>
    dsimp only
    split
    · rw [stepFrame_uncached, Progress.uncached_uncached]
    · exact startChild_uncached t f rest ht
    · rw [finish_uncached, Progress.uncached_uncached]

theorem advance_congr {t' : CallTree} (ht : t.codes.Faithful t.world)
    (ht' : t'.codes.Faithful t'.world) (h : t.uncached = t'.uncached) :
    (x.advance t).uncached = (x.advance t').uncached := by
  rw [← advance_uncached ht, h, advance_uncached ht']

/-- Two faithful caches are as good as each other for any number of moves. -/
theorem run_uncached (hx : x.vm.KeepsSubstates) (n : Nat) : ∀ {t t' : CallTree},
    t.codes.Faithful t.world → t'.codes.Faithful t'.world → t.uncached = t'.uncached →
      (x.run n t).uncached = (x.run n t').uncached := by
  induction n with
  | zero =>
    intro t t' _ _ h
    exact congrArg Progress.running h
  | succ n ih =>
    intro t t' ht ht' h
    have hmove := advance_congr (x := x) ht ht' h
    have hcode := (advance_sameCode (t := t) hx).faithful ht
    have hcode' := (advance_sameCode (t := t') hx).faithful ht'
    rw [run, run]
    -- up to the cache both moves end in the same way
    cases ha : x.advance t with
    | running t₁ =>
      cases ha' : x.advance t' with
      | running t₁' =>
        rw [ha] at hmove hcode
        rw [ha'] at hmove hcode'
        injection hmove with hmove
        exact ih hcode hcode' hmove
      | _ =>
        rw [ha, ha'] at hmove
        cases hmove
    | _ =>
      cases ha' : x.advance t' with
      | running t₁' =>
        rw [ha, ha'] at hmove
        cases hmove
      | _ =>
        rw [ha, ha'] at hmove
        exact hmove

variable {codes codes' : CodeCache} {world : World}

theorem begin_faithful (hc : codes.Faithful world) (frame : Frame) (journal : Journal) :
    (begin frame world codes journal).codes.Faithful (begin frame world codes journal).world := hc

theorem cleanUp_sameCode (p : Progress) : p.tree.SameCode (cleanUp p).tree := by
  cases p with
  | failed failure t => exact .of_codes rfl (World.base_abandon _ _)
  | _ => exact .refl _

theorem process_sameCode (hx : x.vm.KeepsSubstates) (codes : CodeCache) (frame : Frame)
    (world : World) (journal : Journal) :
    (begin frame world codes journal).SameCode (x.process frame world codes journal).tree :=
  (run_sameCode hx moveBound _).trans (cleanUp_sameCode _)

theorem cleanUp_uncached (p : Progress) : (cleanUp p).uncached = cleanUp p.uncached := by
  cases p <;> rfl

theorem process_uncached (hx : x.vm.KeepsSubstates) (hc : codes.Faithful world)
    (hc' : codes'.Faithful world) (frame : Frame) (journal : Journal) :
    (x.process frame world codes journal).uncached =
      (x.process frame world codes' journal).uncached := by
  have hrun := run_uncached hx moveBound (begin_faithful hc frame journal)
    (begin_faithful hc' frame journal) rfl
  rw [process, process, cleanUp_uncached, cleanUp_uncached, hrun]

end

end Executor

namespace Session

variable {x : Executor} {s s' : Session}

def performAfresh (x : Executor) (s : Session) (change : Change) : Answer × Session :=
  perform x { s with codes := {} } change

def seen (after : Answer × Session) : Answer × World × Journal :=
  (after.1, after.2.world, after.2.journal)

def transcript (perform : Session → Change → Answer × Session) :
    Session → List Change → List (Answer × World × Journal)
  | _, [] => []
  | s, change :: changes =>
    seen (perform s change) :: transcript perform (perform s change).2 changes

def seenOf : Progress → Answer × World × Journal
  | .finished outcome t => (.outcome outcome, t.world, t.journal)
  | .failed failure t => (.failure failure, t.world, t.journal)
  | .running t => (.outOfMoves, t.world, t.journal)

theorem seen_process (frame : Frame) :
    seen (s.process x frame) =
      seenOf (x.process frame s.world s.codes s.journal).uncached := by
  unfold process
  cases x.process frame s.world s.codes s.journal <;> rfl

theorem after_process (frame : Frame) :
    (s.process x frame).2 = s.after (x.process frame s.world s.codes s.journal).tree := by
  unfold process
  cases x.process frame s.world s.codes s.journal <;> rfl

/-- No change makes an entry of the cache stale, not even a new ledger. -/
theorem perform_faithful (hx : x.vm.KeepsSubstates) (hs : s.codes.Faithful s.world)
    (change : Change) :
    (s.perform x change).2.codes.Faithful (s.perform x change).2.world := by
  cases change with
  | process frame =>
    rw [perform, after_process]
    exact (Executor.process_sameCode hx s.codes frame s.world s.journal).faithful
      (Executor.begin_faithful hs frame s.journal)
  | forget => exact CodeCache.faithful_empty s.world
  | settle => exact hs.of_code s.world.code_settle s.world.version_settle
  | setStorage a key value => exact hs.of_base rfl
  | transfer source target value =>
    cases ht : s.world.transfer source target value with
    | none =>
      simp only [perform, ht]
      exact hs
    | some world =>
      simp only [perform, ht]
      exact hs.of_base (World.transfer_sameBelow ht).base
  | enter => exact hs.of_base rfl
  | leave merge =>
    cases hl : s.world.leave merge with
    | ok world =>
      simp only [perform, hl]
      exact hs.of_base (World.base_leave hl)
    | error failure =>
      simp only [perform, hl]
      exact hs

theorem perform_afresh (hx : x.vm.KeepsSubstates) (hs : s.codes.Faithful s.world)
    (change : Change) : seen (s.perform x change) = seen (s.performAfresh x change) := by
  cases change with
  | process frame =>
    show seen (s.process x frame) = seen (Session.process x frame _)
    rw [seen_process, seen_process]
    exact congrArg seenOf (Executor.process_uncached hx hs (CodeCache.faithful_empty _) frame _)
  | transfer source target value =>
    cases ht : s.world.transfer source target value <;> simp only [performAfresh, perform, ht, seen]
  | leave merge =>
    cases hl : s.world.leave merge <;> simp only [performAfresh, perform, hl, seen]
  | _ => rfl

theorem transcript_faithful (hx : x.vm.KeepsSubstates) (changes : List Change) :
    ∀ {s s' : Session}, s.codes.Faithful s.world → s'.world = s.world → s'.journal = s.journal →
      transcript (perform x) s changes = transcript (performAfresh x) s' changes := by
  induction changes with
  | nil => exact fun _ _ _ => rfl
  | cons change changes ih =>
    intro s s' hs hworld hjournal
    have hsame : s'.performAfresh x change = s.performAfresh x change := by
      rw [performAfresh, performAfresh, hworld, hjournal]
    have hseen := perform_afresh hx hs change
    rw [← hsame] at hseen
    have hworld' : (s.perform x change).2.world = (s'.performAfresh x change).2.world :=
      congrArg (·.2.1) hseen
    have hjournal' : (s.perform x change).2.journal = (s'.performAfresh x change).2.journal :=
      congrArg (·.2.2) hseen
    rw [transcript, transcript, hseen,
      ih (perform_faithful hx hs change) hworld'.symm hjournal'.symm]

/--
A session that starts with an empty cache and keeps it cannot be told from one that empties the
cache before each change.
-/
theorem transcript_afresh (c r : Rules) (world : World) (journal : Journal)
    (changes : List Change) :
    let x : Executor := ⟨.ofRules c, r⟩
    transcript (perform x) { world, journal } changes =
      transcript (performAfresh x) { world, journal } changes :=
  transcript_faithful (Interpreter.keepsSubstates_ofRules c) changes
    (CodeCache.faithful_empty world) rfl rfl

end Session

end MeteredVm
