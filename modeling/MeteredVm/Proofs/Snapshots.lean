import MeteredVm.Proofs.Substates
import MeteredVm.Session

/-!
# MeteredVm.Proofs.Snapshots

The layers of a world, read as a stack of complete states.

A world keeps sparse maps of changes, one for each open substate, and a read falls through them to
the ledger. A `View` is what all reads together answer: every balance, every storage value, every
account that exists. `Snapshots` is a stack of views, where opening a substate copies the top and
closing one keeps the top or drops it.

* `World.view`: the view of a world, with one equation for each change (`view_setStorage`,
  `view_transfer`, `view_enter`, and `view_over` for a commit).
* `World.snapshots`: the views of a world and of the substates that are open around it.
* `Session.perform_change`: an edit of the world is the same edit of its snapshots.
* `Session.answers_as_snapshots`: so no sequence of edits can tell the two apart.
-/

namespace MeteredVm

/-- A complete state: every balance, every storage value, every account there is. -/
structure View where
  balance : Address → Word
  storage : Address → Word → Word
  exists? : Address → Bool

namespace View

theorem ext_answers {v v' : View} (balance : ∀ a, v.balance a = v'.balance a)
    (storage : ∀ a key, v.storage a key = v'.storage a key)
    (exists? : ∀ a, v.exists? a = v'.exists? a) : v = v' := by
  cases v
  cases v'
  simp only [View.mk.injEq]
  exact ⟨funext balance, funext fun a => funext (storage a), funext exists?⟩

/-- The account comes into being if there is none. -/
def setBalance (v : View) (a : Address) (balance : Word) : View :=
  { v with
    balance := fun b => if b = a then balance else v.balance b
    exists? := fun b => decide (b = a) || v.exists? b }

def setStorage (v : View) (a : Address) (key value : Word) : View :=
  { v with storage := fun b k => if (b, k) = (a, key) then value else v.storage b k }

/-- The sum of two words as a number, cut to the greatest word. -/
def credited (balance value : Word) : Word :=
  Word.ofNat (min (balance.toNat + value.toNat) (BitVec.allOnes 256).toNat)

/--
Moves `value`: the source is debited, and then the target is credited on top of what it has by
now. `none` when the source cannot afford it.
-/
def transfer (v : View) (source target : Address) (value : Word) : Option View :=
  if value = 0 then some v
  else if v.balance source < value then none
  else
    let debited := v.setBalance source (v.balance source - value)
    some (debited.setBalance target (credited (debited.balance target) value))

end View

theorem Word.saturatingAdd_eq (a b : Word) : Word.saturatingAdd a b = View.credited a b := by
  unfold saturatingAdd add? View.credited
  rw [BitVec.toNat_allOnes]
  apply BitVec.eq_of_toNat_eq
  by_cases h : a.uaddOverflow b = true
  · have hover : 2 ^ 256 ≤ a.toNat + b.toNat := by simpa [BitVec.uaddOverflow] using h
    rw [if_pos h, Option.getD_none, Nat.min_eq_right (by omega)]
    rfl
  · have hfits : a.toNat + b.toNat < 2 ^ 256 := by simpa [BitVec.uaddOverflow] using h
    rw [if_neg h, Option.getD_some, Nat.min_eq_left (by omega), BitVec.toNat_add, Word.ofNat,
      BitVec.toNat_ofNat]

namespace World

def view (w : World) : View := ⟨w.balance, w.storage, w.exists?⟩

section

variable (w : World) (a source target : Address) (key value balance : Word)

theorem exists?_setBalance (b : Address) :
    (w.setBalance a balance).exists? b = (decide (b = a) || w.exists? b) := by
  unfold exists? substates setBalance
  rw [List.any_cons, List.any_cons, Std.ExtTreeMap.contains_insert]
  by_cases h : b = a
  · simp [h]
  · have hc : (compare a b == .eq) = false :=
      beq_eq_false_iff_ne.mpr fun hc => h (Std.LawfulEqCmp.eq_of_compare hc).symm
    rw [hc, decide_eq_false h, Bool.false_or, Bool.false_or]

theorem view_setBalance : (w.setBalance a balance).view = w.view.setBalance a balance := by
  refine View.ext_answers (fun b => balance_setBalance w a b balance) (fun _ _ => rfl) ?_
  exact exists?_setBalance w a balance

theorem view_setStorage : (w.setStorage a key value).view = w.view.setStorage a key value := by
  refine View.ext_answers (fun _ => rfl) (fun b k => ?_) fun _ => rfl
  exact storage_setStorage w a b key k value

theorem view_transfer :
    (w.transfer source target value).map view = w.view.transfer source target value := by
  unfold transfer View.transfer
  by_cases hz : value = 0
  · rw [if_pos hz, if_pos hz, Option.map_some]
  · rw [if_neg hz, if_neg hz]
    by_cases hp : w.balance source < value
    · have hv : w.view.balance source < value := hp
      rw [if_pos hp, if_pos hv, Option.map_none]
    · have hv : ¬w.view.balance source < value := hp
      have hdebited := w.view_setBalance source (w.balance source - value)
      have hseen : (w.setBalance source (w.balance source - value)).balance target =
          (w.view.setBalance source (w.balance source - value)).balance target :=
        congrArg (·.balance target) hdebited
      rw [if_neg hp, if_neg hv, Option.map_some, view_setBalance, Word.saturatingAdd_eq, hdebited,
        hseen]
      rfl

theorem view_enter : w.enter.view = w.view := by
  refine View.ext_answers (fun b => ?_) (fun b k => ?_) fun b => ?_
  · simp [view, World.balance, substates, enter]
  · simp [view, World.storage, substates, enter]
  · simp [view, exists?, substates, enter]

end

theorem view_over (base : Ledger) (inner outer : Changes) (rest : List Changes) :
    view ⟨base, inner.over outer, rest⟩ = view ⟨base, inner, outer :: rest⟩ := by
  refine View.ext_answers (fun b => ?_) (fun b k => ?_) fun b => ?_
  · simp only [view, World.balance, substates, Changes.over, List.findSome?_cons,
      Std.ExtTreeMap.getElem?_union]
    cases inner.balances[b]? <;> rfl
  · simp only [view, World.storage, substates, Changes.over, List.findSome?_cons,
      Std.ExtTreeMap.getElem?_union]
    cases inner.storages[((b, k) : Cell)]? <;> rfl
  · simp only [view, exists?, substates, Changes.over, List.any_cons,
      Std.ExtTreeMap.contains_union]
    cases inner.balances.contains b <;> cases outer.balances.contains b <;> rfl

end World

structure Snapshots where
  top : View
  below : List View := []

inductive World.Edit where
  | setStorage (a : Address) (key value : Word)
  | transfer (source target : Address) (value : Word)
  | enter
  | leave (merge : Merge)

def World.Edit.change : World.Edit → Session.Change
  | setStorage a key value => .setStorage a key value
  | transfer source target value => .transfer source target value
  | enter => .enter
  | leave merge => .leave merge

namespace Snapshots

def ofLedger (l : Ledger) : Snapshots := { top := ⟨l.balance, l.storage, l.exists?⟩ }

/-- Only the top is written to. Opening copies it; a commit puts it in the place of the next. -/
def perform (s : Snapshots) : World.Edit → Session.Answer × Snapshots
  | .setStorage a key value => (.done, { s with top := s.top.setStorage a key value })
  | .transfer source target value =>
    match s.top.transfer source target value with
    | some top => (.flag true, { s with top := top })
    | none => (.flag false, s)
  | .enter => (.done, ⟨s.top, s.top :: s.below⟩)
  | .leave merge =>
    match s.below with
    | [] => (.failure .unevenSubstate, s)
    | next :: rest => (.done, ⟨if merge = .commit then s.top else next, rest⟩)

def performAll (s : Snapshots) : List World.Edit → List Session.Answer × Snapshots
  | [] => ([], s)
  | e :: es =>
    let (answer, s) := s.perform e
    let (answers, s) := s.performAll es
    (answer :: answers, s)

/-- The view of each substate, if it were the innermost. -/
def ofOuter (base : Ledger) : List Changes → List View
  | [] => []
  | changes :: rest => World.view ⟨base, changes, rest⟩ :: ofOuter base rest

theorem length_ofOuter (base : Ledger) (outer : List Changes) :
    (ofOuter base outer).length = outer.length := by
  induction outer with
  | nil => rfl
  | cons changes rest ih => rw [ofOuter, List.length_cons, ih, List.length_cons]

end Snapshots

def World.snapshots (w : World) : Snapshots := ⟨w.view, Snapshots.ofOuter w.base w.outer⟩

theorem World.snapshots_enter (w : World) :
    w.enter.snapshots = ⟨w.view, w.view :: w.snapshots.below⟩ := by
  rw [snapshots, view_enter]
  rfl

theorem World.snapshots_of_sameBelow {w w' : World} (h : w.SameBelow w') :
    w'.snapshots = ⟨w'.view, w.snapshots.below⟩ := by
  rw [snapshots, h.base, h.outer]
  rfl

theorem World.snapshots_leave {w w' : World} {merge : Merge} (h : w.leave merge = .ok w') :
    ∃ next below, w.snapshots.below = next :: below ∧
      w'.snapshots = ⟨if merge = .commit then w.view else next, below⟩ := by
  unfold leave at h
  split at h
  · cases h
  · rename_i changes rest ho
    cases h
    refine ⟨view ⟨w.base, changes, rest⟩, Snapshots.ofOuter w.base rest, ?_, ?_⟩
    · rw [snapshots, ho]
      rfl
    · by_cases hm : merge = .commit
      · rw [if_pos hm, if_pos hm, snapshots, view_over, ← ho]
      · rw [if_neg hm, if_neg hm]
        rfl

theorem World.snapshots_of_ledger (l : Ledger) :
    World.snapshots { base := l } = Snapshots.ofLedger l := by
  have hview : World.view { base := l } = ⟨l.balance, l.storage, l.exists?⟩ := by
    refine View.ext_answers (fun b => ?_) (fun b k => ?_) fun b => ?_
    · simp [World.view, World.balance, World.substates]
    · simp [World.view, World.storage, World.substates]
    · simp [World.view, World.exists?, World.substates]
  rw [World.snapshots, hview]
  rfl

namespace Session

def performAll (x : Executor) (s : Session) : List Change → List Answer × Session
  | [] => ([], s)
  | c :: cs =>
    let (answer, s) := s.perform x c
    let (answers, s) := s.performAll x cs
    (answer :: answers, s)

variable (x : Executor) (s : Session)

/-- An edit of the world is the same edit of its snapshots, and it leaves the ledger alone. -/
theorem perform_change (e : World.Edit) :
    ((s.perform x e.change).1, (s.perform x e.change).2.world.snapshots) =
        s.world.snapshots.perform e ∧
      (s.perform x e.change).2.world.base = s.world.base := by
  cases e with
  | setStorage a key value =>
    refine ⟨?_, rfl⟩
    show (Answer.done, World.snapshots (s.world.setStorage a key value)) = _
    rw [World.snapshots, World.view_setStorage]
    rfl
  | transfer source target value =>
    have hview := s.world.view_transfer source target value
    simp only [World.Edit.change, perform, Snapshots.perform, World.snapshots, ← hview]
    cases ht : s.world.transfer source target value with
    | none => exact ⟨rfl, rfl⟩
    | some world =>
      have hbelow := World.transfer_sameBelow ht
      simp only [Option.map_some, hbelow.base, hbelow.outer, and_self]
  | enter =>
    refine ⟨?_, rfl⟩
    show (Answer.done, World.snapshots s.world.enter) = _
    rw [World.snapshots_enter]
    rfl
  | leave merge =>
    simp only [World.Edit.change, perform, Snapshots.perform, World.snapshots, World.leave]
    cases ho : s.world.outer with
    | nil => exact ⟨by simp only [Snapshots.ofOuter, ho], rfl⟩
    | cons parent rest =>
      refine ⟨?_, rfl⟩
      simp only [Snapshots.ofOuter]
      by_cases hm : merge = .commit
      · rw [if_pos hm, if_pos hm, World.view_over, ← ho]
      · rw [if_neg hm, if_neg hm]

theorem performAll_change (edits : List World.Edit) : ∀ s : Session,
    ((s.performAll x (edits.map (·.change))).1,
        (s.performAll x (edits.map (·.change))).2.world.snapshots) =
        s.world.snapshots.performAll edits ∧
      (s.performAll x (edits.map (·.change))).2.world.base = s.world.base := by
  induction edits with
  | nil =>
    intro s
    exact ⟨rfl, rfl⟩
  | cons e es ih =>
    intro s
    obtain ⟨hstep, hbase⟩ := perform_change x s e
    obtain ⟨hrest, hbase'⟩ := ih (s.perform x e.change).2
    rw [Prod.mk.injEq] at hstep hrest
    refine ⟨?_, hbase'.trans hbase⟩
    simp only [List.map_cons, performAll, Snapshots.performAll, ← hstep.1, ← hstep.2, ← hrest.1,
      ← hrest.2]

/--
A session that only edits its world gives the answers of a stack of complete states: to each edit,
and after all of them to every question about the accounts. Since this holds of every sequence of
edits, it holds after each of its edits too.
-/
theorem answers_as_snapshots (ledger : Ledger) (codes : CodeCache) (journal : Journal)
    (edits : List World.Edit) :
    let done := performAll x { world := { base := ledger }, codes, journal }
      (edits.map (·.change))
    let expected := (Snapshots.ofLedger ledger).performAll edits
    done.1 = expected.1 ∧
      (∀ a, done.2.world.balance a = expected.2.top.balance a) ∧
      (∀ a key, done.2.world.storage a key = expected.2.top.storage a key) ∧
      (∀ a, done.2.world.exists? a = expected.2.top.exists? a) ∧
      (∀ a, done.2.world.isEmpty a =
        (expected.2.top.balance a == 0 && (ledger.code a).isEmpty)) ∧
      done.2.world.depth = expected.2.below.length := by
  obtain ⟨hsame, hbase⟩ := performAll_change x edits { world := { base := ledger }, codes, journal }
  rw [World.snapshots_of_ledger] at hsame
  intro done expected
  have hanswers : done.1 = expected.1 := congrArg Prod.fst hsame
  have hworld : done.2.world.snapshots = expected.2 := congrArg Prod.snd hsame
  have hledger : done.2.world.base = ledger := hbase
  rw [← hworld]
  refine ⟨hanswers, fun _ => rfl, fun _ _ => rfl, fun _ => rfl, ?_, ?_⟩
  · intro a
    rw [World.isEmpty, World.code, hledger]
    rfl
  · exact (Snapshots.length_ofOuter _ _).symm

end Session

end MeteredVm
