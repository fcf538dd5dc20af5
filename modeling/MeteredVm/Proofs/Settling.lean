import MeteredVm.Proofs.Snapshots

/-!
# MeteredVm.Proofs.Settling

What is written down in the ledger is what could be read before.

Pending changes are two sparse maps, one of balances and one of storage cells. Writing them down
puts each entry into the account it names, where a storage value of zero is not stored but removed,
and an account that is missing comes into being. A reader of the new ledger finds the entry if
there was one, and what was there before if not, which is how pending changes are read.

* `Ledger.foldl_put` and `Ledger.foldl_keeps`: writing the entries of a map one after the other,
  seen by a reader of the places written to, and by a reader of anything else.
* `Ledger.balance_apply`, `Ledger.storage_apply`: a ledger after changes, seen by each reader.
* `World.settled_of_depth`: when no substate is open, settling changes no answer.
* `Session.settle_answers`: so it is after every sequence of edits that closes what it opens.
-/

namespace MeteredVm

namespace Ledger

section

variable {K V S R : Type} (put : S → K → V → S)

theorem foldl_of_not_mem [DecidableEq K] (read : S → K → V)
    (hput : ∀ s k v k', read (put s k v) k' = if k' = k then v else read s k')
    {k : K} (entries : List (K × V)) : ∀ s : S, (∀ v, (k, v) ∉ entries) →
      read (entries.foldl (fun s e => put s e.1 e.2) s) k = read s k := by
  induction entries with
  | nil => exact fun _ _ => rfl
  | cons e entries ih =>
    intro s hk
    have hne : k ≠ e.1 := fun he => hk e.2 (he ▸ List.mem_cons_self)
    rw [List.foldl_cons, ih _ fun v hv => hk v (List.mem_cons_of_mem _ hv), hput, if_neg hne]

theorem foldl_of_mem [DecidableEq K] (read : S → K → V)
    (hput : ∀ s k v k', read (put s k v) k' = if k' = k then v else read s k')
    {k : K} {v : V} (entries : List (K × V)) : ∀ s : S,
      entries.Pairwise (fun e e' => e.1 ≠ e'.1) → (k, v) ∈ entries →
        read (entries.foldl (fun s e => put s e.1 e.2) s) k = v := by
  induction entries with
  | nil => exact fun _ _ hk => absurd hk List.not_mem_nil
  | cons e entries ih =>
    intro s hdistinct hk
    rw [List.pairwise_cons] at hdistinct
    rcases List.mem_cons.mp hk with rfl | hk
    · have hlater : ∀ v', (k, v') ∉ entries := fun v' hv' => hdistinct.1 _ hv' rfl
      rw [List.foldl_cons, foldl_of_not_mem put read hput entries _ hlater, hput, if_pos rfl]
    · exact ih _ hdistinct.2 hk

variable [Ord K] [Std.TransOrd K]

/-- Writing down a map puts its entries into their places, over what was there. -/
theorem foldl_put [Std.LawfulEqOrd K] [DecidableEq K] (read : S → K → V)
    (hput : ∀ s k v k', read (put s k v) k' = if k' = k then v else read s k')
    (m : Std.ExtTreeMap K V) (s : S) (k : K) :
    read (m.foldl put s) k = m[k]?.getD (read s k) := by
  rw [Std.ExtTreeMap.foldl_eq_foldl_toList]
  cases hk : m[k]? with
  | none =>
    refine foldl_of_not_mem put read hput _ s fun v hv => ?_
    rw [Std.ExtTreeMap.mem_toList_iff_getElem?_eq_some, hk] at hv
    cases hv
  | some v =>
    refine foldl_of_mem put read hput _ s ?_
      (Std.ExtTreeMap.mem_toList_iff_getElem?_eq_some.mpr hk)
    refine List.Pairwise.imp (fun hne he => hne ?_) Std.ExtTreeMap.distinct_keys_toList
    exact he ▸ Std.ReflCmp.compare_self

theorem foldl_keeps (read : S → R) (hput : ∀ s k v, read (put s k v) = read s)
    (m : Std.ExtTreeMap K V) (s : S) : read (m.foldl put s) = read s := by
  rw [Std.ExtTreeMap.foldl_eq_foldl_toList]
  generalize m.toList = entries
  induction entries generalizing s with
  | nil => rfl
  | cons e entries ih => rw [List.foldl_cons, ih, hput]

end

section

variable (l : Ledger) (a b : Address) (key value : Word) (cell : Cell) (changes : Changes)

theorem account_insert (account : Account) :
    (l.insert a account).account b = if b = a then account else l.account b := by
  unfold Ledger.account insert
  rw [Std.ExtTreeMap.getElem?_insert]
  by_cases h : b = a
  · simp [h]
  · simp [h, Ne.symm h]

theorem account_setBalance : (l.setBalance a value).account b =
    if b = a then { l.account b with balance := value } else l.account b := by
  rw [setBalance, account_insert]
  by_cases h : b = a
  · rw [if_pos h, if_pos h, h]
  · rw [if_neg h, if_neg h]

theorem account_setStorage : (l.setStorage cell value).account b =
    if b = cell.1 then
      { l.account b with
        storage := if value = 0 then (l.account b).storage.erase cell.2
          else (l.account b).storage.insert cell.2 value }
    else l.account b := by
  rw [setStorage, account_insert]
  by_cases h : b = cell.1
  · rw [if_pos h, if_pos h, h]
  · rw [if_neg h, if_neg h]

theorem balance_setBalance :
    (l.setBalance a value).balance b = if b = a then value else l.balance b := by
  rw [balance, account_setBalance]
  split <;> rfl

theorem storage_setBalance : (l.setBalance a value).storage b key = l.storage b key := by
  rw [storage, account_setBalance]
  split <;> rfl

theorem code_setBalance : (l.setBalance a value).code b = l.code b := by
  rw [code, account_setBalance]
  split <;> rfl

theorem version_setBalance : (l.setBalance a value).version b = l.version b := by
  rw [version, account_setBalance]
  split <;> rfl

theorem balance_setStorage : (l.setStorage cell value).balance b = l.balance b := by
  rw [balance, account_setStorage]
  split <;> rfl

/-- A cell whose entry was removed reads as zero. -/
theorem storage_setStorage : (l.setStorage cell value).storage b key =
    if (b, key) = cell then value else l.storage b key := by
  obtain ⟨a, k⟩ := cell
  rw [storage, account_setStorage]
  by_cases hb : b = a
  · subst hb
    rw [if_pos rfl]
    by_cases hv : value = 0
    · by_cases hk : key = k
      · simp [hv, hk]
      · simp [hv, hk, Ne.symm hk, Std.ExtTreeMap.getElem?_erase, storage]
    · rw [if_neg hv]
      by_cases hk : key = k
      · simp [hk]
      · simp [hk, Ne.symm hk, Std.ExtTreeMap.getElem?_insert, storage]
  · rw [if_neg hb, if_neg fun h => hb (congrArg Prod.fst h), storage]

theorem code_setStorage : (l.setStorage cell value).code b = l.code b := by
  rw [code, account_setStorage]
  split <;> rfl

theorem version_setStorage : (l.setStorage cell value).version b = l.version b := by
  rw [version, account_setStorage]
  split <;> rfl

theorem storage_apply_balances :
    (changes.balances.foldl setBalance l).storage a key = l.storage a key :=
  foldl_keeps setBalance (·.storage a key) (fun l b value => l.storage_setBalance b a key value) _ l

theorem balance_apply :
    (l.apply changes).balance a = changes.balances[a]?.getD (l.balance a) :=
  (foldl_keeps setStorage (·.balance a) (fun l cell value => l.balance_setStorage a value cell)
      _ _).trans
    (foldl_put setBalance balance (fun l a value b => l.balance_setBalance a b value) _ l a)

theorem storage_apply : (l.apply changes).storage a key =
    changes.storages[((a, key) : Cell)]?.getD (l.storage a key) := by
  rw [← l.storage_apply_balances a key changes]
  exact foldl_put setStorage (fun l place => l.storage place.1 place.2)
    (fun l cell value place => l.storage_setStorage place.1 place.2 value cell) _ _ (a, key)

theorem apply_keeps {R : Type} (read : Ledger → R)
    (hbalance : ∀ l b value, read (setBalance l b value) = read l)
    (hstorage : ∀ l cell value, read (setStorage l cell value) = read l) :
    read (l.apply changes) = read l :=
  (foldl_keeps setStorage read hstorage _ _).trans (foldl_keeps setBalance read hbalance _ l)

theorem code_apply : (l.apply changes).code a = l.code a :=
  l.apply_keeps changes (·.code a) (fun l b value => l.code_setBalance b a value)
    fun l cell value => l.code_setStorage a value cell

theorem version_apply : (l.apply changes).version a = l.version a :=
  l.apply_keeps changes (·.version a) (fun l b value => l.version_setBalance b a value)
    fun l cell value => l.version_setStorage a value cell

theorem blockHash_apply (number : Word) :
    (l.apply changes).blockHash number = l.blockHash number :=
  l.apply_keeps changes (·.blockHash number) (fun _ _ _ => rfl) fun _ _ _ => rfl

end

end Ledger

namespace World

section

variable (w : World) (a : Address)

theorem code_settle : w.settle.code a = w.code a := w.base.code_apply a w.changes

theorem version_settle : w.settle.version a = w.version a := w.base.version_apply a w.changes

end

/--
The world `w'` gives the answers of `w` to every question about an account but whether it exists,
and what was in storage before the transaction is now what `w` has there.
-/
structure Settled (w w' : World) : Prop where
  balance : ∀ a, w'.balance a = w.balance a
  storage : ∀ a key, w'.storage a key = w.storage a key
  code : ∀ a, w'.code a = w.code a
  version : ∀ a, w'.version a = w.version a
  isEmpty : ∀ a, w'.isEmpty a = w.isEmpty a
  blockHash : ∀ number, w'.blockHash number = w.blockHash number
  settledStorage : ∀ a key, w'.settledStorage a key = w.storage a key

/-- With one substate, reading through it is reading the ledger that it is written down to. -/
theorem settled_of_depth {w : World} (h : w.depth = 0) : w.Settled w.settle := by
  have houter : w.outer = [] := List.eq_nil_of_length_eq_zero h
  have hbalance : ∀ a, w.settle.balance a = w.balance a := by
    intro a
    have hledger : w.settle.balance a = (w.base.apply w.changes).balance a := by
      simp [settle, World.balance, substates]
    rw [hledger, w.base.balance_apply, World.balance, substates, houter]
    cases hc : w.changes.balances[a]? <;> simp [hc]
  have hsettled : ∀ a key, w.settle.settledStorage a key = w.storage a key := by
    intro a key
    rw [World.settledStorage, settle, w.base.storage_apply, World.storage, substates, houter]
    cases hc : w.changes.storages[((a, key) : Cell)]? <;> simp [hc]
  refine ⟨hbalance, fun a key => ?_, w.code_settle, w.version_settle, fun a => ?_, fun number => ?_,
    hsettled⟩
  · rw [← hsettled]
    simp [settle, World.storage, World.settledStorage, substates]
  · rw [World.isEmpty, hbalance, code_settle, World.isEmpty]
  · exact w.base.blockHash_apply w.changes number

end World

namespace Session

variable (x : Executor) (ledger : Ledger) (codes : CodeCache) (journal : Journal)

/--
After edits that leave no substate open, writing the changes down and starting over on the new
ledger changes no answer about balances, storage, code and block hashes; what was in storage
before the transaction is then what is there now.
-/
theorem settle_answers (edits : List World.Edit) :
    let done := (performAll x { world := { base := ledger }, codes, journal }
      (edits.map (·.change))).2
    done.world.depth = 0 → done.world.Settled (done.perform x .settle).2.world := by
  intro done hdepth
  exact World.settled_of_depth hdepth

/-- One account, with a cell that holds zero and one that holds 7. -/
def holding : Ledger :=
  ({} : Ledger).insert 1 { balance := 5, storage := .ofList [((0 : Word), (0 : Word)), (1, 7)] }

/--
The 7 is cleared; a substate moves the balance to an account that is not there and writes there;
a substate that is dropped writes in vain.
-/
def moving : List World.Edit :=
  [.setStorage 1 1 0, .enter, .transfer 1 2 5, .setStorage 2 3 4, .enter, .setStorage 1 0 9,
    .leave .discard, .leave .commit]

theorem settle_answers_moving :
    let x : Executor := ⟨.ofRules .istanbul, .istanbul⟩
    let done := (performAll x { world := { base := holding } } (moving.map (·.change))).2
    let settled := (done.perform x .settle).2.world
    done.world.depth = 0 ∧ done.world.Settled settled ∧
      settled.settledStorage 1 0 = 0 ∧ settled.settledStorage 1 1 = 0 ∧
      settled.settledStorage 2 3 = 4 ∧ settled.balance 2 = 5 := by
  intro x done settled
  have hdepth : done.world.depth = 0 := by decide +kernel
  refine ⟨hdepth, settle_answers x holding {} [] moving hdepth, ?_⟩
  decide +kernel

end Session

end MeteredVm
