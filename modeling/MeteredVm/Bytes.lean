import MeteredVm.Word

/-!
# MeteredVm.Bytes

Byte strings and their reading as words.

* `Bytes.byteAt` reads a byte string as if zeros followed it without end, and `Bytes.window` is a
  range of that view.
* `Bytes.toWord` and `Word.toBytes` convert between 32 bytes, most significant first, and a word.
* `Bytes.wordAt` — the word at an index that is itself a word, and may lie anywhere.
* `Bytes.available` — what there is of a range, wherever it begins. `Bytes.available_eq`: no case of
  it is special.
* `Bytes.resize` and `Bytes.overwrite` — the changes of a byte string that is kept in place.
-/

namespace MeteredVm

abbrev Bytes := Array UInt8

namespace Bytes

/-- Byte `i`, zero past the end. -/
def byteAt (b : Bytes) (i : Nat) : UInt8 := b.getD i 0

theorem byteAt_eq_zero {b : Bytes} {i : Nat} (h : b.size ≤ i) : b.byteAt i = 0 := by
  simp [byteAt, h]

/-- The `len` bytes from `offset` on, zeros past the end. -/
def window (b : Bytes) (offset len : Nat) : Bytes :=
  Array.ofFn fun i : Fin len => byteAt b (offset + i)

@[simp] theorem size_window (b : Bytes) (offset len : Nat) : (b.window offset len).size = len := by
  simp [window]

theorem byteAt_extract (b : Bytes) {start stop i : Nat} (h : start + i < stop) :
    byteAt (b.extract start stop) i = byteAt b (start + i) := by
  simp only [byteAt, Array.getD_eq_getD_getElem?, Array.getElem?_extract]
  by_cases hi : start + i < b.size
  · rw [if_pos (by omega)]
  · rw [if_neg (by omega), Array.getElem?_eq_none (by omega)]

/-- The number that a byte string spells, most significant byte first. -/
def toNat (b : Bytes) : Nat := b.foldl (fun n x => n * 256 + x.toNat) 0

/-- The word that a byte string spells, most significant byte first, modulo `2 ^ 256`. -/
def toWord (b : Bytes) : Word := Word.ofNat (toNat b)

/-- The byte `k` places behind `index`; zero when there is no such position, or nothing there. -/
def byteBehind (b : Bytes) (index : Word) (k : Nat) : UInt8 :=
  (((Word.add? index (Word.ofNat k)).bind Word.toSize?).bind (b[·]?)).getD 0

/-- The word that the 32 bytes from `index` on spell. -/
def wordAt (b : Bytes) (index : Word) : Word :=
  toWord (Array.ofFn fun k : Fin 32 => b.byteBehind index k)

/--
What there is of the `len` bytes from `offset` on: nothing, when the offset is no position or lies
behind the end. A stop that is no size lies behind the end as well.
-/
def available (b : Bytes) (offset : Word) (len : Nat) : Bytes :=
  match offset.toSize? with
  | none => #[]
  | some start =>
    if b.size ≤ start then #[]
    else b.extract start (min ((addSize? start len).getD b.size) b.size)

/-- A stop that is no size is cut to the end, because no byte string is longer than a size. -/
theorem min_addSize? {b : Bytes} (h : b.size ≤ sizeBound) (start len : Nat) :
    min ((addSize? start len).getD b.size) b.size = min (start + len) b.size := by
  unfold addSize?
  split
  · rfl
  · rw [Option.getD_none]
    omega

theorem available_eq {b : Bytes} (h : b.size ≤ sizeBound) (offset : Word) (len : Nat) :
    b.available offset len = b.extract offset.toNat (offset.toNat + len) := by
  have hend : ∀ {start : Nat}, b.size ≤ start → b.extract start (start + len) = #[] := by
    intro start hstart
    apply Array.eq_empty_of_size_eq_zero
    rw [Array.size_extract]
    omega
  unfold available Word.toSize?
  by_cases hsize : offset.toNat < sizeBound
  · rw [if_pos hsize]
    dsimp only
    split
    · rename_i hle
      exact (hend hle).symm
    · rw [min_addSize? h]
      simp [Array.extract]
  · rw [if_neg hsize]
    exact (hend (Nat.le_trans h (Nat.not_lt.mp hsize))).symm

/-- Cuts a byte string to a length, or fills it up with zeros. -/
def resize (b : Bytes) (len : Nat) : Bytes :=
  if len ≤ b.size then b.extract 0 len else b ++ Array.replicate (len - b.size) 0

/-- Puts bytes from `offset` on in the place of those that are there. -/
def overwrite (b : Bytes) (offset : Nat) :
    (bytes : List UInt8) → offset + bytes.length ≤ b.size → Bytes
  | [], _ => b
  | x :: rest, h =>
    have hx : offset < b.size := by rw [List.length_cons] at h; omega
    overwrite (b.set offset x) (offset + 1) rest (by
      rw [Array.size_set]
      rw [List.length_cons] at h
      omega)

theorem size_resize (b : Bytes) (len : Nat) : (b.resize len).size = len := by
  unfold resize
  split
  · rw [Array.size_extract]
    omega
  · rw [Array.size_append, Array.size_replicate]
    omega

theorem byteAt_resize {b : Bytes} {len : Nat} (h : b.size ≤ len) (i : Nat) :
    (b.resize len).byteAt i = b.byteAt i := by
  unfold resize
  split
  · rw [Nat.le_antisymm ‹_› h, Array.extract_size]
  · simp only [byteAt, Array.getD_eq_getD_getElem?, Array.getElem?_append,
      Array.getElem?_replicate]
    by_cases hi : i < b.size
    · rw [if_pos hi]
    · rw [if_neg hi, Array.getElem?_eq_none (Nat.not_lt.mp hi)]
      split <;> rfl

theorem size_overwrite (bytes : List UInt8) : ∀ (b : Bytes) (offset : Nat)
    (h : offset + bytes.length ≤ b.size), (b.overwrite offset bytes h).size = b.size := by
  induction bytes with
  | nil => exact fun _ _ _ => rfl
  | cons x rest ih =>
    intro b offset h
    rw [overwrite, ih, Array.size_set]

theorem byteAt_overwrite (bytes : List UInt8) : ∀ (b : Bytes) (offset : Nat)
    (h : offset + bytes.length ≤ b.size) (i : Nat), (b.overwrite offset bytes h).byteAt i =
      if offset ≤ i ∧ i < offset + bytes.length then bytes.getD (i - offset) 0 else b.byteAt i := by
  induction bytes with
  | nil =>
    intro b offset h i
    rw [List.length_nil, if_neg (by omega)]
    rfl
  | cons x rest ih =>
    intro b offset h i
    have hx : offset < b.size := by rw [List.length_cons] at h; omega
    rw [overwrite, ih, List.length_cons]
    obtain hlt | rfl | hgt := Nat.lt_trichotomy i offset
    · rw [if_neg (by omega), if_neg (by omega)]
      simp [byteAt, Nat.ne_of_gt hlt]
    · rw [if_neg (by omega), if_pos (by omega), Nat.sub_self]
      simp [byteAt, hx]
    · obtain ⟨k, rfl⟩ := Nat.exists_eq_add_of_lt hgt
      have hk : offset + k + 1 - offset = k + 1 := by omega
      have hk' : offset + k + 1 - (offset + 1) = k := by omega
      rw [hk, hk']
      by_cases hin : k < rest.length
      · rw [if_pos (by omega), if_pos (by omega), List.getD_cons_succ]
      · rw [if_neg (by omega), if_neg (by omega)]
        have hother : offset ≠ offset + k + 1 := by omega
        simp [byteAt, hother]

theorem length_take_le (bytes : Bytes) (len : Nat) :
    (bytes.toList.take (min len bytes.size)).length = min len bytes.size := by
  rw [List.length_take, Array.length_toList]
  omega

/-- Puts exactly `len` bytes from `offset` on: those of `bytes`, and zeros if there are too few. -/
def overwriteFilled (b : Bytes) (offset : Nat) (bytes : Bytes) (len : Nat)
    (h : offset + len ≤ b.size) : Bytes :=
  let copied := min len bytes.size
  let b' := b.overwrite offset (bytes.toList.take copied) (by
    rw [length_take_le]
    omega)
  b'.overwrite (offset + copied) (List.replicate (len - copied) 0) (by
    rw [List.length_replicate, size_overwrite]
    omega)

theorem size_overwriteFilled (b : Bytes) (offset : Nat) (bytes : Bytes) (len : Nat)
    (h : offset + len ≤ b.size) : (b.overwriteFilled offset bytes len h).size = b.size := by
  rw [overwriteFilled, size_overwrite, size_overwrite]

theorem byteAt_overwriteFilled (b : Bytes) (offset : Nat) (bytes : Bytes) (len : Nat)
    (h : offset + len ≤ b.size) (i : Nat) : (b.overwriteFilled offset bytes len h).byteAt i =
      if offset ≤ i ∧ i < offset + len then bytes.byteAt (i - offset) else b.byteAt i := by
  rw [overwriteFilled, byteAt_overwrite, byteAt_overwrite, length_take_le, List.length_replicate]
  by_cases hin : offset ≤ i ∧ i < offset + len
  · rw [if_pos hin]
    by_cases hcopied : i < offset + bytes.size
    · have hlt : i - offset < min len bytes.size := by omega
      rw [if_neg (by omega), if_pos (by omega), List.getD_eq_getElem?_getD, List.getElem?_take,
        if_pos hlt, Array.getElem?_toList, byteAt, Array.getD_eq_getD_getElem?]
    · have hend : bytes.size ≤ i - offset := by omega
      rw [if_pos (by omega), byteAt_eq_zero hend, List.getD_eq_getElem?_getD,
        List.getElem?_replicate]
      split <;> rfl
  · rw [if_neg hin, if_neg (by omega), if_neg (by omega)]

end Bytes

/-- The 32 bytes of a word, most significant first. -/
def Word.toBytes (w : Word) : Bytes :=
  Array.ofFn fun i : Fin 32 => UInt8.ofNat (w.toNat >>> (8 * (31 - i.val)))

end MeteredVm
