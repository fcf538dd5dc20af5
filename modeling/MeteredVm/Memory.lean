import MeteredVm.Bytes

/-!
# MeteredVm.Memory

The byte memory of a frame.

Memory is a buffer that starts empty and grows. Touching a range makes the buffer cover it, rounded
up to words of 32 bytes, with zeros in the part that is new; an empty range touches nothing. Bytes
are read and written within the buffer only.

* `Memory.expand`, `Memory.read`, `Memory.readWord`, `Memory.set`, `Memory.copy` — the accesses.
* `Memory.byteAt` — the buffer as if zeros followed it without end. `Memory.byteAt_expand`,
  `Memory.byteAt_set` and `Memory.read_eq` say what the accesses are in this view.
* `Memory.size_expand`, `Memory.size_set` — how far the buffer grows.
-/

namespace MeteredVm

structure Memory where
  data : Bytes
  /-- The greatest end of a range that may be touched. -/
  limit : UInt64

namespace Memory

def empty (limit : UInt64) : Memory := ⟨#[], limit⟩

/-- The number of words that cover `len` bytes. -/
def wordsFor (len : Nat) : Nat := len / 32 + if len % 32 = 0 then 0 else 1

def size (m : Memory) : Nat := m.data.size

/-- The number of words in the buffer. -/
def words (m : Memory) : Nat := m.data.size / 32

def byteAt (m : Memory) (i : Nat) : UInt8 := m.data.byteAt i

/-- Whether touching the range would go past the limit. An empty range never does. -/
def exceedsLimit (m : Memory) (offset len : Word) : Bool :=
  if len = 0 then false
  else
    match (offset.add? len).bind Word.toSize? with
    | none => true
    | some stop => decide (m.limit.toNat < stop)

def expand (m : Memory) (offset len : Nat) : Memory :=
  if len = 0 then m
  else
    let stop := 32 * wordsFor (offset + len)
    if m.data.size < stop then { m with data := m.data.resize stop } else m

theorem words_empty (limit : UInt64) : (empty limit).words = 0 := Nat.zero_div 32

theorem le_wordsFor (n : Nat) : n ≤ 32 * wordsFor n := by
  unfold wordsFor
  split <;> omega

theorem size_expand (m : Memory) (offset len : Nat) : (m.expand offset len).size =
    if len = 0 then m.size else max m.size (32 * wordsFor (offset + len)) := by
  unfold expand
  split
  · rfl
  · dsimp only [size]
    split
    · rw [Bytes.size_resize]
      omega
    · omega

theorem stop_le_size_expand (m : Memory) (offset : Nat) {len : Nat} (h : len ≠ 0) :
    offset + len ≤ (m.expand offset len).size := by
  have hcover := le_wordsFor (offset + len)
  rw [size_expand, if_neg h]
  omega

/-- The bytes of a range that is in the buffer. -/
def slice (m : Memory) (offset len : Nat) (_ : offset + len ≤ m.size) : Bytes :=
  m.data.extract offset (offset + len)

/-- The bytes of a range, which is touched first. -/
def read (m : Memory) (offset len : Nat) : Bytes :=
  if h : len = 0 then #[]
  else (m.expand offset len).slice offset len (m.stop_le_size_expand offset h)

def readWord (m : Memory) (offset : Nat) : Word :=
  ((m.expand offset 32).slice offset 32 (m.stop_le_size_expand offset (by decide))).toWord

/--
Writes bytes at `offset`: all of them, or exactly as many as `target` says, with zeros in the place
of missing ones. It is irreducible so that later modules compare memories by `size_set` and
`byteAt_set`, and do not unfold the loops.
-/
@[irreducible] def set (m : Memory) (offset : Nat) (bytes : Bytes) (target : Option Nat) : Memory :=
  let len := target.getD bytes.size
  if h : len = 0 then m
  else
    let m' := m.expand offset len
    { m' with
      data := m'.data.overwriteFilled offset bytes len (m.stop_le_size_expand offset h) }

def write (m : Memory) (offset : Nat) (bytes : Bytes) : Memory := m.set offset bytes none

/-- Writes exactly `len` bytes at `offset`: `bytes` cut short, or filled up with zeros. -/
def writeFilled (m : Memory) (offset : Nat) (bytes : Bytes) (len : Nat) : Memory :=
  m.set offset bytes (some len)

/-- Copies what there is of the `len` bytes of `data` from `dataOffset` on, and zeros. -/
def copy (m : Memory) (offset : Nat) (data : Bytes) (dataOffset : Word) (len : Nat) : Memory :=
  if len = 0 then m else m.writeFilled offset (data.available dataOffset len) len

@[simp] theorem byteAt_expand (m : Memory) (offset len i : Nat) :
    (m.expand offset len).byteAt i = m.byteAt i := by
  unfold expand
  dsimp only
  split
  · rfl
  · split
    · rename_i hlt
      exact Bytes.byteAt_resize (Nat.le_of_lt hlt) i
    · rfl

theorem slice_eq {m : Memory} {offset len : Nat} (h : offset + len ≤ m.size) :
    m.slice offset len h = Array.ofFn fun i : Fin len => m.byteAt (offset + i) := by
  have hsize : offset + len ≤ m.data.size := h
  unfold slice
  apply Array.ext
  · rw [Array.size_extract, Array.size_ofFn]
    omega
  · intro i hi _
    rw [Array.size_extract] at hi
    have hin : offset + i < m.data.size := by omega
    simp [byteAt, Bytes.byteAt, hin]

/-- A range is read off the buffer, and reads as it did before the buffer grew to cover it. -/
theorem read_eq (m : Memory) (offset len : Nat) :
    m.read offset len = Array.ofFn fun i : Fin len => m.byteAt (offset + i) := by
  unfold read
  split
  · rename_i hempty
    subst hempty
    rfl
  · simp only [slice_eq, byteAt_expand]

theorem readWord_eq (m : Memory) (offset : Nat) :
    m.readWord offset = (m.read offset 32).toWord := by
  rfl

@[simp] theorem size_read (m : Memory) (offset len : Nat) : (m.read offset len).size = len := by
  rw [read_eq, Array.size_ofFn]

theorem words_eq (m : Memory) : m.words = m.size / 32 := rfl

theorem size_set (m : Memory) (offset : Nat) (bytes : Bytes) (target : Option Nat) :
    (m.set offset bytes target).size = (m.expand offset (target.getD bytes.size)).size := by
  unfold set
  dsimp only
  split
  · rename_i hempty
    rw [hempty]
    rfl
  · rename_i h
    exact Bytes.size_overwriteFilled _ _ _ _ (m.stop_le_size_expand offset h)

theorem byteAt_set (m : Memory) (offset : Nat) (bytes : Bytes) (target : Option Nat) (i : Nat) :
    (m.set offset bytes target).byteAt i =
      if offset ≤ i ∧ i < offset + target.getD bytes.size then bytes.byteAt (i - offset)
      else m.byteAt i := by
  unfold set
  dsimp only
  split
  · rw [if_neg (by omega)]
  · rename_i h
    have hwritten := Bytes.byteAt_overwriteFilled _ _ bytes _ (m.stop_le_size_expand offset h) i
    refine hwritten.trans ?_
    split
    · rfl
    · exact m.byteAt_expand ..

theorem size_write (m : Memory) (offset : Nat) (bytes : Bytes) :
    (m.write offset bytes).size = (m.expand offset bytes.size).size :=
  m.size_set offset bytes none

theorem byteAt_write (m : Memory) (offset i : Nat) (bytes : Bytes) :
    (m.write offset bytes).byteAt i =
      if offset ≤ i ∧ i < offset + bytes.size then bytes.byteAt (i - offset) else m.byteAt i :=
  m.byteAt_set offset bytes none i

theorem copy_zero (m : Memory) (offset : Nat) (data : Bytes) (dataOffset : Word) :
    m.copy offset data dataOffset 0 = m := if_pos rfl

theorem size_copy (m : Memory) (offset : Nat) (data : Bytes) (dataOffset : Word) (len : Nat) :
    (m.copy offset data dataOffset len).size = (m.expand offset len).size := by
  unfold copy
  split
  · rename_i hempty
    rw [hempty]
    rfl
  · exact m.size_set offset _ (some len)

theorem byteAt_copy (m : Memory) (offset : Nat) {data : Bytes} (h : data.size ≤ sizeBound)
    (dataOffset : Word) (len i : Nat) : (m.copy offset data dataOffset len).byteAt i =
      if offset ≤ i ∧ i < offset + len then data.byteAt (dataOffset.toNat + (i - offset))
      else m.byteAt i := by
  unfold copy
  split
  · rw [if_neg (by omega)]
  · rw [writeFilled, byteAt_set, Option.getD_some, Bytes.available_eq h]
    split
    · exact Bytes.byteAt_extract data (by omega)
    · rfl

/-- The range is in the buffer, and so are the words that it reaches into. -/
def Covers (m : Memory) (offset len : Nat) : Prop :=
  len = 0 ∨ 32 * wordsFor (offset + len) ≤ m.size

theorem wordsFor_mono {m n : Nat} (h : m ≤ n) : wordsFor m ≤ wordsFor n := by
  unfold wordsFor
  split <;> split <;> omega

theorem Covers.of_le {m : Memory} {offset len len' : Nat} (h : m.Covers offset len)
    (hle : len' ≤ len) : m.Covers offset len' := by
  rcases h with hzero | hstop
  · exact .inl (Nat.eq_zero_of_le_zero (hzero ▸ hle))
  · have hmono := wordsFor_mono (Nat.add_le_add_left hle offset)
    exact .inr (Nat.le_trans (Nat.mul_le_mul_left 32 hmono) hstop)

theorem Covers.of_size_le {m m' : Memory} {offset len : Nat} (h : m.Covers offset len)
    (hle : m.size ≤ m'.size) : m'.Covers offset len :=
  h.imp_right fun hstop => Nat.le_trans hstop hle

theorem size_expand_of_covers {m : Memory} {offset len : Nat} (h : m.Covers offset len) :
    (m.expand offset len).size = m.size := by
  rw [size_expand]
  split
  · rfl
  · rename_i hlen
    exact Nat.max_eq_left (h.resolve_left hlen)

/-- The indices of the words with a byte other than zero, in ascending order, and their bytes. -/
def nonzeroWords (m : Memory) : List (Nat × Bytes) :=
  (List.range m.words).filterMap fun i =>
    let word := m.data.extract (32 * i) (32 * i + 32)
    if word.any (· != 0) then some (i, word) else none

end Memory

end MeteredVm
