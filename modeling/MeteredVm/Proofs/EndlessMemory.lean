import MeteredVm.Frame.Command
import MeteredVm.Proofs.FrameAfter

/-!
# MeteredVm.Proofs.EndlessMemory

Memory against an endless array of bytes.

`Contents` is such an array as a plain map, with nothing left out and no length. It is told of the
same accesses as a memory: what is written is a list of bytes, cut short or filled up with zeros to
the length of the range. A memory holds an array if its buffer is the start of the array and the
array is zero behind it. Every access keeps this, so memory cannot be told apart from the array, and
how long the buffer is is a function of the ranges alone.

* `Contents.put`, `Contents.slice`: writing to the map and reading from it.
* `Memory.Access`: one access, with its range and the number of words it needs.
  `Access.perform_command`: on a frame it is one of the commands.
* `Memory.Holds`: the simulation. `Memory.holds_iff`: the array is `Memory.byteAt`.
  `Holds.perform`: one access keeps it, with the same reply. `Holds.performAll`: any number of them.
* `Access.size_perform`, `Memory.size_performAll`: how far the buffer grows.
* `Memory.refines_contents`: all of this for a new memory.
-/

namespace MeteredVm

/-- An endless array of bytes, as the map of its offsets. -/
abbrev Contents := Nat → UInt8

namespace Contents

def zeros : Contents := fun _ => 0

def slice (c : Contents) (offset len : Nat) : List UInt8 :=
  (List.range len).map fun i => c (offset + i)

def put (c : Contents) (offset : Nat) (bytes : List UInt8) : Contents := fun i =>
  if offset ≤ i then bytes[i - offset]?.getD (c i) else c i

/-- Exactly `len` bytes: the first of these, and zeros if there are too few. -/
def filled (len : Nat) (bytes : List UInt8) : List UInt8 :=
  (bytes ++ List.replicate len 0).take len

theorem getElem?_filled (len i : Nat) (bytes : List UInt8) :
    (filled len bytes)[i]? = if i < len then some (bytes[i]?.getD 0) else none := by
  rw [filled, List.getElem?_take]
  by_cases hl : i < len
  · by_cases hb : i < bytes.length
    · simp [hl, hb, List.getElem?_append]
    · have hzero : i - bytes.length < len := by omega
      simp [hl, hb, List.getElem?_append, hzero]
  · rw [if_neg hl, if_neg hl]

theorem put_filled (c : Contents) (offset len : Nat) (bytes : List UInt8) (i : Nat) :
    c.put offset (filled len bytes) i =
      if offset ≤ i ∧ i < offset + len then bytes[i - offset]?.getD 0 else c i := by
  unfold put
  rw [getElem?_filled]
  by_cases ho : offset ≤ i
  · by_cases hi : i < offset + len
    · have hin : i - offset < len := by omega
      simp [ho, hi, hin]
    · have hout : ¬ i - offset < len := by omega
      simp [ho, hi, hout]
  · simp [ho]

end Contents

namespace Memory

theorem read_eq_slice (m : Memory) (offset len : Nat) :
    m.read offset len = (Contents.slice m.byteAt offset len).toArray := by
  rw [read_eq]
  apply Array.ext
  · simp [Contents.slice]
  · intro i hi _
    simp [Contents.slice]

theorem byteAt_set_eq_put (m : Memory) (offset : Nat) (value : Bytes) (target : Option Nat) :
    (m.set offset value target).byteAt =
      Contents.put m.byteAt offset (Contents.filled (target.getD value.size) value.toList) := by
  funext i
  rw [byteAt_set, Contents.put_filled]
  simp [Bytes.byteAt]

theorem byteAt_copy_eq_put (m : Memory) (offset : Nat) {data : Bytes} (h : data.size ≤ sizeBound)
    (dataOffset : Word) (len : Nat) : (m.copy offset data dataOffset len).byteAt =
      Contents.put m.byteAt offset
        (Contents.filled len (data.toList.drop dataOffset.toNat)) := by
  funext i
  rw [m.byteAt_copy offset h, Contents.put_filled, List.getElem?_drop]
  simp [Bytes.byteAt]

inductive Access where
  | expand (offset len : Nat)
  | read (offset len : Nat)
  | readWord (offset : Nat)
  /-- A write of the value as it is, or of exactly so many bytes. -/
  | write (offset : Nat) (value : Bytes) (target : Option Nat)
  /-- A copy of a range of bytes of which there are no more than a size can tell. -/
  | copy (offset : Nat) (data : Bytes) (dataOffset : Word) (len : Nat)
    (fits : data.size ≤ sizeBound)

namespace Access

/-- The length of the range that is touched. -/
def len : Access → Nat
  | expand _ len | read _ len | copy _ _ _ len _ => len
  | readWord _ => 32
  | write _ value target => target.getD value.size

def offset : Access → Nat
  | expand offset _ | read offset _ | readWord offset | write offset _ _
  | copy offset _ _ _ _ => offset

/-- The number of words that cover the range; an empty range needs none, wherever it is. -/
def needed (a : Access) : Nat := if a.len = 0 then 0 else wordsFor (a.offset + a.len)

def perform (m : Memory) : Access → Reply × Memory
  | expand offset len => (.done, m.expand offset len)
  | read offset len => (.bytes (m.read offset len), m.expand offset len)
  | readWord offset => (.word (m.readWord offset), m.expand offset 32)
  | write offset value target => (.done, m.set offset value target)
  | copy offset data dataOffset len _ => (.done, m.copy offset data dataOffset len)

def mirror (c : Contents) : Access → Reply × Contents
  | expand _ _ => (.done, c)
  | read offset len => (.bytes (c.slice offset len).toArray, c)
  | readWord offset => (.word (Bytes.toWord (c.slice offset 32).toArray), c)
  | write offset value target =>
    (.done, c.put offset (Contents.filled (target.getD value.size) value.toList))
  | copy offset data dataOffset len _ =>
    (.done, c.put offset (Contents.filled len (data.toList.drop dataOffset.toNat)))

def command : Access → Command
  | expand offset len => .expand offset len
  | read offset len => .load offset len
  | readWord offset => .loadWord offset
  | write offset value none => .store offset value
  | write offset value (some len) => .storeFilled offset value len
  | copy offset data dataOffset len _ => .copy offset data dataOffset len

variable (m : Memory) (a : Access)

/-- A frame is told of an access by a command, which changes nothing but its memory. -/
theorem perform_command (f : Frame) :
    a.command.perform f =
      .ok (a.perform f.memory).1 { f with memory := (a.perform f.memory).2 } := by
  cases a with
  | write offset value target => cases target <;> rfl
  | _ => rfl

theorem perform_eq :
    ((a.perform m).1, (a.perform m).2.byteAt) = a.mirror m.byteAt := by
  have expanded : ∀ offset len, (m.expand offset len).byteAt = m.byteAt :=
    fun offset len => funext (m.byteAt_expand offset len)
  cases a with
  | expand offset len => simp only [perform, mirror, expanded]
  | read offset len => simp only [perform, mirror, expanded, read_eq_slice]
  | readWord offset => simp only [perform, mirror, expanded, readWord_eq, read_eq_slice]
  | write offset value target => simp only [perform, mirror, byteAt_set_eq_put]
  | copy offset data dataOffset len fits => simp only [perform, mirror, m.byteAt_copy_eq_put _ fits]

theorem size_perform : (a.perform m).2.size = max m.size (32 * a.needed) := by
  have grown : ∀ offset len, (m.expand offset len).size =
      max m.size (32 * if len = 0 then 0 else wordsFor (offset + len)) := by
    intro offset len
    rw [size_expand]
    split
    · exact (Nat.max_zero _).symm
    · rfl
  cases a with
  | expand offset len | read offset len => exact grown offset len
  | readWord offset => exact grown offset 32
  | write offset value target => exact (m.size_set ..).trans (grown offset _)
  | copy offset data dataOffset len => exact (m.size_copy ..).trans (grown offset len)

theorem byteAt_perform {i : Nat} (h : i < a.offset ∨ a.offset + a.len ≤ i) :
    (a.perform m).2.byteAt i = m.byteAt i := by
  cases a with
  | expand offset len | read offset len | readWord offset => exact byteAt_expand ..
  | write offset value target =>
    change i < offset ∨ offset + target.getD value.size ≤ i at h
    exact (byteAt_set ..).trans (if_neg (by omega))
  | copy offset data dataOffset len fits =>
    change i < offset ∨ offset + len ≤ i at h
    exact (byteAt_copy m offset fits ..).trans (if_neg (by omega))

theorem needed_le {bound : Nat} (h : a.len = 0 ∨ a.offset + a.len ≤ bound) :
    a.needed ≤ wordsFor bound := by
  unfold needed
  split
  · exact Nat.zero_le _
  · rename_i hlen
    exact wordsFor_mono (h.resolve_left hlen)

end Access

def performAll (m : Memory) : List Access → List Reply × Memory
  | [] => ([], m)
  | a :: as =>
    let (reply, m) := a.perform m
    let (replies, m) := m.performAll as
    (reply :: replies, m)

def mostNeeded (accesses : List Access) : Nat := (accesses.map (·.needed)).foldr max 0

theorem size_performAll (accesses : List Access) : ∀ m : Memory,
    (m.performAll accesses).2.size = max m.size (32 * mostNeeded accesses) := by
  induction accesses with
  | nil =>
    intro m
    exact (Nat.max_zero _).symm
  | cons a as ih =>
    intro m
    have hrest := ih (a.perform m).2
    rw [a.size_perform m, Nat.max_assoc, Nat.mul_max_mul_left] at hrest
    exact hrest

theorem mostNeeded_le {accesses : List Access} {bound : Nat}
    (h : ∀ a ∈ accesses, a.len = 0 ∨ a.offset + a.len ≤ bound) :
    mostNeeded accesses ≤ wordsFor bound := by
  induction accesses with
  | nil => exact Nat.zero_le _
  | cons a as ih =>
    have hfirst := a.needed_le (h a List.mem_cons_self)
    have hrest := ih fun b hb => h b (List.mem_cons_of_mem a hb)
    exact Nat.max_le.mpr ⟨hfirst, hrest⟩

end Memory

namespace Contents

open Memory (Access)

def mirrorAll (c : Contents) : List Access → List Reply × Contents
  | [] => ([], c)
  | a :: as =>
    let (reply, c) := a.mirror c
    let (replies, c) := c.mirrorAll as
    (reply :: replies, c)

end Contents

namespace Memory

/-- The buffer is the start of the array, and behind the buffer the array is zero. -/
structure Holds (m : Memory) (c : Contents) : Prop where
  data : m.data = (c.slice 0 m.size).toArray
  zeros : ∀ i, m.size ≤ i → c i = 0

theorem holds_iff {m : Memory} {c : Contents} : m.Holds c ↔ m.byteAt = c := by
  constructor
  · intro h
    funext i
    by_cases hi : i < m.size
    · have hread : Bytes.byteAt (c.slice 0 m.size).toArray i = c i := by
        simp [Contents.slice, Bytes.byteAt, hi]
      exact (congrArg (Bytes.byteAt · i) h.data).trans hread
    · rw [h.zeros i (Nat.not_lt.mp hi)]
      exact Bytes.byteAt_eq_zero (Nat.not_lt.mp hi)
  · rintro rfl
    refine ⟨Array.ext ?_ fun i hi _ => ?_, fun i hi => Bytes.byteAt_eq_zero hi⟩
    · simp [Contents.slice, size]
    · simp [Contents.slice, byteAt, Bytes.byteAt, hi]

/-- An access answers as that to the array does, and leaves the memory with the array after it. -/
theorem Holds.perform {m : Memory} {c : Contents} (h : m.Holds c) (a : Access) :
    (a.perform m).1 = (a.mirror c).1 ∧ (a.perform m).2.Holds (a.mirror c).2 := by
  obtain rfl := holds_iff.mp h
  have hstep := a.perform_eq m
  exact ⟨congrArg Prod.fst hstep, holds_iff.mpr (congrArg Prod.snd hstep)⟩

theorem Holds.performAll (accesses : List Access) : ∀ {m : Memory} {c : Contents}, m.Holds c →
    (m.performAll accesses).1 = (c.mirrorAll accesses).1 ∧
      (m.performAll accesses).2.Holds (c.mirrorAll accesses).2 := by
  induction accesses with
  | nil =>
    intro m c h
    exact ⟨rfl, h⟩
  | cons a as ih =>
    intro m c h
    obtain ⟨hreply, hstep⟩ := h.perform a
    obtain ⟨hreplies, hrest⟩ := ih hstep
    exact ⟨congrArg₂ List.cons hreply hreplies, hrest⟩

theorem holds_empty (limit : UInt64) : (empty limit).Holds Contents.zeros := ⟨rfl, fun _ _ => rfl⟩

/--
A new memory answers every sequence of accesses as an endless array of zeros does, and holds the
same bytes afterwards: its buffer is the start of the array, and there are zeros behind it. The
buffer is as long as one of the accesses needed, in whole words, so it stays within any bound of the
ranges. An access that follows touches no byte outside of its range.
-/
theorem refines_contents (limit : UInt64) (accesses : List Access) :
    let done := (empty limit).performAll accesses
    let expected := Contents.zeros.mirrorAll accesses
    done.1 = expected.1 ∧ done.2.Holds expected.2 ∧
      done.2.size = 32 * mostNeeded accesses ∧
      (∀ bound, (∀ a ∈ accesses, a.len = 0 ∨ a.offset + a.len ≤ bound) →
        done.2.size ≤ 32 * wordsFor bound) ∧
      ∀ (a : Access) (i : Nat), i < a.offset ∨ a.offset + a.len ≤ i →
        (a.perform done.2).2.byteAt i = done.2.byteAt i := by
  intro done expected
  obtain ⟨hreplies, hholds⟩ := (holds_empty limit).performAll accesses
  have hsize : done.2.size = 32 * mostNeeded accesses :=
    (size_performAll accesses (empty limit)).trans (Nat.zero_max _)
  refine ⟨hreplies, hholds, hsize, ?_, fun a i => a.byteAt_perform done.2⟩
  intro bound hbound
  rw [hsize]
  exact Nat.mul_le_mul_left 32 (mostNeeded_le hbound)

/-- Writes that overlap, a value filled up, a source that ends early, and a read that grows. -/
def overlapping : List Access := [
  .write 3 #[1, 2, 3, 4] none,
  .write 4 #[9] (some 2),
  .expand 1000 0,
  .copy 6 #[5, 6] (0x1_0000_0000_0000_0001) 1 (by decide),
  .read 2 6,
  .readWord 40]

theorem refines_contents_overlapping :
    let done := (empty 1024).performAll overlapping
    done.1 = [.done, .done, .done, .done, .bytes #[0, 1, 9, 0, 0, 0], .word 0] ∧
      done.2.size ≤ 32 * wordsFor 72 ∧
      ((Access.write 0 #[7] (some 3)).perform done.2).2.byteAt 4 = 9 := by
  obtain ⟨hreplies, hholds, -, hbound, houtside⟩ := refines_contents 1024 overlapping
  have hkept := houtside (.write 0 #[7] (some 3)) 4 (.inr (by decide))
  have hnine : (Contents.zeros.mirrorAll overlapping).2 4 = 9 := by decide
  have hbytes := congrFun (holds_iff.mp hholds) 4
  exact ⟨hreplies.trans (by decide), hbound 72 (by decide), hkept.trans (hbytes.trans hnine)⟩

end Memory

end MeteredVm
