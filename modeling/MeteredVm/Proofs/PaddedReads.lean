import Mathlib.Data.Nat.Digits.Defs
import MeteredVm.Proofs.EndlessMemory
import MeteredVm.Proofs.SingleStep

/-!
# MeteredVm.Proofs.PaddedReads

Reading past the end of data.

A frame reads its input in two ways, and its code in two ways. Each has an end of its own: an input
word is read byte by byte, at positions that are sums of words and may not exist; a copy takes what
there is of the range and fills it up in memory; an immediate stands at the low end of a word,
filled up behind. All of them come to a range of the endless array that begins with the data and is
zero behind it, and a word is the number that such a range spells.

* `bigEndian`: the number that bytes spell. `Bytes.toNat_toWord`: the word of at most 32 bytes.
* `Bytes.byteBehind_eq`: a byte of the input, wherever it is asked for.
  `Bytes.extract_append_zeros`: what there is of a range, filled up.
* `Bytes.toNat_wordAt`, `Code.toNat_immediate`, `Memory.toList_read_copy`,
  `Memory.toNat_readWord`: the four readers.
* `Rules.Pushes`: a step that pushes a word. `Interpreter.step_goes_on`: the effect of a step.
* `Interpreter.reads_past_end`: the readers agree, step for step.
-/

namespace MeteredVm

def bigEndian (bytes : List UInt8) : Nat := Nat.ofDigits 256 (bytes.reverse.map (·.toNat))

theorem bigEndian_lt (bytes : List UInt8) : bigEndian bytes < 256 ^ bytes.length := by
  have hdigits : ∀ d ∈ bytes.reverse.map (·.toNat), d < 256 := by
    intro d hd
    obtain ⟨x, -, rfl⟩ := List.mem_map.mp hd
    exact x.toNat_lt
  simpa [bigEndian] using Nat.ofDigits_lt_base_pow_length (by decide) hdigits

theorem bigEndian_zeros_append (k : Nat) (bytes : List UInt8) :
    bigEndian (List.replicate k 0 ++ bytes) = bigEndian bytes := by
  rw [bigEndian, List.reverse_append, List.reverse_replicate, List.map_append, List.map_replicate]
  exact Nat.ofDigits_append_replicate_zero _

namespace Bytes

variable (b : Bytes)

theorem toNat_eq : b.toNat = bigEndian b.toList := by
  rw [toNat, ← Array.foldl_toList, bigEndian, Nat.ofDigits_eq_foldr, List.foldr_map,
    List.foldr_reverse]
  simp only [Nat.cast_id, Nat.add_comm, Nat.mul_comm]

theorem toNat_toWord {b : Bytes} (h : b.size ≤ 32) : b.toWord.toNat = bigEndian b.toList := by
  have hlt : bigEndian b.toList < 2 ^ 256 := by
    refine Nat.lt_of_lt_of_le (bigEndian_lt b.toList) ?_
    exact Nat.pow_le_pow_right (by decide) h
  rw [toWord, toNat_eq]
  exact Nat.mod_eq_of_lt hlt

theorem toList_window_eq_slice (offset len : Nat) :
    (b.window offset len).toList = Contents.slice b.byteAt offset len := by
  apply List.ext_getElem
  · simp [Contents.slice]
  · intro i _ _
    simp [window, Contents.slice]

/-- A position that is no size, or no word, lies past the end. -/
theorem byteBehind_eq {b : Bytes} (h : b.size ≤ sizeBound) (index : Word) {k : Nat}
    (hk : k < 2 ^ 256) : b.byteBehind index k = b.byteAt (index.toNat + k) := by
  have hword : (Word.ofNat k).toNat = k := Nat.mod_eq_of_lt hk
  have hpast : sizeBound ≤ index.toNat + k → b.byteAt (index.toNat + k) = 0 := by
    intro hle
    simp [byteAt, Nat.le_trans h hle]
  unfold byteBehind
  cases hsum : Word.add? index (Word.ofNat k) with
  | none =>
    -- a sum that is no word is past every size as well
    have hover : sizeBound ≤ index.toNat + k := by
      refine Nat.not_lt.mp fun hlt => ?_
      have hfits : (Word.ofNat (index.toNat + k)).toNat = index.toNat + k :=
        Nat.mod_eq_of_lt (Nat.lt_trans hlt (by decide))
      have hsome := Word.add?_eq_some.mpr (hfits.trans (congrArg (index.toNat + ·) hword.symm))
      cases hsum.symm.trans hsome
    rw [hpast hover]
    rfl
  | some p =>
    rw [Word.add?_eq_some, hword] at hsum
    rw [Option.bind_some, Word.toSize?, hsum]
    by_cases hp : index.toNat + k < sizeBound
    · rw [if_pos hp, Option.bind_some]
      simp [byteAt]
    · rw [if_neg hp, hpast (Nat.not_lt.mp hp)]
      rfl

theorem toNat_wordAt {b : Bytes} (h : b.size ≤ sizeBound) (index : Word) :
    (b.wordAt index).toNat = bigEndian (Contents.slice b.byteAt index.toNat 32) := by
  rw [wordAt, toNat_toWord (by simp)]
  refine congrArg bigEndian (List.ext_getElem (by simp [Contents.slice]) fun k hk _ => ?_)
  have hlt : k < 32 := by simpa using hk
  simp only [Array.toList_ofFn, List.getElem_ofFn, Contents.slice, List.getElem_map,
    List.getElem_range]
  exact byteBehind_eq h index (Nat.lt_trans hlt (by decide))

theorem extract_append_zeros (offset len : Nat) :
    b.extract offset (offset + len) ++
        Array.replicate (len - (b.extract offset (offset + len)).size) 0 =
      b.window offset len := by
  have hsize : (b.extract offset (offset + len)).size = min (offset + len) b.size - offset :=
    Array.size_extract
  apply Array.ext
  · rw [Array.size_append, Array.size_replicate, size_window, hsize]
    omega
  · intro i _ hi
    rw [size_window] at hi
    by_cases hin : i < (b.extract offset (offset + len)).size
    · rw [Array.getElem_append_left hin]
      have hi : offset + i < b.size := by omega
      simp [window, byteAt, hi]
    · rw [Array.getElem_append_right (Nat.not_lt.mp hin)]
      have hi : b.size ≤ offset + i := by omega
      simp [window, byteAt, hi]

end Bytes

/-- In front of the bytes, and of the zeros behind them, a word has nothing but zeros. -/
theorem Code.toNat_immediate (code : Code) (pc : Nat) {len : Nat} (h : len ≤ 32) :
    (code.immediate pc len).toNat =
      bigEndian (Contents.slice code.bytes.byteAt (pc + 1) len) := by
  have hdata := code.bytes.extract_append_zeros (pc + 1) len
  -- what there is also counts the zeros, so it is named before it is put together
  unfold immediate
  dsimp only
  generalize code.bytes.extract (pc + 1) (pc + 1 + len) = data at hdata
  have hsize : (data ++ Array.replicate (len - data.size) 0).size = len := by
    rw [hdata, Bytes.size_window]
  rw [Array.append_assoc, Bytes.toNat_toWord, Array.toList_append, Array.toList_replicate,
    bigEndian_zeros_append, hdata, Bytes.toList_window_eq_slice]
  rw [Array.size_append, Array.size_replicate, hsize]
  omega

namespace Memory

variable (m : Memory)

theorem toList_read_copy (offset : Nat) {data : Bytes} (h : data.size ≤ sizeBound)
    (dataOffset : Word) (len : Nat) :
    ((m.copy offset data dataOffset len).read offset len).toList =
      Contents.slice data.byteAt dataOffset.toNat len := by
  have hread : (m.copy offset data dataOffset len).read offset len =
      data.window dataOffset.toNat len := by
    rw [read_eq, Bytes.window]
    refine congrArg Array.ofFn (funext fun i => ?_)
    have hi := i.isLt
    rw [m.byteAt_copy offset h, if_pos (by omega), Nat.add_sub_cancel_left]
  rw [hread, Bytes.toList_window_eq_slice]

theorem toNat_readWord (offset : Nat) :
    (m.readWord offset).toNat = bigEndian (m.read offset 32).toList :=
  Bytes.toNat_toWord (Nat.le_of_eq (m.size_read offset 32))

end Memory

def Rules.Pushes (c : Rules) (f : Frame) (w : World) (value : Nat) : Prop :=
  ∀ journal, ∃ m word, (Interpreter.ofRules c).step ⟨f, w, journal⟩ = .ok .proceed m ∧
    m.frame.stack.items.head? = some word ∧ word.toNat = value

/--
Both readers of the input make these bytes of the 32 from `i` on. One pushes the word of them; the
other copies them to memory, where a frame with that memory reads the word of them.
-/
structure Rules.ReadsInput (c : Rules) (data : Bytes) (i : Word) (bytes : List UInt8) : Prop where
  load : ∀ {f w}, c.admitted? f w = some (.lookup .callData) → f.input = data →
    f.operand 0 = i → c.Pushes f w (bigEndian bytes)
  copy : ∀ {f w}, c.admitted? f w = some (.copy .callData) → f.input = data →
    f.operand 0 = 0 → f.operand 1 = i → f.operand 2 = 32 → ∀ journal, ∃ m,
      (Interpreter.ofRules c).step ⟨f, w, journal⟩ = .ok .proceed m ∧
        (m.frame.memory.read 0 32).toList = bytes ∧
        ∀ {g u}, c.admitted? g u = some .memoryLoad → g.memory = m.frame.memory →
          g.operand 0 = 0 → c.Pushes g u (bigEndian bytes)

/--
Both readers of the code make these bytes of the ones behind `pc`. One pushes the word of them; the
other copies them to memory, to any place.
-/
structure Rules.ReadsCode (c : Rules) (code : Code) (pc : Nat) (n : Fin 32)
    (bytes : List UInt8) : Prop where
  push : ∀ {f w}, c.admitted? f w = some (.push n) → f.code = code → f.pc = pc →
    c.Pushes f w (bigEndian bytes)
  copy : ∀ {f w}, c.admitted? f w = some (.copy .code) → f.code = code →
    (f.operand 1).toNat = pc + 1 → (f.operand 2).toNat = n + 1 → ∀ journal, ∃ m,
      (Interpreter.ofRules c).step ⟨f, w, journal⟩ = .ok .proceed m ∧
        (m.frame.memory.read (f.operand 0).toNat (n + 1)).toList = bytes

namespace Interpreter

section

variable {c : Rules} {f : Frame} {w : World} {i : Instruction}

theorem step_goes_on (journal : Journal) (h : c.admitted? f w = some i)
    (hgoes : i.statusAfter .executing = .executing) :
    ∃ s cost m, (ofRules c).step ⟨f, w, journal⟩ = .ok .proceed m ∧
      m.frame.stack = (i.frameAfter c.tariff.fees ((f.facing s).paid cost) w).stack ∧
      m.frame.memory = (i.frameAfter c.tariff.fees ((f.facing s).paid cost) w).memory := by
  obtain ⟨p, s, cost, journal', -, he, -, hstep⟩ := step_performs journal h
  have hstatus : ((f.facing s).performed c.tariff.fees w i cost s).status = .executing :=
    (Frame.status_performed (f := f.facing s) he).trans hgoes
  rw [Frame.stepResult_executing hstatus] at hstep
  refine ⟨s, cost, _, hstep, ?_, ?_⟩
  · rw [Frame.performed, Frame.advance_eq]
  · rw [Frame.performed, Frame.advance_eq]

theorem pushes_callData (h : c.admitted? f w = some (.lookup .callData)) :
    c.Pushes f w (f.input.wordAt (f.operand 0)).toNat := by
  intro journal
  obtain ⟨s, cost, m, hstep, hstack, -⟩ := step_goes_on journal h rfl
  exact ⟨m, _, hstep, by rw [hstack]; rfl, rfl⟩

theorem pushes_immediate {n : Fin 32} (h : c.admitted? f w = some (.push n)) :
    c.Pushes f w (f.code.immediate f.pc (n + 1)).toNat := by
  intro journal
  obtain ⟨s, cost, m, hstep, hstack, -⟩ := step_goes_on journal h rfl
  exact ⟨m, _, hstep, by rw [hstack]; rfl, rfl⟩

theorem pushes_memory (h : c.admitted? f w = some .memoryLoad) :
    c.Pushes f w (bigEndian (f.memory.read (f.operand 0).toNat 32).toList) := by
  intro journal
  obtain ⟨s, cost, m, hstep, hstack, -⟩ := step_goes_on journal h rfl
  exact ⟨m, _, hstep, by rw [hstack]; rfl, Memory.toNat_readWord ..⟩

theorem step_copies {source : CopySource} (journal : Journal)
    (h : c.admitted? f w = some (.copy source)) (hsize : (source.data f).size ≤ sizeBound) :
    ∃ m, (ofRules c).step ⟨f, w, journal⟩ = .ok .proceed m ∧
      (m.frame.memory.read (f.operand 0).toNat (f.operand 2).toNat).toList =
        Contents.slice (source.data f).byteAt (f.operand 1).toNat (f.operand 2).toNat := by
  obtain ⟨s, cost, m, hstep, -, hmemory⟩ := step_goes_on journal h rfl
  have hdata : source.data ((f.facing s).paid cost) = source.data f := by cases source <;> rfl
  refine ⟨m, hstep, ?_⟩
  rw [← hdata] at hsize ⊢
  rw [hmemory]
  exact Memory.toList_read_copy _ _ hsize ..

theorem readsInput (c : Rules) {data : Bytes} (hsize : data.size ≤ sizeBound) (i : Word) :
    c.ReadsInput data i (Contents.slice data.byteAt i.toNat 32) where
  load := by
    rintro f w h rfl rfl
    rw [← Bytes.toNat_wordAt hsize]
    exact pushes_callData h
  copy := by
    rintro f w h rfl htarget rfl hlen journal
    obtain ⟨m, hstep, hread⟩ := step_copies journal h hsize
    rw [htarget, hlen] at hread
    refine ⟨m, hstep, hread, fun {g u} hload hmemory hoperand => ?_⟩
    have hpushes := pushes_memory hload
    rw [hmemory, hoperand] at hpushes
    exact hread ▸ hpushes

theorem readsCode (c : Rules) {code : Code} (hsize : code.size ≤ sizeBound) (pc : Nat)
    (n : Fin 32) :
    c.ReadsCode code pc n (Contents.slice code.bytes.byteAt (pc + 1) (n + 1)) where
  push := by
    rintro f w h rfl rfl
    rw [← Code.toNat_immediate _ _ n.isLt]
    exact pushes_immediate h
  copy := by
    rintro f w h rfl hstart hlen journal
    obtain ⟨m, hstep, hread⟩ := step_copies journal h hsize
    rw [hstart, hlen] at hread
    exact ⟨m, hstep, hread⟩

end

/--
Whoever reads 32 bytes of the input from any word on, or the bytes behind an instruction, reads a
range of the endless array that begins with the data and is zero behind it. The word may lie past
all positions; neither input nor code does, because their lengths are sizes.
-/
theorem reads_past_end (c : Rules) :
    (∀ (data : Bytes) (i : Word), data.size ≤ sizeBound →
      c.ReadsInput data i (Contents.slice data.byteAt i.toNat 32)) ∧
    ∀ (code : Code) (pc : Nat) (n : Fin 32), code.size ≤ sizeBound →
      c.ReadsCode code pc n (Contents.slice code.bytes.byteAt (pc + 1) (n + 1)) :=
  ⟨fun _ i hsize => readsInput c hsize i, fun _ pc n hsize => readsCode c hsize pc n⟩

def reading (code : Bytes) (operands : List Word) : Frame :=
  { Frame.start { code := Code.ofBytes code 0, input := #[1, 2, 3], initialGas := 100 } {} with
    stack := ⟨operands, 1024⟩ }

/-- The frame that reads the first word of the memory after a step. -/
def loading : EStateM.Result Fatal Machine Step → Frame
  | .ok _ m | .error _ m => { reading #[0x51] [0] with memory := m.frame.memory }

theorem reading_admitted :
    let w : World := { base := {} }
    Rules.london.admitted? (reading #[0x35] [2]) w = some (.lookup .callData) ∧
      Rules.london.admitted? (reading #[0x37] [0, 2, 32]) w = some (.copy .callData) ∧
      Rules.london.admitted?
        (loading ((ofRules .london).step ⟨reading #[0x37] [0, 2, 32], w, []⟩)) w =
          some .memoryLoad ∧
      Rules.london.admitted? { reading #[0x39, 0x62, 0xaa] [] with pc := 1 } w = some (.push 2) ∧
      Rules.london.admitted? (reading #[0x39, 0x62, 0xaa] [7, 2, 3]) w = some (.copy .code) := by
  decide +kernel

/-- An input of which one byte is left, and an immediate of three bytes of which one is there. -/
theorem reads_past_end_truncated :
    let w : World := { base := {} }
    Rules.london.Pushes (reading #[0x35] [2]) w (3 * 256 ^ 31) ∧
      (∃ m, (ofRules .london).step ⟨reading #[0x37] [0, 2, 32], w, []⟩ = .ok .proceed m ∧
        Rules.london.Pushes (loading (.ok .proceed m)) w (3 * 256 ^ 31)) ∧
      Rules.london.Pushes { reading #[0x39, 0x62, 0xaa] [] with pc := 1 } w 0xaa0000 ∧
      ∃ m, (ofRules .london).step ⟨reading #[0x39, 0x62, 0xaa] [7, 2, 3], w, []⟩ =
          .ok .proceed m ∧
        (m.frame.memory.read 7 3).toList = [0xaa, 0, 0] := by
  intro w
  obtain ⟨hload, hcopy, hstored, hpush, hcode⟩ := reading_admitted
  obtain ⟨hinput, hreads⟩ := reads_past_end .london
  have hdata := hinput #[1, 2, 3] 2 (by decide)
  obtain ⟨m, hstep, -, hmemory⟩ := hdata.copy hcopy rfl rfl rfl rfl []
  rw [hstep] at hstored
  refine ⟨?_, ⟨m, hstep, ?_⟩, ?_, ?_⟩
  · exact hdata.load hload rfl rfl
  · exact hmemory hstored rfl rfl
  · exact (hreads _ 1 2 (by decide)).push hpush rfl rfl
  · exact (hreads _ 1 2 (by decide)).copy hcode rfl rfl rfl []

end Interpreter

end MeteredVm
