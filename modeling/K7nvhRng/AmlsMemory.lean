import K7nvhRng.AmlsExactness
import K7nvhRng.BlockHeap

/-!
# `amls` with its calls of `malloc` and `free`

The function of `software/k7nvh_rng.c` once more, now with pointers into a heap: the three
blocks of a call are allocated, handed to the recursive calls and freed where the source
frees them. Its data is a block as well, either one of the caller or the array `buf`. The
array code of the same function is what the program over the heap does to the contents of
its blocks; the pointers of a call never point to the same block.
-/

namespace K7nvhRng.AmlsMemory
open CheckedArrays BlockHeap AmlsArrays AmlsRefinement PeresExtractor

abbrev Memory := Heap Byte amlsArrayLen

/-- The locals of a call, with pointers in place of the arrays. -/
structure Frame where
  result : Pointer
  resultPos : ℕ
  level1 : Pointer
  level1Pos : ℕ
  levelA : Pointer
  levelAPos : ℕ
  bit0 : Byte

/-- The three allocations. Each of them is followed by a `memset` of `result`. -/
def setUp (al : Allocator) (h : Memory) : Except MemoryFault (Frame × Memory) := do
  let (result, h) := h.malloc al
  let h ← h.fill result (toChar (-1))
  let (level1, h) := h.malloc al
  let h ← h.fill result (toChar (-1))
  let (levelA, h) := h.malloc al
  let h ← h.fill result (toChar (-1))
  return (⟨result, 0, level1, 0, levelA, 0, toChar (-1)⟩, h)

def pairStep (sg : CharSign) (data : Pointer) (i : ℕ) (f : Frame) (h : Memory) :
    Except MemoryFault (Option (Frame × Memory)) := do
  let d ← h.load data i
  if sg.promote d ≠ 0 ∧ sg.promote d ≠ 1 then
    return none
  if sg.promote f.bit0 = -1 then
    return some ({ f with bit0 := d }, h)
  else if sg.promote f.bit0 = sg.promote d then
    let h ← h.store f.levelA f.levelAPos (toChar 0)
    let h ← h.store f.level1 f.level1Pos f.bit0
    return some ({ f with
      levelAPos := f.levelAPos + 1, level1Pos := f.level1Pos + 1, bit0 := toChar (-1) }, h)
  else
    let h ← h.store f.levelA f.levelAPos (toChar 1)
    let h ← h.store f.result f.resultPos f.bit0
    return some ({ f with
      levelAPos := f.levelAPos + 1, resultPos := f.resultPos + 1, bit0 := toChar (-1) }, h)

def pairLoop (sg : CharSign) (data : Pointer) :
    ℕ → ℕ → Frame → Memory → Except MemoryFault (Frame × Memory)
  | 0, _, f, h => .ok (f, h)
  | n + 1, i, f, h => do
    match ← pairStep sg data i f h with
    | none => return (f, h)
    | some (f', h') => pairLoop sg data n (i + 1) f' h'

def appendLoop (sg : CharSign) (src result : Pointer) :
    ℕ → ℕ → ℕ → Memory → Except MemoryFault (ℕ × Memory)
  | 0, _, resultPos, h => .ok (resultPos, h)
  | n + 1, i, resultPos, h => do
    let c ← h.load src i
    if sg.promote c = -1 then
      return (resultPos, h)
    let h ← h.store result resultPos c
    appendLoop sg src result n (i + 1) (resultPos + 1) h

/-- Free the memory that is not used any more. -/
def release (levelAResult level1Result : Pointer) (f : Frame) (h : Memory) :
    Except MemoryFault Memory := do
  let h ← h.free levelAResult
  let h ← h.free level1Result
  let h ← h.free f.levelA
  h.free f.level1

/-- `amls(data, data_len)` with the given number of stack frames. -/
def amls (al : Allocator) (sg : CharSign) :
    (frames : ℕ) → (data : Pointer) → (dataLen : ℕ) → Memory → Except MemoryFault (Pointer × Memory)
  | 0, _, _, _ => .error (.access .stackOverflow)
  | frames + 1, data, dataLen, h => do
    let (f, h) ← setUp al h
    if dataLen < 2 then
      let h ← h.free f.level1
      let h ← h.free f.levelA
      return (f.result, h)
    let (f, h) ← pairLoop sg data dataLen 0 f h
    let (levelAResult, h) ← amls al sg frames f.levelA f.levelAPos h
    let (level1Result, h) ← amls al sg frames f.level1 f.level1Pos h
    let (resultPos, h) ← appendLoop sg levelAResult f.result amlsArrayLen 0 f.resultPos h
    let (_, h) ← appendLoop sg level1Result f.result amlsArrayLen 0 resultPos h
    let h ← release levelAResult level1Result f h
    return (f.result, h)

/-! ### The array code on the contents of the blocks -/

structure Blocks where
  result : ℕ
  level1 : ℕ
  levelA : ℕ

/-- The locals of the array code, with the arrays kept in the given blocks. -/
def Blocks.frame (b : Blocks) (s : Locals) : Frame :=
  ⟨some b.result, s.resultPos, some b.level1, s.level1Pos, some b.levelA, s.levelAPos, s.bit0⟩

def Blocks.memory (b : Blocks) (h : Memory) (s : Locals) : Memory :=
  ((h.put b.result s.result).put b.level1 s.level1).put b.levelA s.levelA

/-- The blocks of a call are allocated, and none of them is another or the data. -/
structure Separate (h : Memory) (a : ℕ) (b : Blocks) : Prop where
  data : a ∈ h.live
  result : b.result ∈ h.live
  level1 : b.level1 ∈ h.live
  levelA : b.levelA ∈ h.live
  data_result : a ≠ b.result
  data_level1 : a ≠ b.level1
  data_levelA : a ≠ b.levelA
  result_level1 : b.result ≠ b.level1
  result_levelA : b.result ≠ b.levelA
  level1_levelA : b.level1 ≠ b.levelA

@[simp] theorem live_memory (b : Blocks) (h : Memory) (s : Locals) :
    (b.memory h s).live = h.live := rfl

theorem memory_levelA (b : Blocks) (h : Memory) (s : Locals) :
    (b.memory h s).contents b.levelA = s.levelA := by
  rw [Blocks.memory, Heap.contents_put_self]

private theorem put_levelA (b : Blocks) (h : Memory) (s : Locals) (x : Block) :
    (b.memory h s).put b.levelA x = b.memory h { s with levelA := x } := by
  rw [Blocks.memory, Heap.put_put, Blocks.memory]

section Contents
variable {h : Memory} {a : ℕ} {b : Blocks} (hb : Separate h a b) (s : Locals)
include hb

theorem Separate.memory_data : (b.memory h s).contents a = h.contents a := by
  rw [Blocks.memory, Heap.contents_put_of_ne _ hb.data_levelA,
    Heap.contents_put_of_ne _ hb.data_level1, Heap.contents_put_of_ne _ hb.data_result]

theorem Separate.memory_result : (b.memory h s).contents b.result = s.result := by
  rw [Blocks.memory, Heap.contents_put_of_ne _ hb.result_levelA,
    Heap.contents_put_of_ne _ hb.result_level1, Heap.contents_put_self]

theorem Separate.memory_level1 : (b.memory h s).contents b.level1 = s.level1 := by
  rw [Blocks.memory, Heap.contents_put_of_ne _ hb.level1_levelA, Heap.contents_put_self]

theorem Separate.put_result (x : Block) :
    (b.memory h s).put b.result x = b.memory h { s with result := x } := by
  rw [Blocks.memory, Heap.put_comm _ hb.result_levelA.symm, Heap.put_comm _ hb.result_level1.symm,
    Heap.put_put, Blocks.memory]

theorem Separate.put_level1 (x : Block) :
    (b.memory h s).put b.level1 x = b.memory h { s with level1 := x } := by
  rw [Blocks.memory, Heap.put_comm _ hb.level1_levelA.symm, Heap.put_put, Blocks.memory]

end Contents

private theorem load_of_fetch {data : Block} {i : ℕ} {d : Byte} (hd : fetch data i = .ok d) :
    load data i = .ok d := by
  rw [fetch] at hd
  split_ifs at hd
  exact hd

section Stores
variable {h : Memory} {a : ℕ} {b : Blocks} (hb : Separate h a b) {s : Locals} {i : ℕ} {x : Byte}
  {y : Block}
include hb

theorem Separate.store_levelA (hy : store s.levelA i x = .ok y) :
    (b.memory h s).store (some b.levelA) i x = .ok (b.memory h { s with levelA := y }) := by
  rw [← memory_levelA b h s] at hy
  rw [Heap.store_of_ok (h := b.memory h s) hb.levelA hy, put_levelA]

theorem Separate.store_level1 (hy : store s.level1 i x = .ok y) :
    (b.memory h s).store (some b.level1) i x = .ok (b.memory h { s with level1 := y }) := by
  rw [← hb.memory_level1 s] at hy
  rw [Heap.store_of_ok (h := b.memory h s) hb.level1 hy, hb.put_level1]

theorem Separate.store_result (hy : store s.result i x = .ok y) :
    (b.memory h s).store (some b.result) i x = .ok (b.memory h { s with result := y }) := by
  rw [← hb.memory_result s] at hy
  rw [Heap.store_of_ok (h := b.memory h s) hb.result hy, hb.put_result]

end Stores

theorem pairStep_of_ok {sg : CharSign} {h : Memory} {a : ℕ} {b : Blocks} (hb : Separate h a b)
    {i : ℕ} {s : Locals} {o : Option Locals}
    (hstep : AmlsArrays.pairStep sg (h.contents a) i s = .ok o) :
    pairStep sg (some a) i (b.frame s) (b.memory h s) =
      .ok (o.map fun s' => (b.frame s', b.memory h s')) := by
  obtain ⟨d, hd, hstep⟩ := bind_eq_ok hstep
  have hload : (b.memory h s).load (some a) i = .ok d := by
    apply Heap.load_of_ok (h := b.memory h s) hb.data
    rw [hb.memory_data]
    exact load_of_fetch hd
  rw [pairStep, hload, ok_bind]
  rw [show (b.frame s).bit0 = s.bit0 from rfl]
  by_cases hend : sg.promote d ≠ 0 ∧ sg.promote d ≠ 1
  · rw [if_pos hend] at hstep ⊢
    cases hstep
    rfl
  rw [if_neg hend] at hstep ⊢
  by_cases hfirst : sg.promote s.bit0 = -1
  · rw [if_pos hfirst] at hstep ⊢
    cases hstep
    rfl
  rw [if_neg hfirst] at hstep ⊢
  by_cases hsame : sg.promote s.bit0 = sg.promote d
  · rw [if_pos hsame] at hstep ⊢
    obtain ⟨levelA, hA, hstep⟩ := bind_eq_ok hstep
    obtain ⟨level1, h1, hstep⟩ := bind_eq_ok hstep
    cases hstep
    have hstoreA : (b.memory h s).store (b.frame s).levelA (b.frame s).levelAPos (toChar 0) =
        .ok (b.memory h { s with levelA := levelA }) := hb.store_levelA hA
    have hstore1 : (b.memory h { s with levelA := levelA }).store (b.frame s).level1
        (b.frame s).level1Pos s.bit0 = .ok (b.memory h { s with levelA := levelA, level1 := level1 }) :=
      hb.store_level1 (s := { s with levelA := levelA }) h1
    rw [hstoreA, ok_bind, hstore1]
    rfl
  · rw [if_neg hsame] at hstep ⊢
    obtain ⟨levelA, hA, hstep⟩ := bind_eq_ok hstep
    obtain ⟨result, hr, hstep⟩ := bind_eq_ok hstep
    cases hstep
    have hstoreA : (b.memory h s).store (b.frame s).levelA (b.frame s).levelAPos (toChar 1) =
        .ok (b.memory h { s with levelA := levelA }) := hb.store_levelA hA
    have hstoreR : (b.memory h { s with levelA := levelA }).store (b.frame s).result
        (b.frame s).resultPos s.bit0 = .ok (b.memory h { s with levelA := levelA, result := result }) :=
      hb.store_result (s := { s with levelA := levelA }) hr
    rw [hstoreA, ok_bind, hstoreR]
    rfl

theorem pairLoop_of_ok {sg : CharSign} {h : Memory} {a : ℕ} {b : Blocks} (hb : Separate h a b)
    (n i : ℕ) {s s' : Locals} (hloop : AmlsArrays.pairLoop sg (h.contents a) n i s = .ok s') :
    pairLoop sg (some a) n i (b.frame s) (b.memory h s) = .ok (b.frame s', b.memory h s') := by
  induction n generalizing i s with
  | zero =>
    cases hloop
    rfl
  | succ n ih =>
    obtain ⟨o, hstep, hloop⟩ := bind_eq_ok hloop
    rw [pairLoop, pairStep_of_ok hb hstep, ok_bind]
    cases o with
    | none =>
      cases hloop
      rfl
    | some t => exact ih (i + 1) hloop

private theorem appendLoop_of_ok {sg : CharSign} {h : Memory} {src result : ℕ} (hsrc : src ∈ h.live)
    (hresult : result ∈ h.live) (hne : src ≠ result) (n i pos : ℕ) (r : Block) {r' : Block}
    {pos' : ℕ} (hloop : AmlsArrays.appendLoop sg (h.contents src) n i r pos = .ok (r', pos')) :
    appendLoop sg (some src) (some result) n i pos (h.put result r) =
      .ok (pos', h.put result r') := by
  induction n generalizing i pos r with
  | zero =>
    cases hloop
    rfl
  | succ n ih =>
    obtain ⟨c, hc, hloop⟩ := bind_eq_ok hloop
    have hload : (h.put result r).load (some src) i = .ok c := by
      apply Heap.load_of_ok (h := h.put result r) hsrc
      rw [Heap.contents_put_of_ne h hne]
      exact hc
    rw [appendLoop, hload, ok_bind]
    split_ifs at hloop ⊢ with hend
    · cases hloop
      rfl
    · obtain ⟨r₁, hstore, hloop⟩ := bind_eq_ok hloop
      rw [← Heap.contents_put_self h result r] at hstore
      rw [Heap.store_of_ok (h := h.put result r) hresult hstore, ok_bind, Heap.put_put]
      exact ih (i + 1) (pos + 1) r₁ hloop

theorem appendLoop_bits {h : Memory} {src result : ℕ} (hsrc : src ∈ h.live)
    (hresult : result ∈ h.live) (hne : src ≠ result) {r : Block} {y z : List Bool}
    (hy : Filled r (y.map bitChar) endMark)
    (hz : Filled (h.contents src) (z.map bitChar) endMark)
    (hroom : (y ++ z).length ≤ amlsArrayLen) :
    ∃ r', appendLoop .signed (some src) (some result) amlsArrayLen 0 y.length (h.put result r) =
        .ok ((y ++ z).length, h.put result r') ∧ Filled r' ((y ++ z).map bitChar) endMark := by
  have hmarks : ∀ c ∈ z.map bitChar, c ≠ endMark := by
    intro c hc
    obtain ⟨d, -, rfl⟩ := List.mem_map.mp hc
    exact bitChar_ne_endMark d
  rw [List.length_append] at hroom
  obtain ⟨r', happ, hr'⟩ := appendLoop_spec [] (z.map bitChar) hz (Nat.zero_add _) hmarks hy
    (by simpa using hroom)
  simp only [List.length_map, List.length_nil] at happ
  refine ⟨r', ?_, by rwa [List.map_append]⟩
  rw [appendLoop_of_ok hsrc hresult hne amlsArrayLen 0 y.length r happ, List.length_append]

/-! ### Allocation and release -/

/-- The second heap has the three blocks of a call in addition. -/
structure SetUp (h : Memory) (b : Blocks) (h' : Memory) : Prop where
  result : b.result ∉ h.live
  level1 : b.level1 ∉ insert b.result h.live
  levelA : b.levelA ∉ insert b.level1 (insert b.result h.live)
  live : h'.live = insert b.levelA (insert b.level1 (insert b.result h.live))
  contents : h'.contents = h.contents

theorem SetUp.card {h h' : Memory} {b : Blocks} (hs : SetUp h b h') :
    h'.live.card = h.live.card + 3 := by
  rw [hs.live, Finset.card_insert_of_notMem hs.levelA, Finset.card_insert_of_notMem hs.level1,
    Finset.card_insert_of_notMem hs.result]

theorem SetUp.separate {h h' : Memory} {b : Blocks} (hs : SetUp h b h') {a : ℕ} (ha : a ∈ h.live) :
    Separate h' a b := by
  obtain ⟨hr, h1, hA, hlive, -⟩ := hs
  simp only [Finset.mem_insert, not_or] at h1 hA
  constructor
  case data | result | level1 | levelA =>
    rw [hlive]
    simp [ha]
  all_goals grind

theorem memset_eq (a : Block) (v : ℤ) : memset a v = Vector.replicate amlsArrayLen (toChar v) := by
  ext i hi
  simp [memset]

/-- What the array code finds in its three blocks. -/
def Blocks.found (b : Blocks) (h : Memory) : ℕ → Block
  | 0 => h.contents b.result
  | 1 => h.contents b.level1
  | _ => h.contents b.levelA

theorem setUp_spec (al : Allocator) {h : Memory} (hroom : h.live.card + 3 ≤ al.room) :
    ∃ b h', SetUp h b h' ∧ setUp al h =
      .ok (b.frame (initLocals (b.found h) 0), b.memory h' (initLocals (b.found h) 0)) := by
  obtain ⟨r, hr, gr⟩ := Heap.gains_malloc (h := h) al (by omega)
  set marks : Block := Vector.replicate amlsArrayLen (toChar (-1)) with hmarks
  set h₁ : Memory := (⟨insert r h.live, h.contents⟩ : Memory).put r marks with h₁def
  have hcard₁ : h₁.live.card = h.live.card + 1 := gr.card
  have hr₁ : h₁.contents r = marks := Heap.contents_put_self _ r marks
  obtain ⟨l, hl, gl⟩ := Heap.gains_malloc (h := h₁) al (by omega)
  set h₂ : Memory := ⟨insert l h₁.live, h₁.contents⟩ with h₂def
  have hcard₂ : h₂.live.card = h.live.card + 2 := by rw [gl.card, hcard₁]
  obtain ⟨A, hA, gA⟩ := Heap.gains_malloc (h := h₂) al (by omega)
  set h₃ : Memory := ⟨insert A h₂.live, h₂.contents⟩ with h₃def
  have hmem₁ : r ∈ h₁.live := gr.mem
  have hmem₂ : r ∈ h₂.live := gl.mem_of_mem hmem₁
  have hmem₃ : r ∈ h₃.live := gA.mem_of_mem hmem₂
  -- the second and the third memset find the markers of the first
  have hsame₂ : h₂.put r marks = h₂ := Heap.put_eq_self hr₁
  have hsame₃ : h₃.put r marks = h₃ := Heap.put_eq_self hr₁
  refine ⟨⟨r, l, A⟩, ⟨h₃.live, h.contents⟩, ⟨gr.fresh, gl.fresh, gA.fresh, rfl, rfl⟩, ?_⟩
  have hrun : setUp al h = .ok (⟨some r, 0, some l, 0, some A, 0, toChar (-1)⟩, h₃) := by
    rw [setUp, hr]
    dsimp only
    rw [Heap.fill_of_mem gr.mem, ok_bind, ← h₁def, hl]
    dsimp only
    rw [Heap.fill_of_mem hmem₂, ok_bind, hsame₂, hA]
    dsimp only
    rw [Heap.fill_of_mem hmem₃, ok_bind, hsame₃]
    rfl
  have hmemory : Blocks.memory ⟨r, l, A⟩ ⟨h₃.live, h.contents⟩
      (initLocals (Blocks.found ⟨r, l, A⟩ h) 0) = h₃ := by
    have hresult : (initLocals (Blocks.found ⟨r, l, A⟩ h) 0).result = marks := memset_eq _ _
    have hkeep : ∀ a, a ≠ r → h₃.contents a = h.contents a := fun a ha =>
      Heap.contents_put_of_ne _ ha marks
    have hl₃ : h₃.put l (h.contents l) = h₃ := Heap.put_eq_self (hkeep l (gl.ne hmem₁).symm)
    have hA₃ : h₃.put A (h.contents A) = h₃ := Heap.put_eq_self (hkeep A (gA.ne hmem₂).symm)
    calc Blocks.memory ⟨r, l, A⟩ ⟨h₃.live, h.contents⟩ (initLocals (Blocks.found ⟨r, l, A⟩ h) 0)
        = (h₃.put l (h.contents l)).put A (h.contents A) := by
          rw [Blocks.memory, hresult]
          rfl
      _ = h₃ := by rw [hl₃, hA₃]
  rw [hrun, hmemory]
  rfl

/-- What a call does to its blocks leaves those of the callers alone. -/
theorem SetUp.memory_frame {h h' : Memory} {b : Blocks} (hs : SetUp h b h') (s : Locals) {a : ℕ}
    (ha : a ∈ h.live) : (b.memory h' s).contents a = h.contents a := by
  rw [(hs.separate ha).memory_data, hs.contents]

theorem SetUp.mem_level1 {h h' : Memory} {b : Blocks} (hs : SetUp h b h') : b.level1 ∈ h'.live := by
  simp [hs.live]

theorem SetUp.mem_levelA {h h' : Memory} {b : Blocks} (hs : SetUp h b h') : b.levelA ∈ h'.live := by
  simp [hs.live]

theorem SetUp.level1_ne_levelA {h h' : Memory} {b : Blocks} (hs : SetUp h b h') :
    b.level1 ≠ b.levelA := by
  have hA := hs.levelA
  rw [Finset.mem_insert, not_or] at hA
  exact Ne.symm hA.1

theorem SetUp.erase {h h' : Memory} {b : Blocks} (hs : SetUp h b h') :
    (h'.live.erase b.levelA).erase b.level1 = insert b.result h.live := by
  rw [hs.live, Finset.erase_insert hs.levelA, Finset.erase_insert hs.level1]

theorem gains_erase {h h' : Memory} {r : ℕ} (hg : Heap.Gains h r h') :
    h'.live.erase r = h.live := by
  rw [hg.live, Finset.erase_insert hg.fresh]

theorem release_spec {h h₁ h₂ h₃ h₄ : Memory} {b : Blocks} {s : Locals} {ra rl : ℕ}
    (hs : SetUp h b h₁) (ga : Heap.Gains (b.memory h₁ s) ra h₂) (gl : Heap.Gains h₂ rl h₃)
    (hlive : h₄.live = h₃.live) :
    ∃ h', release (some ra) (some rl) (b.frame s) h₄ = .ok h' ∧
      h'.live = insert b.result h.live ∧ h'.contents = h₄.contents := by
  have hne : ra ≠ rl := gl.ne ga.mem
  -- what is left after each of the four calls of `free`
  have h₅ : (h₄.drop ra).live.erase rl = h₁.live := by
    rw [Heap.live_drop, hlive, Finset.erase_right_comm, gains_erase gl, gains_erase ga, live_memory]
  have hra : ra ∈ h₄.live := by
    rw [hlive]
    exact gl.mem_of_mem ga.mem
  have hrl : rl ∈ (h₄.drop ra).live := by
    rw [Heap.live_drop, hlive]
    exact Finset.mem_erase_of_ne_of_mem hne.symm gl.mem
  have hA : b.levelA ∈ ((h₄.drop ra).drop rl).live := by
    rw [Heap.live_drop, h₅]
    exact hs.mem_levelA
  have h1 : b.level1 ∈ (((h₄.drop ra).drop rl).drop b.levelA).live := by
    rw [Heap.live_drop, Heap.live_drop, h₅]
    exact Finset.mem_erase_of_ne_of_mem hs.level1_ne_levelA hs.mem_level1
  refine ⟨(((h₄.drop ra).drop rl).drop b.levelA).drop b.level1, ?_, ?_, rfl⟩
  · rw [release, Heap.free_of_mem hra, ok_bind, Heap.free_of_mem hrl, ok_bind]
    rw [show (b.frame s).levelA = some b.levelA from rfl, Heap.free_of_mem hA, ok_bind]
    rw [show (b.frame s).level1 = some b.level1 from rfl, Heap.free_of_mem h1]
  · rw [Heap.live_drop, Heap.live_drop, Heap.live_drop, h₅, hs.erase]

theorem amls_short (al : Allocator) {h h₁ : Memory} {a : ℕ} (ha : a ∈ h.live) {b : Blocks}
    (hs : SetUp h b h₁) (hsetUp : setUp al h =
      .ok (b.frame (initLocals (b.found h) 0), b.memory h₁ (initLocals (b.found h) 0)))
    (frames : ℕ) {dataLen : ℕ} (hshort : dataLen < 2) :
    ∃ r h', amls al .signed (frames + 1) (some a) dataLen h = .ok (some r, h') ∧
      Heap.Gains h r h' ∧ Filled (h'.contents r)
        ((peres (leadingBits ((h.contents a).toList.take dataLen))).map bitChar) endMark := by
  set s := initLocals (b.found h) 0
  have h1 : b.level1 ∈ (b.memory h₁ s).live := hs.mem_level1
  have hA : b.levelA ∈ ((b.memory h₁ s).drop b.level1).live :=
    Finset.mem_erase_of_ne_of_mem hs.level1_ne_levelA.symm hs.mem_levelA
  refine ⟨b.result, ((b.memory h₁ s).drop b.level1).drop b.levelA, ?_, ⟨hs.result, ?_, ?_⟩, ?_⟩
  · rw [amls, hsetUp, ok_bind]
    dsimp only
    rw [if_pos hshort, show (b.frame s).level1 = some b.level1 from rfl, Heap.free_of_mem h1, ok_bind,
      show (b.frame s).levelA = some b.levelA from rfl, Heap.free_of_mem hA]
    rfl
  · rw [Heap.live_drop, Heap.live_drop, live_memory, Finset.erase_right_comm, hs.erase]
  · intro a' ha'
    rw [Heap.contents_drop, Heap.contents_drop, hs.memory_frame s ha']
  · have hbits := length_leadingBits_le ((h.contents a).toList.take dataLen)
    rw [List.length_take] at hbits
    rw [Heap.contents_drop, Heap.contents_drop, (hs.separate ha).memory_result,
      peres_of_length_lt_two (by omega)]
    exact (Paired.init (b.found h) 0).result

/-- A call whose recursion has at most `depth` levels needs memory for `4 * depth - 1` blocks.
It returns one block more than there were, which holds the extraction of the leading bits of
its data and then end markers. No other block has changed. -/
theorem amls_spec (al : Allocator) {depth frames : ℕ} {h : Memory} {a : ℕ} (ha : a ∈ h.live)
    (dataLen : ℕ) (hdepth : 0 < depth) (hframes : depth ≤ frames) (hpow : dataLen < 2 ^ depth)
    (hlen : dataLen ≤ amlsArrayLen) (hroom : h.live.card + (4 * depth - 1) ≤ al.room) :
    ∃ r h', amls al .signed frames (some a) dataLen h = .ok (some r, h') ∧ Heap.Gains h r h' ∧
      Filled (h'.contents r)
        ((peres (leadingBits ((h.contents a).toList.take dataLen))).map bitChar) endMark := by
  induction frames generalizing depth h a dataLen with
  | zero => omega
  | succ frames ih =>
    obtain ⟨b, h₁, hs, hsetUp⟩ := setUp_spec al (h := h) (by omega)
    have hsep := hs.separate ha
    have hpaired : Paired [] (initLocals (b.found h) 0) := Paired.init _ 0
    by_cases hshort : dataLen < 2
    · exact amls_short al ha hs hsetUp frames hshort
    set x := leadingBits ((h.contents a).toList.take dataLen) with hxdef
    have hxlen : x.length ≤ dataLen := by
      have hbits := length_leadingBits_le ((h.contents a).toList.take dataLen)
      rw [← hxdef, List.length_take] at hbits
      omega
    -- the pairing loop
    obtain ⟨s, hloop, hpaired⟩ := pairLoop_spec (h.contents a) dataLen [] (by simpa using hlen)
      (by simpa using hlen) hpaired rfl
    simp only [List.nil_append, List.length_nil, List.drop_zero, ← hxdef] at hloop hpaired
    rw [← hs.contents] at hloop
    have hpairLoop := pairLoop_of_ok hsep dataLen 0 hloop
    obtain ⟨hvon, hcom⟩ := length_parts_le x
    have hxor := length_pairXor x
    obtain ⟨depth, rfl⟩ : ∃ d, depth = d + 1 := ⟨depth - 1, by omega⟩
    have hdepth' : 0 < depth := by
      by_contra hzero
      obtain rfl : depth = 0 := by omega
      simp only [Nat.zero_add, Nat.pow_one] at hpow
      omega
    rw [Nat.pow_succ] at hpow
    have hcard := hs.card
    -- the recursive calls
    obtain ⟨ra, h₂, hamlsA, ga, fA⟩ := ih (h := b.memory h₁ s) hs.mem_levelA s.levelAPos hdepth'
      (by omega) (by rw [hpaired.levelAPos]; omega) (by rw [hpaired.levelAPos]; omega)
      (by rw [live_memory]; omega)
    have hcard₂ := ga.card
    rw [live_memory] at hcard₂
    obtain ⟨rl, h₃, hamls1, gl, f1⟩ := ih (h := h₂) (ga.mem_of_mem hs.mem_level1) s.level1Pos
      hdepth' (by omega) (by rw [hpaired.level1Pos]; omega) (by rw [hpaired.level1Pos]; omega)
      (by omega)
    rw [memory_levelA, hpaired.take_levelA, leadingBits_map_bitChar] at fA
    rw [ga.frame _ hs.mem_level1, hsep.memory_level1, hpaired.take_level1,
      leadingBits_map_bitChar] at f1
    -- copying their results
    have hmemr : b.result ∈ h₂.live := ga.mem_of_mem hsep.result
    have hresult : h₃.contents b.result = s.result := by
      rw [gl.frame _ hmemr, ga.frame _ hsep.result, hsep.memory_result]
    have htotal : (peres x).length ≤ amlsArrayLen := (length_peres_le x).trans (hxlen.trans hlen)
    rw [peres_eq, List.length_append] at htotal
    obtain ⟨r₁, happA, hr₁⟩ := appendLoop_bits (h := h₃) (gl.mem_of_mem ga.mem)
      (gl.mem_of_mem hmemr) (ga.ne hsep.result).symm hpaired.result
      (by rwa [gl.frame _ ga.mem]) (by omega)
    obtain ⟨r₂, happ1, hr₂⟩ := appendLoop_bits (h := h₃) gl.mem (gl.mem_of_mem hmemr)
      (gl.ne hmemr).symm hr₁ f1 (by rwa [List.length_append])
    rw [Heap.put_eq_self hresult, ← hpaired.resultPos] at happA
    obtain ⟨h', hrelease, hlive', hcontents'⟩ := release_spec hs ga gl
      (Heap.live_put h₃ b.result r₂)
    refine ⟨b.result, h', ?_, ⟨hs.result, hlive', ?_⟩, ?_⟩
    · dsimp only [Blocks.frame] at hpairLoop hrelease
      simp only [amls, hsetUp, ok_bind, if_neg hshort, hpairLoop, hamlsA, hamls1, happA, happ1,
        Blocks.frame, hrelease, pure_eq_ok]
    · intro a' ha'
      have hsep' := hs.separate ha'
      rw [hcontents', Heap.contents_put_of_ne _ hsep'.data_result,
        gl.frame _ (ga.mem_of_mem hsep'.data), ga.frame _ hsep'.data, hs.memory_frame s ha']
    · rw [hcontents', Heap.contents_put_self, peres_eq]
      exact hr₂

/-- The block returned holds what the array code returns, for every call on the data. -/
theorem amls_arrays (al : Allocator) {frames : ℕ} (hframes : 10 ≤ frames) {h : Memory} {a : ℕ}
    (ha : a ∈ h.live) (dataLen : ℕ) (hlen : dataLen ≤ amlsArrayLen)
    (hroom : h.live.card + 39 ≤ al.room) :
    ∃ r h', amls al .signed frames (some a) dataLen h = .ok (some r, h') ∧ Heap.Gains h r h' ∧
      ∀ heap mallocs, ∃ mallocs', AmlsArrays.amls .signed heap frames (h.contents a) dataLen mallocs =
        .ok (h'.contents r, mallocs') := by
  obtain ⟨r, h', hamls, hgains, hfilled⟩ := amls_spec al ha dataLen (Nat.succ_pos 9) hframes
    (by rw [amlsArrayLen] at hlen; omega) hlen hroom
  refine ⟨r, h', hamls, hgains, fun heap mallocs => ?_⟩
  obtain ⟨result, mallocs', harrays, hfilled'⟩ :=
    amls_filled heap mallocs hframes (h.contents a) dataLen hlen hlen
  have heq : result = h'.contents r := Vector.toList_inj.mp (hfilled'.trans hfilled.symm)
  exact ⟨mallocs', heq ▸ harrays⟩

/-- With memory for 39 blocks more than are in use, `amls` never follows a null pointer, never
touches or frees a block that is not allocated, and returns with exactly one block more than
there were: the one it returns, which holds what the array code returns. All other blocks in
use have kept their contents. -/
theorem amls_memory_safe (al : Allocator) {frames : ℕ} (hframes : 10 ≤ frames) {h : Memory} {a : ℕ}
    (ha : a ∈ h.live) (dataLen : ℕ) (hlen : dataLen ≤ amlsArrayLen)
    (hroom : h.live.card + 39 ≤ al.room) :
    ∃ r h', amls al .signed frames (some a) dataLen h = .ok (some r, h') ∧ r ∉ h.live ∧
      h'.live = insert r h.live ∧ (∀ b ∈ h.live, h'.contents b = h.contents b) ∧
      ∀ heap mallocs, ∃ mallocs', AmlsArrays.amls .signed heap frames (h.contents a) dataLen mallocs =
        .ok (h'.contents r, mallocs') := by
  obtain ⟨r, h', hamls, hgains, harrays⟩ := amls_arrays al hframes ha dataLen hlen hroom
  exact ⟨r, h', hamls, hgains.fresh, hgains.live, hgains.frame, harrays⟩

def oneBlock : Memory := ⟨{0}, fun _ => Vector.replicate amlsArrayLen 0#8⟩

theorem amls_memory_safe_zeros :
    ∃ r h', amls (.bump 40) .signed 10 (some 0) 512 oneBlock = .ok (some r, h') ∧ r ∉ oneBlock.live ∧
      h'.live = insert r oneBlock.live ∧ (∀ b ∈ oneBlock.live, h'.contents b = oneBlock.contents b) ∧
      ∀ heap mallocs, ∃ mallocs', AmlsArrays.amls .signed heap 10 (oneBlock.contents 0) 512 mallocs =
        .ok (h'.contents r, mallocs') :=
  amls_memory_safe (.bump 40) (Nat.le_refl 10) (Finset.mem_singleton_self 0) 512 (Nat.le_refl 512)
    (Nat.le_refl 40)

end K7nvhRng.AmlsMemory
