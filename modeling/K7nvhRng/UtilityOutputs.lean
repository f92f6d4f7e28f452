import K7nvhRng.AmlsExactness
import K7nvhRng.BitPacking
import K7nvhRng.ChunkConversion
import K7nvhRng.ListBlocks
import K7nvhRng.StdinUtilities

/-!
# What the utilities write

For a stream of bytes followed by the end of the file, the output of every utility is a
function of the stream. The invariants say what stands in the variables after any number
of bytes, so that bytes which do not fill a block, a group or a byte are accounted for.
-/

namespace K7nvhRng.UtilityOutputs
open CheckedArrays AmlsArrays AmlsRefinement AmlsExactness PeresExtractor BitPacking ListBlocks
open StoppableRuns ChunkConversion StdinUtilities

theorem getLsbD_into (b : Byte) (w : Word) {j : ℕ} (hj : j < 8) :
    ((ReadOutcome.delivered b).into w).getLsbD j = b.getLsbD j := by
  have hmask : (0xffffff00#32).getLsbD j = false := by
    match j, hj with
    | 0, _ | 1, _ | 2, _ | 3, _ | 4, _ | 5, _ | 6, _ | 7, _ => rfl
  have h32 : j < 32 := by omega
  rw [ReadOutcome.into, BitVec.getLsbD_or, BitVec.getLsbD_and, hmask, BitVec.getLsbD_setWidth]
  simp [h32]

@[simp] theorem fputc_into (b : Byte) (w : Word) :
    fputc ((ReadOutcome.delivered b).into w) = b := by
  apply BitVec.eq_of_getLsbD_eq
  intro j hj
  rw [fputc, BitVec.getLsbD_setWidth, getLsbD_into b w hj]
  simp [hj]

/-- A utility that keeps an invariant from byte to byte has it when the stream ends. -/
theorem fold_readsOf {σ : Type} {R : List Byte → σ → Prop} {f : ReadOutcome → σ → Outcome Halt σ}
    (hstep : ∀ bs b s, R bs s → ∃ s', f (.delivered b) s = .running s' ∧ R (bs ++ [b]) s')
    (hend : ∀ s, f .endOfFile s = .stopped (.exit 0) s) {s : σ} (h : R [] s) (bs : List Byte) :
    ∃ s', Outcome.fold f (readsOf bs) s = .stopped (.exit 0) s' ∧ R bs s' := by
  obtain ⟨s', hfold, h'⟩ := Outcome.fold_map_running hstep h bs
  refine ⟨s', ?_, h'⟩
  rw [readsOf, Outcome.fold_append, hfold, Outcome.andThen_running, Outcome.fold_singleton, hend]

/-! ### `vonneumann` -/

theorem sshiftRight_and_one (w : Word) {n : ℕ} (hn : n < 32) :
    w.sshiftRight n &&& 1#32 = if w.getLsbD n then 1#32 else 0#32 := by
  have hbit : (w.sshiftRight n).getLsbD 0 = w.getLsbD n := by
    rw [BitVec.getLsbD_sshiftRight]
    simp [hn]
  rw [BitVec.and_one_eq_setWidth_ofBool_getLsbD, hbit]
  cases w.getLsbD n <;> rfl

/-- The variables of `vonneumann` when the bits `z` have been extracted. -/
structure Packed (z : List Bool) (s : VonNeumann) : Prop where
  count : s.count = z.length % 8
  output : s.output = (packMsb z (z.length / 8)).setWidth 32
  out : s.out = bytesMsb z

theorem packed_init (input : Word) : Packed [] (VonNeumann.init input) where
  count := rfl
  output := by
    rw [packMsb_of_length_le (by simp)]
    rfl
  out := rfl

def emit (s : VonNeumann) : VonNeumann :=
  if s.count ≥ 8 then { s with count := 0, out := s.out ++ [fputc s.output], output := 0#32 }
  else s

private theorem setWidth_shiftLeft {k : ℕ} (hk : k < 8) : (1#8 <<< k).setWidth 32 = 1#32 <<< k := by
  match k, hk with
  | 0, _ | 1, _ | 2, _ | 3, _ | 4, _ | 5, _ | 6, _ | 7, _ => rfl

theorem Packed.emit {z : List Bool} {s : VonNeumann} (h : Packed z s) (b : Bool) :
    Packed (z ++ [b]) (UtilityOutputs.emit
      { s with
        output := s.output ||| (if b then 1#32 <<< (7 - s.count) else 0#32)
        count := s.count + 1 }) := by
  have hlen : (z ++ [b]).length = z.length + 1 := by simp
  have houtput : s.output ||| (if b then 1#32 <<< (7 - s.count) else 0#32) =
      (packMsb (z ++ [b]) (z.length / 8)).setWidth 32 := by
    rw [packMsb_append_bit, BitVec.setWidth_or, h.output, h.count]
    cases b with
    | false => rfl
    | true => rw [if_pos rfl, if_pos rfl, setWidth_shiftLeft (by omega)]
  have hcount := h.count
  rw [houtput, UtilityOutputs.emit]
  by_cases hfull : s.count + 1 ≥ 8
  · rw [if_pos hfull]
    refine ⟨?_, ?_, ?_⟩
    · rw [hlen]
      dsimp only
      omega
    · have hzero : packMsb (z ++ [b]) ((z ++ [b]).length / 8) = 0#8 :=
        packMsb_of_length_le (by omega)
      rw [hzero]
      rfl
    · rw [bytesMsb_append_of_eq (by omega), ← h.out]
      simp [fputc]
  · rw [if_neg hfull]
    refine ⟨?_, ?_, ?_⟩
    · rw [hlen]
      dsimp only
      omega
    · rw [show (z ++ [b]).length / 8 = z.length / 8 by omega]
    · rw [bytesMsb_append_of_lt (by omega)]
      exact h.out

theorem pairStep_spec {z : List Bool} {s : VonNeumann} (h : Packed z s) {i : ℕ} (hi : i < 4) :
    Packed (z ++ vonNeumann [s.input.getLsbD (7 - i * 2), s.input.getLsbD (6 - i * 2)])
        (VonNeumann.pairStep s i) ∧ (VonNeumann.pairStep s i).input = s.input := by
  have hcount : ¬s.count ≥ 8 := by
    have := h.count
    omega
  have h0 := h.emit false
  have h1 := h.emit true
  simp only [VonNeumann.pairStep, sshiftRight_and_one s.input (show 7 - i * 2 < 32 by omega),
    sshiftRight_and_one s.input (show 6 - i * 2 < 32 by omega)]
  cases s.input.getLsbD (7 - i * 2) <;> cases s.input.getLsbD (6 - i * 2)
  · simpa [hcount, vonNeumann] using h
  · refine ⟨by simpa [emit, vonNeumann] using h0, ?_⟩
    simp only [Bool.false_eq_true, if_false, if_true]
    split_ifs <;> rfl
  · refine ⟨by simpa [emit, vonNeumann] using h1, ?_⟩
    split_ifs <;> rfl
  · simpa [hcount, vonNeumann] using h

theorem vonNeumann_step {z : List Bool} {s : VonNeumann} (h : Packed z s) (b : Byte) :
    ∃ s', VonNeumann.step (.delivered b) s = .running s' ∧
      Packed (z ++ vonNeumann (msbBits b)) s' := by
  let w := (ReadOutcome.delivered b).into s.input
  have hs : Packed z { s with input := w } := ⟨h.count, h.output, h.out⟩
  obtain ⟨h₀, hin₀⟩ := pairStep_spec hs (i := 0) (by decide)
  obtain ⟨h₁, hin₁⟩ := pairStep_spec h₀ (i := 1) (by decide)
  obtain ⟨h₂, hin₂⟩ := pairStep_spec h₁ (i := 2) (by decide)
  obtain ⟨h₃, -⟩ := pairStep_spec h₂ (i := 3) (by decide)
  refine ⟨_, rfl, ?_⟩
  have hbits : vonNeumann (msbBits b) = vonNeumann [w.getLsbD 7, w.getLsbD 6] ++
      (vonNeumann [w.getLsbD 5, w.getLsbD 4] ++ (vonNeumann [w.getLsbD 3, w.getLsbD 2] ++
        vonNeumann [w.getLsbD 1, w.getLsbD 0])) := by
    simp only [w, getLsbD_into b s.input (show 7 < 8 by decide),
      getLsbD_into b s.input (show 6 < 8 by decide), getLsbD_into b s.input (show 5 < 8 by decide),
      getLsbD_into b s.input (show 4 < 8 by decide), getLsbD_into b s.input (show 3 < 8 by decide),
      getLsbD_into b s.input (show 2 < 8 by decide), getLsbD_into b s.input (show 1 < 8 by decide),
      getLsbD_into b s.input (show 0 < 8 by decide), msbBits, vonNeumann]
    split_ifs <;> rfl
  simp only [hin₂, hin₁, hin₀, List.append_assoc] at h₃
  rw [hbits]
  exact h₃

theorem vonNeumann_step_bytes {bs : List Byte} {s : VonNeumann}
    (h : Packed (vonNeumann (bs.flatMap msbBits)) s) (b : Byte) :
    ∃ s', VonNeumann.step (.delivered b) s = .running s' ∧
      Packed (vonNeumann ((bs ++ [b]).flatMap msbBits)) s' := by
  obtain ⟨s', hb, h'⟩ := vonNeumann_step h b
  have heven : 2 ∣ (bs.flatMap msbBits).length := ⟨bs.length * 4, by simp [msbBits]; omega⟩
  refine ⟨s', hb, ?_⟩
  rwa [List.flatMap_append, List.flatMap_singleton, (parts_append heven _).2.2]

theorem vonNeumann_main (input : Word) (bs : List Byte) :
    ∃ s, VonNeumann.main input (readsOf bs) = .stopped (.exit 0) s ∧
      s.out = bytesMsb (vonNeumann (bs.flatMap msbBits)) := by
  obtain ⟨s, hmain, hs⟩ := fold_readsOf
    (R := fun bs => Packed (vonNeumann (bs.flatMap msbBits))) (f := VonNeumann.step)
    (fun _ b _ h => vonNeumann_step_bytes h b) (fun _ => rfl) (packed_init input) bs
  exact ⟨s, hmain, hs.out⟩

/-! ### `ascii_to_bin` -/

def charBit (c : Byte) : Bool := c ≠ 0x30#8

def shiftIn (v : Byte) (b : Bool) : Byte := (v <<< 1) ||| (if b then 1#8 else 0#8)

private theorem foldl_shiftIn : ∀ b₀ b₁ b₂ b₃ b₄ b₅ b₆ b₇ : Bool,
    [b₀, b₁, b₂, b₃, b₄, b₅, b₆, b₇].foldl shiftIn 0#8 =
      packMsb [b₀, b₁, b₂, b₃, b₄, b₅, b₆, b₇] 0 := by
  decide +kernel

private theorem readUint8Loop_append (l input : List Byte) (value : Byte) :
    readUint8Loop l.length value (l ++ input) =
      ((l.map charBit).foldl shiftIn value, false, input) := by
  induction l generalizing value with
  | nil => rfl
  | cons c l ih =>
    have hbit : (if c = 0x30#8 then 0#8 else 1#8) = if charBit c then 1#8 else 0#8 := by
      simp [charBit]
    rw [List.length_cons, List.cons_append, readUint8Loop, hbit, ih]
    rfl

private theorem readUint8Loop_short (n : ℕ) {input : List Byte} (h : input.length < n)
    (value : Byte) : (readUint8Loop n value input).2.1 = true := by
  induction n generalizing input value with
  | zero => omega
  | succ n ih =>
    cases input with
    | nil => rfl
    | cons c input => exact ih (by simpa using h) _

private theorem asciiToBin_of_short {input : List Byte} (h : input.length < 8) :
    asciiToBin input = [] := by
  have heof := readUint8Loop_short 8 h 0#8
  rw [asciiToBin]
  split
  · next hread =>
    rw [readUint8] at hread
    simp [hread] at heof
  · rfl

theorem asciiToBin_append {l : List Byte} (hl : l.length = 8) (input : List Byte) :
    asciiToBin (l ++ input) = packMsb (l.map charBit) 0 :: asciiToBin input := by
  have hread := readUint8Loop_append l input 0#8
  have hvalue : (l.map charBit).foldl shiftIn 0#8 = packMsb (l.map charBit) 0 := by
    match l, hl with
    | [_, _, _, _, _, _, _, _], _ => exact foldl_shiftIn _ _ _ _ _ _ _ _
  rw [hl, hvalue] at hread
  rw [asciiToBin]
  split
  · next heq =>
    cases hread.symm.trans heq
    rfl
  · next heq => cases hread.symm.trans heq

theorem asciiToBin_eq (input : List Byte) : asciiToBin input = bytesMsb (input.map charBit) := by
  induction hn : input.length using Nat.strong_induction_on generalizing input with
  | _ n ih =>
    by_cases hshort : input.length < 8
    · have hdiv : input.length / 8 = 0 := by omega
      rw [asciiToBin_of_short hshort]
      simp [bytesMsb, hdiv]
    · have hl : (input.take 8).length = 8 := by
        rw [List.length_take]
        omega
      have hrec := ih (input.drop 8).length (by rw [List.length_drop]; omega) (input.drop 8) rfl
      rw [← List.take_append_drop 8 input, asciiToBin_append hl, hrec, List.map_append,
        bytesMsb_append_block (by rw [List.length_map, hl])]

/-! ### `xor512` -/

def foldHalves (g : List Byte) : List Byte := List.zipWith (· ^^^ ·) (g.take 512) (g.drop 512)

/-- The second half of an incomplete group is mixed as far as it is there. -/
def xorHalves (bs : List Byte) : List Byte :=
  (blocks 1024 bs).flatMap foldHalves ++ foldHalves (remainder 1024 bs)

theorem length_foldHalves {g : List Byte} (hg : g.length ≤ 1024) :
    (foldHalves g).length = g.length - 512 := by
  simp only [foldHalves, List.length_zipWith, List.length_take, List.length_drop]
  omega

theorem foldHalves_of_length_le {g : List Byte} (hg : g.length ≤ 512) : foldHalves g = [] :=
  List.eq_nil_of_length_eq_zero (by rw [length_foldHalves (by omega)]; omega)

private theorem zipWith_concat {α : Type} (f : α → α → α) {l m : List α} {c : α}
    (hc : l[m.length]? = some c) (b : α) :
    List.zipWith f l (m ++ [b]) = List.zipWith f l m ++ [f c b] := by
  induction m generalizing l with
  | nil =>
    cases l with
    | nil => simp at hc
    | cons a l =>
      have hac : a = c := by simpa using hc
      simp [hac]
  | cons d m ih =>
    cases l with
    | nil => simp at hc
    | cons a l => simp [ih (l := l) (by simpa using hc)]

theorem foldHalves_append {g : List Byte} (hg : 512 ≤ g.length) {c : Byte}
    (hc : (g.take 512)[g.length - 512]? = some c) (b : Byte) :
    foldHalves (g ++ [b]) = foldHalves g ++ [c ^^^ b] := by
  rw [foldHalves, foldHalves, List.take_append_of_le_length hg, List.drop_append_of_le_length hg]
  exact zipWith_concat (· ^^^ ·) (by rwa [List.length_drop]) b

theorem xorHalves_append (bs : List Byte) (b : Byte) :
    xorHalves (bs ++ [b]) =
      (blocks 1024 bs).flatMap foldHalves ++ foldHalves (remainder 1024 bs ++ [b]) := by
  have hlt : bs.length % 1024 < 1024 := Nat.mod_lt _ (by decide)
  by_cases hfull : bs.length % 1024 + 1 = 1024
  · obtain ⟨hblocks, hrem⟩ := blocks_append_of_eq hfull b
    rw [xorHalves, hblocks, hrem, List.flatMap_append, List.flatMap_singleton,
      foldHalves_of_length_le (g := []) (by decide), List.append_nil]
  · obtain ⟨hblocks, hrem⟩ := blocks_append_of_lt (n := 1024) (l := bs) (by omega) b
    rw [xorHalves, hblocks, hrem]

structure Mixing (bs : List Byte) (s : Xor512) : Prop where
  mixing : s.mixing = decide (512 ≤ bs.length % 1024)
  index : s.i = bs.length % 512
  buf : ∃ ws : List Word, Front s.buf ws ∧ ws.map fputc = (remainder 1024 bs).take 512
  out : s.out = xorHalves bs

theorem mixing_init : Mixing [] Xor512.init where
  mixing := rfl
  index := rfl
  buf := ⟨[], front_nil _, rfl⟩
  out := rfl

theorem mixing_next {bs : List Byte} {b : Byte} {s : Xor512}
    (hmixing : s.mixing = decide (512 ≤ bs.length % 1024)) (hindex : s.i = bs.length % 512)
    (hbuf : ∃ ws, Front s.buf ws ∧ ws.map fputc = (remainder 1024 (bs ++ [b])).take 512)
    (hout : s.out = xorHalves (bs ++ [b])) : Mixing (bs ++ [b]) (Xor512.next s) := by
  have hlen : (bs ++ [b]).length = bs.length + 1 := by simp
  unfold Xor512.next
  split_ifs with hlast
  · refine ⟨?_, by dsimp only; omega, hbuf, hout⟩
    rw [hmixing, decide_eq_decide]
    omega
  · refine ⟨?_, by dsimp only; omega, hbuf, hout⟩
    rw [hmixing, ← decide_not, decide_eq_decide]
    omega

theorem xor512_step_store {bs : List Byte} {s : Xor512} (h : Mixing bs s) (b : Byte)
    (hhalf : bs.length % 1024 < 512) :
    ∃ s', Xor512.step (.delivered b) s = .running s' ∧ Mixing (bs ++ [b]) s' := by
  obtain ⟨w, hw⟩ : ∃ w, w = (ReadOutcome.delivered b).into s.working := ⟨_, rfl⟩
  obtain ⟨ws, hfront, hws⟩ := h.buf
  have hrem := length_remainder 1024 bs
  rw [List.take_of_length_le (by omega)] at hws
  have hlen : ws.length = s.i := by
    rw [← List.length_map fputc, hws, hrem, h.index]
    omega
  have hi := h.index
  obtain ⟨buf, hstore, hfront'⟩ := hfront.store (by omega) w
  have hrun : Xor512.step (.delivered b) s =
      .running (Xor512.next { s with working := w, buf := buf }) := by
    have hmixing : s.mixing = false := by rw [h.mixing, decide_eq_false (by omega)]
    rw [hlen] at hstore
    simp [Xor512.step, Xor512.resume, hmixing, ← hw, hstore]
  refine ⟨_, hrun, mixing_next h.mixing h.index ?_ ?_⟩
  · refine ⟨ws ++ [w], hfront', ?_⟩
    rw [(blocks_append_of_lt (by omega) b).2, List.take_of_length_le, List.map_append, hws, hw]
    · simp
    · rw [List.length_append, List.length_singleton]
      omega
  · rw [xorHalves_append, foldHalves_of_length_le]
    · dsimp only
      rw [h.out, xorHalves, foldHalves_of_length_le (by omega)]
    · rw [List.length_append, List.length_singleton]
      omega

theorem xor512_step_mix {bs : List Byte} {s : Xor512} (h : Mixing bs s) (b : Byte)
    (hhalf : 512 ≤ bs.length % 1024) :
    ∃ s', Xor512.step (.delivered b) s = .running s' ∧ Mixing (bs ++ [b]) s' := by
  obtain ⟨w, hw⟩ : ∃ w, w = (ReadOutcome.delivered b).into s.working := ⟨_, rfl⟩
  obtain ⟨ws, hfront, hws⟩ := h.buf
  have hrem := length_remainder 1024 bs
  have hi := h.index
  have hlen : ws.length = 512 := by
    rw [← List.length_map fputc, hws, List.length_take]
    omega
  have hlt : s.i < ws.length := by omega
  have hload := hfront.load (List.getElem?_eq_getElem hlt)
  have hrun : Xor512.step (.delivered b) s = .running
      (Xor512.next { s with working := w, out := s.out ++ [fputc (ws[s.i] ^^^ w)] }) := by
    have hmixing : s.mixing = true := by rw [h.mixing, decide_eq_true hhalf]
    simp [Xor512.step, Xor512.resume, hmixing, ← hw, hload]
  refine ⟨_, hrun, mixing_next h.mixing h.index ?_ ?_⟩
  · by_cases hfull : bs.length % 1024 + 1 = 1024
    · refine ⟨[], front_nil _, ?_⟩
      rw [(blocks_append_of_eq hfull b).2]
      rfl
    · refine ⟨ws, hfront, ?_⟩
      rw [(blocks_append_of_lt (by omega) b).2, List.take_append_of_le_length (by omega), hws]
  · have hc : ((remainder 1024 bs).take 512)[(remainder 1024 bs).length - 512]? =
        some (fputc ws[s.i]) := by
      rw [← hws, hrem, show bs.length % 1024 - 512 = s.i by omega, List.getElem?_map,
        List.getElem?_eq_getElem hlt]
      rfl
    have hxor : fputc (ws[s.i] ^^^ w) = fputc ws[s.i] ^^^ b := by
      rw [fputc, BitVec.setWidth_xor, ← fputc, ← fputc, hw, fputc_into]
    dsimp only
    rw [xorHalves_append, foldHalves_append (by omega) hc, ← List.append_assoc,
      ← xorHalves, ← h.out, ← hxor]

theorem xor512_step {bs : List Byte} {s : Xor512} (h : Mixing bs s) (b : Byte) :
    ∃ s', Xor512.step (.delivered b) s = .running s' ∧ Mixing (bs ++ [b]) s' := by
  rcases Nat.lt_or_ge (bs.length % 1024) 512 with hhalf | hhalf
  · exact xor512_step_store h b hhalf
  · exact xor512_step_mix h b hhalf

theorem xor512_main (bs : List Byte) :
    ∃ s, Xor512.main (readsOf bs) = .stopped (.exit 0) s ∧ s.out = xorHalves bs := by
  obtain ⟨s, hmain, hs⟩ := fold_readsOf (R := Mixing) (f := Xor512.step)
    (fun _ b _ h => xor512_step h b) (fun _ => rfl) mixing_init bs
  exact ⟨s, hmain, hs.out⟩

/-! ### The `amls` utility -/

def sample (c : Byte) : Byte := c - 48#8

def amlsChars (b : List Byte) : List Byte := (peres (leadingBits (b.map sample))).map asciiChar

private theorem setWidth_sub_ascii0 (w : Word) : (w - 48#32).setWidth 8 = sample (fputc w) := by
  apply BitVec.eq_of_toNat_eq
  simp only [sample, fputc, BitVec.toNat_setWidth, BitVec.toNat_sub, BitVec.toNat_ofNat]
  omega

/-- The loop variable stands behind the bits `done`, and `todo` is still to be printed. -/
theorem printLoop_spec {r : Block} (done todo : List Bool) {n : ℕ} (out : List Byte)
    (hr : Filled r ((done ++ todo).map bitChar) endMark) (hn : done.length + n = 512) :
    AmlsMain.printLoop r n done.length out = .ok (out ++ todo.map asciiChar) := by
  induction todo generalizing done out n with
  | nil =>
    rw [List.append_nil] at hr
    cases n with
    | zero => simp [AmlsMain.printLoop]
    | succ n =>
      have hmark := hr.load_end (by simp only [List.length_map, amlsArrayLen]; omega)
      rw [List.length_map] at hmark
      simp [AmlsMain.printLoop, hmark]
  | cons b todo ih =>
    have hlen := hr.length
    simp only [List.length_map, List.length_append, List.length_cons, amlsArrayLen] at hlen
    cases n with
    | zero => omega
    | succ n =>
      have hnext : load r done.length = .ok (bitChar b) := by
        rw [← List.length_map bitChar]
        exact Filled.load_next (m := todo.map bitChar) (by simpa using hr)
      have hbit : CharSign.signed.promote (bitChar b) ≠ -1 := by
        cases b <;> decide
      have hchar : toChar (CharSign.signed.promote (bitChar b) + 48) = asciiChar b := by
        cases b <;> rfl
      have hloop := ih (done ++ [b]) (n := n) (out ++ [asciiChar b]) (by simpa using hr)
        (by simp only [List.length_append, List.length_singleton]; omega)
      rw [AmlsMain.printLoop, hnext, ok_bind, if_neg hbit, hchar]
      simpa using hloop

structure Printed (bs : List Byte) (s : AmlsMain) : Prop where
  buf : Front s.buf ((remainder 512 bs).map sample)
  index : s.i = bs.length % 512
  out : s.out = (blocks 512 bs).flatMap amlsChars

theorem printed_init (buf : Vector Byte 512) (working : Word) :
    Printed [] (AmlsMain.init buf working) :=
  ⟨front_nil buf, rfl, rfl⟩

theorem amlsMain_step (heap : ℕ → Block) {frames : ℕ} (hframes : 10 ≤ frames) {bs : List Byte}
    {s : AmlsMain} (h : Printed bs s) (b : Byte) :
    ∃ s', AmlsMain.step heap frames (.delivered b) s = .running s' ∧ Printed (bs ++ [b]) s' := by
  obtain ⟨w, hw⟩ : ∃ w, w = (ReadOutcome.delivered b).into s.working := ⟨_, rfl⟩
  have hsample : (w - 48#32).setWidth 8 = sample b := by
    rw [setWidth_sub_ascii0, hw, fputc_into]
  have hi := h.index
  have hlen : ((remainder 512 bs).map sample).length = s.i := by
    rw [List.length_map, length_remainder, hi]
  obtain ⟨buf, hstore, hfront⟩ := h.buf.store (by omega) (sample b)
  rw [hlen] at hstore
  rw [← List.map_singleton, ← List.map_append] at hfront
  by_cases hlt : s.i + 1 < 512
  · refine ⟨{ s with working := w, buf := buf, i := s.i + 1 }, ?_, ?_, ?_, ?_⟩
    · simp [AmlsMain.step, AmlsMain.resume, ← hw, hsample, hstore, hlt]
    · rwa [(blocks_append_of_lt (by omega) b).2]
    · rw [List.length_append, List.length_singleton]
      dsimp only
      omega
    · rw [(blocks_append_of_lt (by omega) b).1]
      exact h.out
  · have hfull : bs.length % 512 + 1 = 512 := by omega
    obtain ⟨r, mallocs', hamls, hr⟩ := amls_filled heap s.mallocs hframes buf 512
      (Nat.le_refl _) (Nat.le_refl _)
    have htake : buf.toList.take 512 = (remainder 512 bs ++ [b]).map sample := by
      have hlen' : ((remainder 512 bs ++ [b]).map sample).length = 512 := by
        rw [List.map_append, List.length_append, hlen]
        simp only [List.map_singleton, List.length_singleton]
        omega
      have hfull' := hfront.take
      rwa [hlen'] at hfull'
    rw [htake] at hr
    have hprint : AmlsMain.printLoop r 512 0 s.out =
        .ok (s.out ++ amlsChars (remainder 512 bs ++ [b])) :=
      printLoop_spec [] _ (n := 512) s.out hr rfl
    refine ⟨⟨buf, w, 0, mallocs', s.out ++ amlsChars (remainder 512 bs ++ [b])⟩, ?_, ?_, ?_, ?_⟩
    · simp [AmlsMain.step, AmlsMain.resume, ← hw, hsample, hstore, hlt, hamls, hprint]
    · rw [(blocks_append_of_eq hfull b).2]
      exact front_nil _
    · rw [List.length_append, List.length_singleton]
      dsimp only
      omega
    · rw [(blocks_append_of_eq hfull b).1, List.flatMap_append, List.flatMap_singleton, ← h.out]

/-- The utility prints the results for the complete blocks of 512 characters. -/
theorem amlsMain_main (heap : ℕ → Block) {frames : ℕ} (hframes : 10 ≤ frames)
    (buf : Vector Byte 512) (working : Word) (bs : List Byte) :
    ∃ s, AmlsMain.main heap frames buf working (readsOf bs) = .stopped (.exit 0) s ∧
      s.out = (blocks 512 bs).flatMap amlsChars := by
  obtain ⟨s, hmain, hs⟩ := fold_readsOf (R := Printed) (f := AmlsMain.step heap frames)
    (fun _ b _ h => amlsMain_step heap hframes h b) (fun _ => rfl) (printed_init buf working) bs
  exact ⟨s, hmain, hs.out⟩

end K7nvhRng.UtilityOutputs
