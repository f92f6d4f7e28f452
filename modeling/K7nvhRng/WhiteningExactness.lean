import K7nvhRng.DaemonRefinement

/-!
# The output of a single device is exactly unbiased

Among the inputs whose blocks have given numbers of ones, any two outputs of the daemon
of equal length are produced equally often. The stream of extracted bits has this
property because each block has it. Mixing keeps it: two outputs are exchanged by
flipping, in the first half of every group, the bits in which they differ.
-/

namespace K7nvhRng.WhiteningExactness
open LengthUniformCounting PeresExtractor AmlsArrays AmlsExactness BitPacking ListBlocks
open StoppableRuns DaemonLoop ChunkConversion WhiteningBuffer ChunkLedger DaemonRefinement
open DeviceInput

/-! ### Flipping the first halves of the groups -/

def mixedByte (s : List Bool) (n : ℕ) : Byte :=
  packLsb s (1024 * (n / 512) + n % 512) ^^^ packLsb s (1024 * (n / 512) + 512 + n % 512)

private theorem mixedGroup_eq_map (s : List Bool) (g : ℕ) :
    mixedGroup s g = (List.range 512).map fun l => mixedByte s (512 * g + l) := by
  rw [mixedGroup]
  refine List.map_congr_left fun l hl => ?_
  have hl' : l < 512 := List.mem_range.mp hl
  have hdiv : (512 * g + l) / 512 = g := by omega
  have hmod : (512 * g + l) % 512 = l := by omega
  rw [mixedByte, hdiv, hmod]

theorem mixed_eq_map (s : List Bool) :
    mixed s = (List.range (512 * (s.length / 8192))).map (mixedByte s) := by
  have h : ∀ k, (List.range k).flatMap (mixedGroup s) =
      (List.range (512 * k)).map (mixedByte s) := by
    intro k
    induction k with
    | zero => rfl
    | succ k ih =>
      rw [List.range_succ, List.flatMap_append, List.flatMap_singleton, ih, mixedGroup_eq_map,
        Nat.mul_succ, List.range_add, List.map_append, List.map_map, Function.comp_def]
  exact h _

/-- Whether bit `i` of the stream is flipped when output byte `n` is to change by `d n`. -/
def flipMask (d : ℕ → Byte) (i : ℕ) : Bool :=
  if i % 8192 < 4096 then (d (512 * (i / 8192) + i % 8192 / 8)).getLsbD (i % 8) else false

def flipBits (d : ℕ → Byte) (s : List Bool) : List Bool :=
  s.mapIdx fun i b => b ^^ flipMask d i

@[simp] theorem length_flipBits (d : ℕ → Byte) (s : List Bool) :
    (flipBits d s).length = s.length := List.length_mapIdx

private theorem flipBits_involutive (d : ℕ → Byte) : Function.Involutive (flipBits d) := by
  intro s
  apply List.ext_getElem
  · simp
  · intro i h₁ h₂
    simp [flipBits]

theorem getD_flipBits (d : ℕ → Byte) {s : List Bool} {i : ℕ} (hi : i < s.length) :
    (flipBits d s).getD i false = (s.getD i false ^^ flipMask d i) := by
  simp [flipBits, hi]

private theorem mixedByte_flipBits (d : ℕ → Byte) {s : List Bool} {n : ℕ}
    (hn : n < 512 * (s.length / 8192)) : mixedByte (flipBits d s) n = mixedByte s n ^^^ d n := by
  have hlow : packLsb (flipBits d s) (1024 * (n / 512) + n % 512) =
      packLsb s (1024 * (n / 512) + n % 512) ^^^ d n := by
    apply BitVec.eq_of_getLsbD_eq
    intro j hj
    rw [BitVec.getLsbD_xor, getLsbD_packLsb _ _ hj, getLsbD_packLsb _ _ hj,
      getD_flipBits d (by omega), flipMask, if_pos (by omega)]
    congr 2
    · congr 1
      omega
    · omega
  have hhigh : packLsb (flipBits d s) (1024 * (n / 512) + 512 + n % 512) =
      packLsb s (1024 * (n / 512) + 512 + n % 512) := by
    apply BitVec.eq_of_getLsbD_eq
    intro j hj
    rw [getLsbD_packLsb _ _ hj, getLsbD_packLsb _ _ hj, getD_flipBits d (by omega), flipMask,
      if_neg (by omega), Bool.xor_false]
  rw [mixedByte, hlow, hhigh, mixedByte, BitVec.xor_assoc, BitVec.xor_comm (d n), BitVec.xor_assoc]

/-- Flipping by the differences of two outputs turns the first into the second. -/
theorem mixed_flipBits {s : List Bool} {y y' : List Byte} (hy : y.length = y'.length)
    (h : mixed s = y) :
    mixed (flipBits (fun n => y.getD n 0#8 ^^^ y'.getD n 0#8) s) = y' := by
  have hlen : y'.length = 512 * (s.length / 8192) := by rw [← hy, ← h, length_mixed]
  rw [mixed_eq_map, length_flipBits]
  apply List.ext_getElem
  · simp [hlen]
  · intro n h₁ h₂
    have hn : n < 512 * (s.length / 8192) := by omega
    have hbyte : y.getD n 0#8 = mixedByte s n := by
      rw [← h, mixed_eq_map]
      simp [hn]
    rw [List.getElem_map, List.getElem_range, mixedByte_flipBits _ hn, hbyte, ← BitVec.xor_assoc,
      BitVec.xor_self, BitVec.zero_xor, List.getD_eq_getElem _ _ h₂]

theorem lengthUniform_mixed {α : Type} {T : Finset α} {f : α → List Bool}
    (h : LengthUniform T f) : LengthUniform T fun x => mixed (f x) := by
  refine h.postprocess mixed fun y y' hy => ?_
  refine ⟨flipBits fun n => y.getD n 0#8 ^^^ y'.getD n 0#8, flipBits_involutive _,
    length_flipBits _, fun s => mixed_flipBits hy, fun s hs => ?_⟩
  have h := mixed_flipBits hy.symm hs
  simpa only [BitVec.xor_comm (y'.getD _ _)] using h

/-! ### All inputs with given numbers of ones -/

def BlockWithOnes (x : List Bool) (k : ℕ) : Prop := x.length = 512 ∧ x.count true = k

theorem length_of_blocksWithOnes {xs : List (List Bool)} {ks : List ℕ}
    (h : List.Forall₂ BlockWithOnes xs ks) : ∀ x ∈ xs, x.length = 512 := by
  induction h with
  | nil => simp
  | cons hx _ ih => exact List.forall_mem_cons.mpr ⟨hx.1, ih⟩

/-- The loop meets no error over the iterations, and outputs exactly `y`. -/
def Outputs (host : Host) (its : List (Iteration 1)) (y : List Byte) : Prop :=
  ∃ s, mainLoop host its = .running s ∧ s.delivered = y

/-- The number of inputs from one device, with `ks` ones in their blocks, for which the total
output is exactly `y` depends on `y` only through its length. Every input may be read by a
schedule of its own and on a host of its own. -/
theorem whitening_exact (ks : List ℕ) (host : List (List Bool) → Host)
    (its : List (List Bool) → List (Iteration 1))
    (hhost : ∀ xs, List.Forall₂ BlockWithOnes xs ks → Assumed (host xs))
    (hits : ∀ xs, List.Forall₂ BlockWithOnes xs ks →
      Feeds (host xs) (its xs) (xs.flatten.map asciiChar))
    (y y' : List Byte) (hy : y.length = y'.length) :
    {xs | List.Forall₂ BlockWithOnes xs ks ∧ Outputs (host xs) (its xs) y}.ncard =
      {xs | List.Forall₂ BlockWithOnes xs ks ∧ Outputs (host xs) (its xs) y'}.ncard := by
  have huniform := lengthUniform_mixed
    (lengthUniform_sequences (fun k => lengthUniform_peres 512 k) ks)
  refine huniform.ncard_eq (A := fun y => {xs | List.Forall₂ BlockWithOnes xs ks ∧
    Outputs (host xs) (its xs) y}) ?_ hy
  intro y xs
  have hmem : xs ∈ sequences (fun k => weightWords 512 k) ks ↔
      List.Forall₂ BlockWithOnes xs ks := by
    simp only [mem_sequences, mem_weightWords]
    exact Iff.rfl
  rw [hmem, Set.mem_ofPred_eq]
  refine and_congr_right fun hxs => ?_
  obtain ⟨s, hrun, hdel⟩ := mainLoop_of_feeds (hhost xs hxs) (hits xs hxs)
  have hblocks := length_of_blocksWithOnes hxs
  have hout : s.delivered = mixed (xs.flatMap peres) := by
    have hb := (blocks_unique hblocks (r := []) (by decide)).1
    rw [List.append_nil] at hb
    rw [hdel, hb]
    congr 1
    exact List.flatMap_congr fun x hx => amlsBits_eq_peres (hblocks x hx).le
  rw [Outputs, hrun, ← hout]
  constructor
  · rintro ⟨s', hs', hy'⟩
    cases hs'
    exact hy'
  · intro h
    exact ⟨s, rfl, h⟩

/-- Forty balanced blocks, read chunk by chunk. -/
theorem whitening_exact_balanced :
    {xs | List.Forall₂ BlockWithOnes xs (List.replicate 40 256) ∧
        Outputs fileHost (feed (xs.flatten.map asciiChar)) (List.replicate 512 0x00#8)}.ncard =
      {xs | List.Forall₂ BlockWithOnes xs (List.replicate 40 256) ∧
        Outputs fileHost (feed (xs.flatten.map asciiChar)) (List.replicate 512 0xff#8)}.ncard := by
  refine whitening_exact _ (fun _ => fileHost) (fun xs => feed (xs.flatten.map asciiChar))
    (fun _ _ => assumed_fileHost) (fun xs hxs => feeds_feed fileHost ?_) _ _ ?_
  · rw [List.length_map, length_flatten_of_forall (length_of_blocksWithOnes hxs)]
    omega
  · rw [List.length_replicate, List.length_replicate]

end K7nvhRng.WhiteningExactness
