import K7nvhRng.BiasedSources
import K7nvhRng.UtilityPipeline

/-!
# The output of the utilities for a biased source

`vonneumann` makes uniformly distributed bytes from bits whose bias may change from pair to
pair, and the pipeline `amls | ascii_to_bin | xor512` from samples whose bias may change from
block to block. Packing and mixing keep this: two outputs of the same length are exchanged by
flipping bits in front of them.
-/

namespace K7nvhRng.UtilitiesUnbiased
open LengthUniformCounting PeresExtractor BiasedSources AmlsArrays AmlsExactness BitPacking
open ListBlocks StoppableRuns ChunkConversion StdinUtilities UtilityOutputs UtilityPipeline
open scoped ENNReal

/-! ### Flipping bits -/

def maskBytes (e : ℕ → Byte) (bs : List Byte) : List Byte := bs.mapIdx fun n c => c ^^^ e n

/-- Change the bits of byte `n`, with the highest one first, by those of `e n`. -/
def maskBits (e : ℕ → Byte) (s : List Bool) : List Bool :=
  s.mapIdx fun i b => b ^^ (e (i / 8)).getLsbD (7 - i % 8)

@[simp] theorem length_maskBytes (e : ℕ → Byte) (bs : List Byte) :
    (maskBytes e bs).length = bs.length := List.length_mapIdx

@[simp] theorem length_maskBits (e : ℕ → Byte) (s : List Bool) :
    (maskBits e s).length = s.length := List.length_mapIdx

private theorem maskBits_involutive (e : ℕ → Byte) : Function.Involutive (maskBits e) := by
  intro s
  apply List.ext_getElem
  · simp
  · intro i h₁ h₂
    simp [maskBits]

theorem maskBytes_append (e : ℕ → Byte) (bs : List Byte) (b : Byte) :
    maskBytes e (bs ++ [b]) = maskBytes e bs ++ [b ^^^ e bs.length] := by
  simp [maskBytes, List.mapIdx_append]

private theorem getD_maskBytes (e : ℕ → Byte) {bs : List Byte} {n : ℕ} (hn : n < bs.length) :
    (maskBytes e bs).getD n 0#8 = bs.getD n 0#8 ^^^ e n := by
  simp [maskBytes, hn]

private theorem getD_maskBits (e : ℕ → Byte) {s : List Bool} {i : ℕ} (hi : i < s.length) :
    (maskBits e s).getD i false = (s.getD i false ^^ (e (i / 8)).getLsbD (7 - i % 8)) := by
  simp [maskBits, hi]

theorem bytesMsb_maskBits (e : ℕ → Byte) (s : List Bool) :
    bytesMsb (maskBits e s) = maskBytes e (bytesMsb s) := by
  apply List.ext_getElem
  · simp
  · intro n h₁ h₂
    have hn : n < s.length / 8 := by simpa using h₁
    have hbyte : packMsb (maskBits e s) n = packMsb s n ^^^ e n := by
      apply BitVec.eq_of_getLsbD_eq
      intro j hj
      have hlt : 8 * n + (7 - j) < s.length := by omega
      have hdiv : (8 * n + (7 - j)) / 8 = n := by omega
      have hmod : 7 - (8 * n + (7 - j)) % 8 = j := by omega
      rw [BitVec.getLsbD_xor, getLsbD_packMsb _ _ hj, getLsbD_packMsb _ _ hj, getD_maskBits e hlt,
        hdiv, hmod]
    simpa [bytesMsb, maskBytes] using hbyte

/-- The changes that turn one list of bytes into another one. -/
def difference (y y' : List Byte) (n : ℕ) : Byte := y.getD n 0#8 ^^^ y'.getD n 0#8

private theorem difference_comm (y y' : List Byte) : difference y y' = difference y' y := by
  funext n
  exact BitVec.xor_comm _ _

theorem maskBytes_difference {y y' : List Byte} (hy : y.length = y'.length) :
    maskBytes (difference y y') y = y' := by
  apply List.ext_getElem
  · simp [hy]
  · intro n h₁ h₂
    have hn : n < y.length := by omega
    simp [maskBytes, difference, hn, h₂, ← BitVec.xor_assoc]

/-- Every change of the output is the effect of a change of the packed bytes. -/
def Steerable (G : List Byte → List Byte) : Prop :=
  ∀ d : ℕ → Byte, ∃ e : ℕ → Byte, ∀ bs, G (maskBytes e bs) = maskBytes d (G bs)

/-- Packing and a steerable mixing keep an output uniform given its length. -/
theorem lengthUniform_packed {α : Type} {S : Finset α} {f : α → List Bool}
    (h : LengthUniform S f) {G : List Byte → List Byte} (hG : Steerable G) :
    LengthUniform S fun x => G (bytesMsb (f x)) := by
  refine h.postprocess (fun s => G (bytesMsb s)) fun y y' hy => ?_
  obtain ⟨e, he⟩ := hG (difference y y')
  refine ⟨maskBits e, maskBits_involutive e, length_maskBits e, ?_, ?_⟩
  · intro s hs
    rw [bytesMsb_maskBits, he, hs, maskBytes_difference hy]
  · intro s hs
    rw [bytesMsb_maskBits, he, hs, difference_comm, maskBytes_difference hy.symm]

theorem steerable_id : Steerable id := fun d => ⟨d, fun _ => rfl⟩

/-! ### Mixing of halves -/

theorem xorHalves_concat (bs : List Byte) (b : Byte) :
    xorHalves (bs ++ [b]) =
      if bs.length % 1024 < 512 then xorHalves bs
      else xorHalves bs ++ [bs.getD (bs.length - 512) 0#8 ^^^ b] := by
  have hrem := length_remainder 1024 bs
  rw [xorHalves_append, xorHalves]
  split
  · rename_i hfirst
    have hone : (remainder 1024 bs ++ [b]).length ≤ 512 := by
      rw [List.length_append, hrem, List.length_singleton]
      omega
    rw [foldHalves_of_length_le hone, foldHalves_of_length_le (by omega)]
  · rename_i hsecond
    have hlt : bs.length % 1024 < 1024 := Nat.mod_lt _ (by decide)
    have hget : ((remainder 1024 bs).take 512)[(remainder 1024 bs).length - 512]? =
        some (bs.getD (bs.length - 512) 0#8) := by
      rw [List.getElem?_take_of_lt (by omega), hrem, remainder, List.getElem?_drop]
      have hindex : 1024 * (bs.length / 1024) + (bs.length % 1024 - 512) = bs.length - 512 := by
        omega
      have hbound : bs.length - 512 < bs.length := by omega
      rw [hindex, List.getElem?_eq_getElem hbound, List.getD_eq_getElem _ _ hbound]
    rw [foldHalves_append (by omega) hget, List.append_assoc]

theorem steerable_xorHalves : Steerable xorHalves := by
  intro d
  refine ⟨fun j => if j % 1024 < 512 then d (512 * (j / 1024) + j % 1024) else 0#8, fun bs => ?_⟩
  induction bs using List.reverseRecOn with
  | nil =>
    have hnil : xorHalves [] = [] :=
      List.eq_nil_of_length_eq_zero (by rw [length_xorHalves]; rfl)
    rw [maskBytes, List.mapIdx_nil, hnil]
    rfl
  | append_singleton bs b ih =>
    rw [maskBytes_append, xorHalves_concat, xorHalves_concat, length_maskBytes, ih]
    split
    · rfl
    · rename_i hsecond
      have hbound : bs.length - 512 < bs.length := by omega
      have hfirst : (bs.length - 512) % 1024 < 512 := by omega
      have hindex : 512 * ((bs.length - 512) / 1024) + (bs.length - 512) % 1024 =
          (xorHalves bs).length := by
        rw [length_xorHalves]
        omega
      rw [getD_maskBytes _ hbound, maskBytes_append, if_pos hfirst, hindex,
        BitVec.xor_zero, BitVec.xor_assoc, BitVec.xor_comm (d _) b, BitVec.xor_assoc]

/-! ### Results -/

def vonneumannOutput (input : Word) (x : List Bool) : List Byte :=
  (VonNeumann.main input (readsOf (bytesMsb x))).state.out

theorem vonneumannOutput_eq (input : Word) {x : List Bool} (hx : 8 ∣ x.length) :
    vonneumannOutput input x = bytesMsb (vonNeumann x) := by
  obtain ⟨s, hmain, hout⟩ := vonNeumann_main input (bytesMsb x)
  rw [flatMap_msbBits_bytesMsb hx] at hout
  rw [vonneumannOutput, hmain]
  exact hout

/-- `vonneumann` makes its output uniform given its length, from whole bytes of independent bits
of which the two of each pair have the same bias. -/
theorem vonneumann_unbiased (input : Word) {coins : List (PMF Bool)} (hcoins : 4 ∣ coins.length)
    (y : List Byte) :
    256 ^ y.length * (tossPairs coins).map (vonneumannOutput input) y =
      (tossPairs coins).map (fun x => (vonneumannOutput input x).length) y.length := by
  rw [← natCast_card_byte]
  refine tossPairs_map_uniform (fun q => ?_) y
  refine (lengthUniform_packed (lengthUniform_vonNeumann coins.length q) steerable_id).congr ?_
  intro x hx
  have hlen := mem_words.mp (Finset.mem_filter.mp hx).1
  exact (vonneumannOutput_eq input (by omega)).symm

/-- Four bytes in which ones are rare. -/
theorem vonneumann_unbiased_thirds :
    256 ^ [0x2a#8].length *
        (tossPairs (List.replicate 16 thirdCoin)).map (vonneumannOutput 0#32) [0x2a#8] =
      (tossPairs (List.replicate 16 thirdCoin)).map (fun x => (vonneumannOutput 0#32 x).length)
        [0x2a#8].length :=
  vonneumann_unbiased 0#32 (by rw [List.length_replicate]; decide) [0x2a#8]

/-- What `amls | ascii_to_bin | xor512` writes for given blocks of samples. -/
def pipelineOutput (heap : ℕ → Block) (frames : ℕ) (buf : Vector Byte 512) (working : Word)
    (xs : List (List Bool)) : List Byte :=
  (Xor512.main (readsOf (asciiToBin
    (AmlsMain.main heap frames buf working (readsOf (xs.flatten.map asciiChar))).state.out))).state.out

theorem pipelineOutput_eq (heap : ℕ → Block) {frames : ℕ} (hframes : 10 ≤ frames)
    (buf : Vector Byte 512) (working : Word) {xs : List (List Bool)}
    (hxs : ∀ x ∈ xs, x.length = 512) :
    pipelineOutput heap frames buf working xs = xorHalves (bytesMsb (xs.flatMap peres)) := by
  obtain ⟨s, hamls, hs⟩ := amlsMain_main heap hframes buf working (xs.flatten.map asciiChar)
  obtain ⟨t, hxor, ht⟩ := xor512_main (asciiToBin s.out)
  have hblocks := (blocks_unique hxs (r := []) (by decide)).1
  rw [List.append_nil] at hblocks
  have hbits : (blocks 512 xs.flatten).flatMap amlsBits = xs.flatMap peres := by
    rw [hblocks]
    exact List.flatMap_congr fun x hx => amlsBits_eq_peres (hxs x hx).le
  rw [amlsChars_blocks, hbits] at hs
  rw [hs, asciiToBin_asciiChar] at hxor ht
  rw [pipelineOutput, hamls]
  change (Xor512.main (readsOf (asciiToBin s.out))).state.out = _
  rw [hs, asciiToBin_asciiChar, hxor]
  exact ht

/-- The pipeline makes its output uniform given its length, the mixed part of an incomplete
group included, from independent samples whose bias is constant in each block. -/
theorem pipeline_unbiased (heap : ℕ → Block) {frames : ℕ} (hframes : 10 ≤ frames)
    (buf : Vector Byte 512) (working : Word) (coins : List (PMF Bool)) (y : List Byte) :
    256 ^ y.length * (tossBlocks 512 coins).map (pipelineOutput heap frames buf working) y =
      (tossBlocks 512 coins).map (fun xs => (pipelineOutput heap frames buf working xs).length)
        y.length := by
  rw [← natCast_card_byte]
  refine tossBlocks_map_uniform (fun ks => ?_) coins y
  refine (lengthUniform_packed (lengthUniform_sequences (fun k => lengthUniform_peres 512 k) ks)
    steerable_xorHalves).congr fun xs hxs => ?_
  exact (pipelineOutput_eq heap hframes buf working (mem_sequences_weightWords.mp hxs).2).symm

/-- Forty blocks in which ones are rare. -/
theorem pipeline_unbiased_thirds :
    256 ^ [0x2a#8].length * (tossBlocks 512 (List.replicate 40 thirdCoin)).map
        (pipelineOutput (fun _ => Vector.replicate amlsArrayLen 0#8) 10 (Vector.replicate 512 0#8)
          0#32) [0x2a#8] =
      (tossBlocks 512 (List.replicate 40 thirdCoin)).map
        (fun xs => (pipelineOutput (fun _ => Vector.replicate amlsArrayLen 0#8) 10
          (Vector.replicate 512 0#8) 0#32 xs).length) [0x2a#8].length :=
  pipeline_unbiased _ (Nat.le_refl 10) _ 0#32 _ [0x2a#8]

end K7nvhRng.UtilitiesUnbiased
