import K7nvhRng.UtilityPipeline

/-!
# `vonneumann` extracts the first level of `amls`

The bits that `ascii_to_bin | vonneumann` extracts from a stream of samples are, block by
block, those that `amls` itself puts into its result; what `amls` adds behind them comes
from the two arrays that its pairing loop fills.
-/

namespace K7nvhRng.FirstLevelAgreement
open CheckedArrays AmlsArrays AmlsRefinement AmlsExactness PeresExtractor BitPacking ListBlocks
open StoppableRuns ChunkConversion StdinUtilities UtilityOutputs UtilityPipeline

/-- The pairing loop of `amls(x, n)` leaves the bits `a` in `level_a` and `c` in `level_1`. -/
def Leaves (heap : ℕ → Block) (mallocs : ℕ) (x a c : List Bool) : Prop :=
  ∃ s, pairLoop .signed (bitArray x) x.length 0 (initLocals heap mallocs) = .ok s ∧
    s.levelA.toList.take s.levelAPos = a.map bitChar ∧
    s.level1.toList.take s.level1Pos = c.map bitChar

private theorem leaves_parts (heap : ℕ → Block) (mallocs : ℕ) {x : List Bool}
    (hx : x.length ≤ amlsArrayLen) : Leaves heap mallocs x (pairXor x) (pairCommon x) := by
  obtain ⟨s, hloop, hs⟩ := pairLoop_bitArray heap mallocs hx
  exact ⟨s, hloop, hs.take_levelA, hs.take_level1⟩

private theorem amlsBits_parts {x : List Bool} (hx : x.length ≤ amlsArrayLen) :
    amlsBits x = vonNeumann x ++ amlsBits (pairXor x) ++ amlsBits (pairCommon x) := by
  have hXor := length_pairXor x
  have hCommon := (length_parts_le x).2
  rw [amlsBits_eq_peres hx, amlsBits_eq_peres (by omega), amlsBits_eq_peres (by omega), peres_eq]

theorem vonNeumann_asciiToBin {x : List Bool} (hx : 512 ∣ x.length) :
    vonNeumann ((asciiToBin (x.map asciiChar)).flatMap msbBits) =
      (blocks 512 x).flatMap vonNeumann := by
  have heven : ∀ b ∈ blocks 512 x, 2 ∣ b.length := by
    intro b hb
    rw [length_of_mem_blocks hb]
    decide
  rw [asciiToBin_asciiChar, flatMap_msbBits_bytesMsb (by omega), ← vonNeumann_flatten heven,
    flatten_blocks_of_dvd hx]

/-- `vonneumann` writes the whole bytes of the bits it extracts, and for complete blocks of
samples these bits are the first segments of the results of `amls`. -/
theorem utilities_agree_at_first_level (input : Word) :
    (∀ bs : List Byte, ∃ s, VonNeumann.main input (readsOf bs) = .stopped (.exit 0) s ∧
      s.out = bytesMsb (vonNeumann (bs.flatMap msbBits)) ∧
      (vonNeumann (bs.flatMap msbBits)).length < 8 * s.out.length + 8) ∧
    ∀ x : List Bool, 512 ∣ x.length →
      vonNeumann ((asciiToBin (x.map asciiChar)).flatMap msbBits) =
        (blocks 512 x).flatMap vonNeumann ∧
      ∀ b ∈ blocks 512 x, ∀ heap mallocs, ∃ a c, Leaves heap mallocs b a c ∧
        amlsBits b = vonNeumann b ++ amlsBits a ++ amlsBits c := by
  constructor
  · intro bs
    obtain ⟨s, hmain, hout⟩ := vonNeumann_main input bs
    refine ⟨s, hmain, hout, ?_⟩
    rw [hout, length_bytesMsb]
    omega
  · intro x hx
    refine ⟨vonNeumann_asciiToBin hx, fun b hb heap mallocs => ?_⟩
    have hlen : b.length ≤ amlsArrayLen := (length_of_mem_blocks hb).le
    exact ⟨_, _, leaves_parts heap mallocs hlen, amlsBits_parts hlen⟩

/-- Two bytes of alternating unequal pairs fill one byte, and a block of ones gives nothing. -/
theorem utilities_agree_at_first_level_pairs :
    (∃ s, VonNeumann.main 0#32 (readsOf [0x66#8, 0x66#8]) = .stopped (.exit 0) s ∧
      s.out = [0x55#8]) ∧
    512 ∣ (List.replicate 512 true).length ∧
    vonNeumann ((asciiToBin ((List.replicate 512 true).map asciiChar)).flatMap msbBits) =
      (blocks 512 (List.replicate 512 true)).flatMap vonNeumann := by
  have hlen : 512 ∣ (List.replicate 512 true).length := by
    rw [List.length_replicate]
  obtain ⟨hwrites, hagree⟩ := utilities_agree_at_first_level 0#32
  obtain ⟨s, hmain, hout, -⟩ := hwrites [0x66#8, 0x66#8]
  refine ⟨⟨s, hmain, ?_⟩, hlen, (hagree _ hlen).1⟩
  rw [hout]
  decide

end K7nvhRng.FirstLevelAgreement
