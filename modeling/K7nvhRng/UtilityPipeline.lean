import K7nvhRng.DaemonRefinement
import K7nvhRng.UtilityOutputs

/-!
# The daemon and the pipeline `amls | ascii_to_bin | xor512`

Both extract the complete blocks of 512 samples and mix the halves of groups of 1024
bytes. The daemon packs with the first bit lowest and outputs complete groups only;
`ascii_to_bin` packs with the first bit highest, and `xor512` also mixes what there is of
the second half of a last group.
-/

namespace K7nvhRng.UtilityPipeline
open AmlsArrays AmlsRefinement AmlsExactness BitPacking ListBlocks StoppableRuns DaemonLoop
open WhiteningBuffer ChunkConversion DeviceInput ChunkLedger DaemonRefinement StdinUtilities
open UtilityOutputs

@[simp] theorem charBit_asciiChar (b : Bool) : charBit (asciiChar b) = b := by
  cases b <;> rfl

@[simp] theorem sample_asciiChar (b : Bool) : sample (asciiChar b) = bitChar b := by
  cases b <;> rfl

theorem amlsChars_asciiChar {b : List Bool} (hb : b.length = 512) :
    amlsChars (b.map asciiChar) = (amlsBits b).map asciiChar := by
  have hsamples : (b.map asciiChar).map sample = b.map bitChar := by
    simp [List.map_map, Function.comp_def]
  rw [amlsChars, hsamples, leadingBits_map_bitChar, amlsBits_eq_peres hb.le]

theorem amlsChars_blocks (x : List Bool) :
    (blocks 512 (x.map asciiChar)).flatMap amlsChars =
      ((blocks 512 x).flatMap amlsBits).map asciiChar := by
  rw [blocks_map, List.flatMap_map, List.map_flatMap]
  exact List.flatMap_congr fun b hb => amlsChars_asciiChar (length_of_mem_blocks hb)

theorem asciiToBin_asciiChar (s : List Bool) : asciiToBin (s.map asciiChar) = bytesMsb s := by
  rw [asciiToBin_eq]
  simp [List.map_map, Function.comp_def]

private theorem map_range_mixed {s : List Bool} {k n : ℕ} (h : k + n + n ≤ s.length / 8) :
    (List.range n).map (fun l => packLsb s (k + l) ^^^ packLsb s (k + n + l)) =
      (List.zipWith (· ^^^ ·) ((((bytesMsb s).drop k).take (n + n)).take n)
        ((((bytesMsb s).drop k).take (n + n)).drop n)).map BitVec.reverse := by
  apply List.ext_getElem
  · simp
    omega
  · intro l h₁ h₂
    simp only [bytesMsb, List.getElem_map, List.getElem_range, List.getElem_zipWith,
      List.getElem_take, List.getElem_drop]
    rw [reverse_xor, reverse_packMsb, reverse_packMsb, Nat.add_assoc]

/-- The output of a group is that of `xor512` with the bits of each byte reversed. -/
theorem mixedGroup_eq_reverse (s : List Bool) {g : ℕ} (hg : g < s.length / 8192) :
    mixedGroup s g =
      (foldHalves (((bytesMsb s).drop (1024 * g)).take 1024)).map BitVec.reverse :=
  map_range_mixed (n := 512) (by omega)

theorem mixed_eq_reverse (s : List Bool) :
    mixed s = ((blocks 1024 (bytesMsb s)).flatMap foldHalves).map BitVec.reverse := by
  have hgroups : s.length / 8 / 1024 = s.length / 8192 := by omega
  rw [mixed, blocks, length_bytesMsb, hgroups, List.flatMap_map, List.map_flatMap]
  exact List.flatMap_congr fun g hg => mixedGroup_eq_reverse s (List.mem_range.mp hg)

theorem length_flatMap_foldHalves (bs : List Byte) :
    ((blocks 1024 bs).flatMap foldHalves).length = 512 * (bs.length / 1024) := by
  have hlen : ∀ g ∈ (blocks 1024 bs).map foldHalves, g.length = 512 := by
    intro g hg
    obtain ⟨b, hb, rfl⟩ := List.mem_map.mp hg
    rw [length_foldHalves (length_of_mem_blocks hb).le, length_of_mem_blocks hb]
  rw [List.flatMap_def, length_flatten_of_forall hlen, List.length_map, length_blocks]

theorem length_xorHalves (bs : List Byte) :
    (xorHalves bs).length = 512 * (bs.length / 1024) + (bs.length % 1024 - 512) := by
  have hrem := length_remainder 1024 bs
  rw [xorHalves, List.length_append, length_flatMap_foldHalves, length_foldHalves (by omega), hrem]

theorem take_xorHalves (bs : List Byte) :
    (xorHalves bs).take (512 * (bs.length / 1024)) = (blocks 1024 bs).flatMap foldHalves :=
  List.take_left' (length_flatMap_foldHalves bs)

/-- The daemon, fed the complete chunks of a stream of bits, outputs the bytes that the
pipeline writes for its complete groups of 1024 bytes, with the bits of each byte reversed.
The pipeline writes nothing else but the mixed part of an incomplete group. -/
theorem daemon_agrees_with_pipeline {devices : ℕ} {host : Host} (hh : Assumed host)
    (x : List Bool) {its : List (Iteration devices)}
    (hits : Feeds host its ((x.map asciiChar).take (128 * (x.length / 128))))
    (heap : ℕ → Block) {frames : ℕ} (hframes : 10 ≤ frames) (buf : Vector Byte 512)
    (working : Word) :
    ∃ (daemon : State devices) (extracted : AmlsMain) (folded : Xor512),
      mainLoop host its = .running daemon ∧
      AmlsMain.main heap frames buf working (readsOf (x.map asciiChar)) =
        .stopped (.exit 0) extracted ∧
      Xor512.main (readsOf (asciiToBin extracted.out)) = .stopped (.exit 0) folded ∧
      daemon.delivered =
        (folded.out.take (512 * ((asciiToBin extracted.out).length / 1024))).map BitVec.reverse ∧
      folded.out.length = 512 * ((asciiToBin extracted.out).length / 1024) +
        ((asciiToBin extracted.out).length % 1024 - 512) := by
  rw [← List.map_take] at hits
  obtain ⟨daemon, hdaemon, hdelivered⟩ := mainLoop_of_feeds hh hits
  obtain ⟨extracted, hamls, hextracted⟩ := amlsMain_main heap hframes buf working (x.map asciiChar)
  obtain ⟨folded, hxor, hfolded⟩ := xor512_main (asciiToBin extracted.out)
  refine ⟨daemon, extracted, folded, hdaemon, hamls, hxor, ?_, ?_⟩
  · -- The characters behind the last chunk belong to no block of 512.
    rw [blocks_take (by decide) (by omega)] at hdelivered
    rw [hfolded, take_xorHalves, hextracted, amlsChars_blocks, asciiToBin_asciiChar, hdelivered,
      mixed_eq_reverse]
  · rw [hfolded, length_xorHalves]

/-- Alternating samples, from which a complete group is extracted, and one more, which the daemon
does not read. -/
theorem daemon_agrees_with_pipeline_alternating :
    ∃ (daemon : State 1) (extracted : AmlsMain) (folded : Xor512),
      mainLoop fileHost (feed ((alternating 8192).map asciiChar)) = .running daemon ∧
      AmlsMain.main fileHost.heap 10 (Vector.replicate 512 0#8) 0#32
          (readsOf ((alternating 8192 ++ [false]).map asciiChar)) = .stopped (.exit 0) extracted ∧
      Xor512.main (readsOf (asciiToBin extracted.out)) = .stopped (.exit 0) folded ∧
      daemon.delivered =
        (folded.out.take (512 * ((asciiToBin extracted.out).length / 1024))).map BitVec.reverse ∧
      512 ≤ daemon.delivered.length := by
  have hlen : ((alternating 8192).map asciiChar).length = 16384 := by
    rw [List.length_map, length_alternating]
  have hfeeds : Feeds fileHost (feed ((alternating 8192).map asciiChar))
      ((alternating 8192).map asciiChar) := by
    apply feeds_feed
    rw [hlen]
    decide
  have hread : ((alternating 8192 ++ [false]).map asciiChar).take
      (128 * ((alternating 8192 ++ [false]).length / 128)) = (alternating 8192).map asciiChar := by
    rw [List.length_append, length_alternating, List.map_append]
    exact List.take_left' hlen
  obtain ⟨daemon, extracted, folded, hdaemon, hamls, hxor, hdelivered, -⟩ :=
    daemon_agrees_with_pipeline assumed_fileHost (alternating 8192 ++ [false])
      (by rw [hread]; exact hfeeds) fileHost.heap (Nat.le_refl 10) (Vector.replicate 512 0#8) 0#32
  obtain ⟨s, hrun, hs⟩ := mainLoop_of_feeds assumed_fileHost hfeeds
  obtain rfl : daemon = s := Outcome.running.inj (hdaemon.symm.trans hrun)
  refine ⟨daemon, extracted, folded, hdaemon, hamls, hxor, hdelivered, ?_⟩
  have hextracted := length_extracted_alternating (n := 8192) (by decide)
  rw [hs, length_mixed]
  omega

end K7nvhRng.UtilityPipeline
