import K7nvhRng.BiasedSources
import K7nvhRng.WhiteningExactness

/-!
# The output of the daemon for a biased device

A device whose samples are independent, with a bias that is constant during each block of 512
samples but unknown and possibly drifting, makes the daemon output uniformly distributed bytes:
given how many bytes there are, all values are equally likely.
-/

namespace K7nvhRng.DaemonUnbiased
open LengthUniformCounting PeresExtractor BiasedSources AmlsExactness ListBlocks StoppableRuns
open DaemonLoop ChunkConversion WhiteningBuffer ChunkLedger DaemonRefinement DeviceInput
open WhiteningExactness AmlsArrays

variable {devices : ℕ}

/-- The output for given blocks of samples, when they are read as the schedule says. -/
def output (host : Host) (its : List (List Bool) → List (Iteration devices))
    (xs : List (List Bool)) : List Byte :=
  (mainLoop host (its xs)).state.delivered

theorem output_eq {host : Host} (hh : Assumed host)
    {its : List (List Bool) → List (Iteration devices)} {xs : List (List Bool)}
    (hxs : ∀ x ∈ xs, x.length = 512)
    (hits : Feeds host (its xs) (xs.flatten.map asciiChar)) :
    output host its xs = mixed (xs.flatMap peres) := by
  obtain ⟨s, hrun, hdelivered⟩ := mainLoop_of_feeds hh hits
  have hblocks := (blocks_unique hxs (r := []) (by decide)).1
  rw [List.append_nil] at hblocks
  rw [output, hrun, Outcome.state_running, hdelivered, hblocks]
  congr 1
  exact List.flatMap_congr fun x hx => amlsBits_eq_peres (hxs x hx).le

/-- Among the blocks with given numbers of ones, all outputs of a length are equally frequent. -/
theorem lengthUniform_output {host : Host} (hh : Assumed host)
    {its : List (List Bool) → List (Iteration devices)}
    (hits : ∀ xs, (∀ x ∈ xs, x.length = 512) → Feeds host (its xs) (xs.flatten.map asciiChar))
    (ks : List ℕ) :
    LengthUniform (sequences (fun k => weightWords 512 k) ks) (output host its) := by
  refine (lengthUniform_mixed (lengthUniform_sequences (fun k => lengthUniform_peres 512 k)
    ks)).congr fun xs hxs => ?_
  have hlens := (mem_sequences_weightWords.mp hxs).2
  exact (output_eq hh hlens (hits xs hlens)).symm

/-- Whatever the biases of the blocks are, the output of the daemon is uniform given its length:
each value of `n` bytes has the probability that there are `n` bytes, divided by their number. -/
theorem daemon_unbiased {host : Host} (hh : Assumed host) (coins : List (PMF Bool))
    (its : List (List Bool) → List (Iteration devices))
    (hits : ∀ xs, (∀ x ∈ xs, x.length = 512) → Feeds host (its xs) (xs.flatten.map asciiChar))
    (y : List Byte) :
    256 ^ y.length * (tossBlocks 512 coins).map (output host its) y =
      (tossBlocks 512 coins).map (fun xs => (output host its xs).length) y.length := by
  rw [← natCast_card_byte]
  exact tossBlocks_map_uniform (lengthUniform_output hh hits) coins y

/-- Forty blocks of a device that prefers zeros, read chunk by chunk. -/
theorem daemon_unbiased_thirds :
    256 ^ (List.replicate 512 0x2a#8).length * (tossBlocks 512 (List.replicate 40 thirdCoin)).map
        (output fileHost fun xs => feed (xs.flatten.map asciiChar)) (List.replicate 512 0x2a#8) =
      (tossBlocks 512 (List.replicate 40 thirdCoin)).map
        (fun xs => (output fileHost (fun xs => feed (xs.flatten.map asciiChar)) xs).length)
        (List.replicate 512 0x2a#8).length := by
  refine daemon_unbiased assumed_fileHost _ _ (fun xs hxs => feeds_feed fileHost ?_) _
  rw [List.length_map, length_flatten_of_forall hxs]
  omega

end K7nvhRng.DaemonUnbiased
