import K7nvhRng.EveryHost
import Mathlib.Analysis.SpecialFunctions.Log.Base

/-!
# Entropy is never over-credited

A block of 512 samples with `k` ones is one of `C(512, k)` equally likely blocks. Because the
extraction is exact, the bits extracted from some blocks are never more than the logarithm of
the number of such sequences of blocks, and two extracted bits are spent on every bit that is
output. This holds for every run, also for one that a failed delivery has ended.
-/

namespace K7nvhRng.EntropyCredit
open LengthUniformCounting PeresExtractor AmlsArrays AmlsRefinement AmlsExactness StoppableRuns
open ListBlocks DaemonLoop ChunkConversion WhiteningBuffer ChunkLedger DaemonRefinement
open DeviceInput FailingDeliveries EveryHost

/-- The number of blocks with as many ones as `b`. -/
def arrangements (b : Vector Byte 512) : ℕ := Nat.choose 512 (b.toList.count 1#8)

private theorem pow_length_extracted_le {n : ℕ} {xs : List (List Bool)}
    (hxs : ∀ x ∈ xs, x.length = n) :
    2 ^ (xs.flatMap peres).length ≤ (xs.map fun x => n.choose (x.count true)).prod := by
  have hmem : xs ∈ sequences (weightWords n) (xs.map fun x => x.count true) := by
    rw [mem_sequences, List.forall₂_map_right_iff, List.forall₂_same]
    intro x hx
    exact mem_weightWords.mpr ⟨hxs x hx, rfl⟩
  have hle := (lengthUniform_sequences (lengthUniform_peres n) _).card_pow_le hmem
  simpa only [Fintype.card_bool, card_sequences, card_weightWords, List.map_map,
    Function.comp_def] using hle

variable {devices : ℕ}

private theorem count_map_bitChar (x : List Bool) : (x.map bitChar).count 1#8 = x.count true :=
  List.count_map_of_injective x bitChar bitChar_injective true

/-- The bytes output without an error, against the blocks they come from. -/
theorem pow_delivered_le {host : Host} {s : State devices} {l : Ledger devices}
    (h : Final host s l) :
    2 ^ (16 * s.delivered.length) ≤ (s.processed.map arrangements).prod := by
  have hlens : ∀ x ∈ groups l.chunks, x.length = 512 := by
    intro x hx
    have hmem : x.map bitChar ∈ s.processed.map Vector.toList := by
      rw [h.processed]
      exact List.mem_map_of_mem hx
    obtain ⟨b, -, hb⟩ := List.mem_map.mp hmem
    rw [← List.length_map bitChar, ← hb, Vector.length_toList]
  have hstream : stream l.chunks = (groups l.chunks).flatMap peres :=
    List.flatMap_congr fun x hx => amlsBits_eq_peres (hlens x hx).le
  have hbits : 16 * s.delivered.length ≤ ((groups l.chunks).flatMap peres).length := by
    rw [h.delivered, length_mixed, hstream]
    omega
  have hprod : s.processed.map arrangements =
      (groups l.chunks).map fun x => Nat.choose 512 (x.count true) := by
    have hones := congrArg (List.map fun c : List Byte => Nat.choose 512 (c.count 1#8)) h.processed
    simp only [List.map_map, Function.comp_def, count_map_bitChar] at hones
    exact hones
  calc 2 ^ (16 * s.delivered.length)
      ≤ 2 ^ ((groups l.chunks).flatMap peres).length := Nat.pow_le_pow_right (by decide) hbits
    _ ≤ ((groups l.chunks).map fun x => Nat.choose 512 (x.count true)).prod :=
        pow_length_extracted_le hlens
    _ = (s.processed.map arrangements).prod := by rw [hprod]

theorem arrangements_pos (b : Vector Byte 512) : 0 < arrangements b := by
  apply Nat.choose_pos
  exact List.count_le_length.trans_eq Vector.length_toList

private theorem arrangements_replicate (c : Byte) : arrangements (Vector.replicate 512 c) = 1 := by
  rw [arrangements, Vector.toList_replicate, List.count_replicate]
  split
  · exact Nat.choose_self 512
  · exact Nat.choose_zero_right 512

private theorem logb_prod_arrangements (bs : List (Vector Byte 512)) :
    Real.logb 2 ((bs.map arrangements).prod : ℕ) =
      (bs.map fun b => Real.logb 2 (arrangements b)).sum := by
  induction bs with
  | nil => simp
  | cons b bs ih =>
    have hprod : (((bs.map arrangements).prod : ℕ) : ℝ) ≠ 0 := by
      refine Nat.cast_ne_zero.mpr (List.prod_pos fun n hn => ?_).ne'
      obtain ⟨b', -, rfl⟩ := List.mem_map.mp hn
      exact arrangements_pos b'
    rw [List.map_cons, List.prod_cons, Nat.cast_mul, Real.logb_mul _ hprod, ih, List.map_cons,
      List.sum_cons]
    exact Nat.cast_ne_zero.mpr (arrangements_pos b).ne'

private theorem length_le_logb {n : ℕ} {bs : List (Vector Byte 512)}
    (h : 2 ^ n ≤ (bs.map arrangements).prod) :
    (n : ℝ) ≤ (bs.map fun b => Real.logb 2 (arrangements b)).sum := by
  have hlog : Real.logb 2 (2 ^ n) ≤ Real.logb 2 ((bs.map arrangements).prod : ℕ) :=
    Real.logb_le_logb_of_le one_lt_two (by positivity) (by exact_mod_cast h)
  rwa [Real.logb_pow, Real.logb_self_eq_one one_lt_two, mul_one, logb_prod_arrangements] at hlog

theorem credit_le (sink : Sink) : sink.credit ≤ 8 := by
  cases sink <;> decide

/-- For every run, two to the number of extracted bits spent on the output is at most the
number of ways to arrange the ones of the blocks processed. The entropy credited for the
output is at most half the logarithm of that number, and blocks of constant samples alone
cause no output. -/
theorem entropy_not_overcredited (host : Host) (its : List (Iteration devices)) :
    let s := (mainLoop host its).state
    2 ^ (16 * s.delivered.length) ≤
      (s.processed.map fun b => Nat.choose 512 (b.toList.count 1#8)).prod ∧
    (s.credited : ℝ) ≤
      (s.processed.map fun b => Real.logb 2 (Nat.choose 512 (b.toList.count 1#8))).sum / 2 ∧
    ((∀ b ∈ s.processed, ∃ c, b = Vector.replicate 512 c) → s.delivered = []) := by
  have hcovered := mainLoop_covered host its
  dsimp only
  generalize (mainLoop host its).state = s at hcovered ⊢
  obtain ⟨t, l, ⟨hprocessed, hdelivered, hcredited⟩, hfinal⟩ := hcovered
  have hpow := pow_delivered_le hfinal
  rw [← hprocessed] at hpow
  have hle : 2 ^ (16 * s.delivered.length) ≤ (s.processed.map arrangements).prod :=
    (Nat.pow_le_pow_right (by decide) (Nat.mul_le_mul_left 16 hdelivered.length_le)).trans hpow
  refine ⟨hle, ?_, fun hconst => ?_⟩
  · have hcredit : 2 * s.credited ≤ 16 * t.delivered.length := by
      have hmul := Nat.mul_le_mul_right t.delivered.length (credit_le host.sink)
      rw [← hfinal.credited] at hmul
      omega
    have hlog := length_le_logb hpow
    have hcredit' : (2 * s.credited : ℝ) ≤ (16 * t.delivered.length : ℕ) := by
      exact_mod_cast hcredit
    rw [le_div_iff₀ two_pos, mul_comm]
    exact hcredit'.trans hlog
  · have hone : s.processed.map arrangements = s.processed.map fun _ => 1 := by
      refine List.map_congr_left fun b hb => ?_
      obtain ⟨c, rfl⟩ := hconst b hb
      exact arrangements_replicate c
    rw [hone, List.map_const', List.prod_replicate, one_pow] at hle
    by_contra hne
    have hpos : 0 < 16 * s.delivered.length := by
      have := List.length_pos_iff.mpr hne
      omega
    exact absurd hle (Nat.one_lt_two_pow hpos.ne').not_ge

/-- A block of ones causes no output on a host that credits entropy to the kernel. -/
theorem entropy_not_overcredited_ones :
    (mainLoop { fileHost with sink := .linuxRandom }
      (feed ((List.replicate 512 true).map asciiChar))).state.delivered = [] := by
  have hassumed : Assumed { fileHost with sink := .linuxRandom } :=
    ⟨rfl, Nat.le_refl 10, fun _ => rfl⟩
  have hlen : (List.replicate 512 true).length = 512 := List.length_replicate
  obtain ⟨l, hledger, -, hgroups⟩ := Feeds.ledger (feeds_feed { fileHost with sink := .linuxRandom }
    (x := (List.replicate 512 true).map asciiChar) (by rw [List.length_map, hlen]; decide))
  have hsim := mainLoop_simulates hassumed (feed ((List.replicate 512 true).map asciiChar))
  refine (entropy_not_overcredited _ _).2.2 fun b hb => ⟨1#8, ?_⟩
  rw [hledger] at hsim
  generalize mainLoop _ _ = o at hsim hb
  cases hsim with
  | running h =>
    have hmem := List.mem_map_of_mem (f := Vector.toList) hb
    rw [Outcome.state_running, h.processed, hgroups, blocks_of_length_eq (by decide) hlen,
      List.map_singleton, List.map_replicate, List.mem_singleton] at hmem
    exact Vector.toList_inj.mp (hmem.trans Vector.toList_replicate.symm)

end K7nvhRng.EntropyCredit
