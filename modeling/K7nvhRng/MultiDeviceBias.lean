import K7nvhRng.AmlsExactness
import K7nvhRng.SegmentedExtraction

/-!
# Several devices in one buffer

The four chunks of a buffer may come from devices of different bias, so only samples of
one chunk are exchangeable. The first seven levels of `level_a` pair samples of one chunk
only, and the bits found there are exact for any numbers of ones in the chunks. Deeper
levels pair samples of different chunks, and the whole result is not exact: a single one
in the buffer makes `amls` return the binary digits of its place, complemented, and the
last two digits name the chunk.
-/

namespace K7nvhRng.MultiDeviceBias
open LengthUniformCounting PeresExtractor SegmentedExtraction AmlsArrays AmlsExactness

def chunkLengths : List ℕ := [128, 128, 128, 128]

/-- The bits found at the first seven levels come first in the result of `amls`, and they are
exact for buffers with given numbers of ones in their chunks. -/
theorem amls_exact_levels (heap : List Bool → ℕ → Block) (mallocs : List Bool → ℕ) (ws : List ℕ) :
    (∀ x : List Bool, x.length = 512 →
      ∃ rest, ReturnsBits .signed (heap x) (mallocs x) x (spine 7 x ++ rest)) ∧
    ∀ y y' : List Bool, y.length = y'.length →
      {x : List Bool | x.length = 512 ∧ segmentCounts chunkLengths x = ws ∧
        spine 7 x = y}.ncard =
      {x : List Bool | x.length = 512 ∧ segmentCounts chunkLengths x = ws ∧
        spine 7 x = y'}.ncard := by
  constructor
  · intro x hx
    obtain ⟨rest, hrest⟩ := spine_prefix_peres 7 x
    exact ⟨rest, (returnsBits_iff _ _ hx.le _).mpr hrest.symm⟩
  · intro y y' hy
    refine (lengthUniform_spine 7 chunkLengths ws (by decide)).ncard_eq
      (A := fun y => {x : List Bool | x.length = 512 ∧ segmentCounts chunkLengths x = ws ∧
        spine 7 x = y}) ?_ hy
    intro y x
    rw [Set.mem_ofPred_eq, mem_segmentWords, and_assoc]
    rfl

/-- A buffer that starts with a one and is zero elsewhere. Its levels are seven ones, and there
are as many buffers with one one in the first chunk whose levels are seven zeros. -/
theorem amls_exact_levels_one :
    (∃ rest, ReturnsBits .signed (fun _ => Vector.replicate amlsArrayLen 0#8) 0
      (true :: List.replicate 511 false) (List.replicate 7 true ++ rest)) ∧
    segmentCounts chunkLengths (true :: List.replicate 511 false) = [1, 0, 0, 0] ∧
    {x : List Bool | x.length = 512 ∧ segmentCounts chunkLengths x = [1, 0, 0, 0] ∧
      spine 7 x = List.replicate 7 true}.ncard =
    {x : List Bool | x.length = 512 ∧ segmentCounts chunkLengths x = [1, 0, 0, 0] ∧
      spine 7 x = List.replicate 7 false}.ncard := by
  obtain ⟨hreturns, hcount⟩ := amls_exact_levels (fun _ _ => Vector.replicate amlsArrayLen 0#8)
    (fun _ => 0) [1, 0, 0, 0]
  have hlevels : spine 7 (true :: List.replicate 511 false) = List.replicate 7 true := by
    decide +kernel
  refine ⟨?_, by decide +kernel, hcount _ _ (by simp)⟩
  obtain ⟨rest, hrest⟩ := hreturns (true :: List.replicate 511 false)
    (by rw [List.length_cons, List.length_replicate])
  exact ⟨rest, hlevels ▸ hrest⟩

/-! ### A single one -/

def lone (p q : ℕ) : List Bool := List.replicate p false ++ true :: List.replicate q false

@[simp] theorem length_lone (p q : ℕ) : (lone p q).length = p + (q + 1) := by
  simp [lone]

theorem parts_zeros (n : ℕ) :
    pairXor (List.replicate n false) = List.replicate (n / 2) false ∧
    pairCommon (List.replicate n false) = List.replicate (n / 2) false ∧
    vonNeumann (List.replicate n false) = [] := by
  induction n using Nat.twoStepInduction with
  | zero => exact ⟨rfl, rfl, rfl⟩
  | one => exact ⟨rfl, rfl, rfl⟩
  | more n ih _ =>
    obtain ⟨h₁, h₂, h₃⟩ := ih
    have hdiv : (n + 2) / 2 = n / 2 + 1 := by omega
    simp [List.replicate_succ, pairXor, pairCommon, vonNeumann, h₁, h₂, h₃, hdiv]

private theorem peres_zeros (n : ℕ) : peres (List.replicate n false) = [] := by
  induction n using Nat.strong_induction_on with
  | _ n ih =>
    obtain ⟨h₁, h₂, h₃⟩ := parts_zeros n
    by_cases hn : n < 2
    · exact peres_of_length_lt_two (by rwa [List.length_replicate])
    · rw [peres_eq, h₁, h₂, h₃, ih (n / 2) (by omega)]
      rfl

private theorem parts_lone {p q n : ℕ} (hn : p + q + 1 = 2 * n) :
    pairXor (lone p q) = lone (p / 2) (n - 1 - p / 2) ∧
    pairCommon (lone p q) = List.replicate (n - 1) false ∧
    vonNeumann (lone p q) = [!p.testBit 0] := by
  induction p using Nat.twoStepInduction generalizing n with
  | zero =>
    obtain ⟨m, rfl⟩ : ∃ m, q = m + 1 := ⟨q - 1, by omega⟩
    obtain ⟨h₁, h₂, h₃⟩ := parts_zeros m
    have hm : m / 2 = n - 1 := by omega
    simp [lone, List.replicate_succ, pairXor, pairCommon, vonNeumann, h₁, h₂, h₃, hm]
  | one =>
    obtain ⟨h₁, h₂, h₃⟩ := parts_zeros q
    have hm : q / 2 = n - 1 := by omega
    simp [lone, List.replicate_succ, pairXor, pairCommon, vonNeumann, h₁, h₂, h₃, hm]
  | more p ih _ =>
    obtain ⟨h₁, h₂, h₃⟩ := ih (n := n - 1) (by omega)
    have hcons : lone (p + 2) q = false :: false :: lone p q := by
      simp [lone, List.replicate_succ]
    have hdiv : (p + 2) / 2 = p / 2 + 1 := by omega
    have hbit : (p + 2).testBit 0 = p.testBit 0 := by simp [Nat.testBit_zero]
    refine ⟨?_, ?_, ?_⟩
    · rw [hcons, pairXor, h₁, hdiv, show n - 1 - (p / 2 + 1) = n - 1 - 1 - p / 2 by omega]
      simp [lone, List.replicate_succ]
    · rw [hcons, pairCommon, if_pos rfl, h₂, ← List.replicate_succ,
        show n - 1 - 1 + 1 = n - 1 by omega]
    · rw [hcons, vonNeumann, if_pos rfl, h₃, hbit]

/-- The extraction from a single one reads off its place. -/
theorem peres_lone {k p : ℕ} (hp : p < 2 ^ k) :
    peres (lone p (2 ^ k - 1 - p)) = (List.range k).map fun d => !p.testBit d := by
  induction k generalizing p with
  | zero =>
    obtain rfl : p = 0 := by simpa using hp
    exact peres_of_length_lt_two (by simp [lone])
  | succ k ih =>
    have hpow : 2 ^ (k + 1) = 2 * 2 ^ k := by rw [Nat.pow_succ, Nat.mul_comm]
    obtain ⟨h₁, h₂, h₃⟩ := parts_lone (p := p) (q := 2 ^ (k + 1) - 1 - p) (n := 2 ^ k) (by omega)
    have hrec := ih (p := p / 2) (by omega)
    rw [peres_eq, h₁, h₂, h₃, hrec, peres_zeros, List.append_nil, List.range_succ_eq_map,
      List.map_cons, List.map_map, List.singleton_append]
    simp only [Function.comp_def, Nat.testBit_succ]

private theorem exists_lone_of_count {x : List Bool} (hx : x.count true = 1) :
    ∃ p q, x = lone p q := by
  have hmem : true ∈ x := List.count_pos_iff.mp (by omega)
  obtain ⟨a, b, rfl⟩ := List.append_of_mem hmem
  have hzero : ∀ l : List Bool, l.count true = 0 → l = List.replicate l.length false := by
    intro l hl
    rw [List.count_eq_zero] at hl
    refine List.eq_replicate_of_mem fun c hc => ?_
    cases c with
    | false => rfl
    | true => exact absurd hc hl
  rw [List.count_append, List.count_cons_self] at hx
  exact ⟨a.length, b.length, by rw [lone, ← hzero a (by omega), ← hzero b (by omega)]⟩

private theorem exists_lone_of_segmentCounts {x : List Bool} (hx : x.length = 512)
    (hcounts : segmentCounts chunkLengths x = [1, 0, 0, 0]) :
    ∃ p < 128, x = lone p (2 ^ 9 - 1 - p) := by
  have htotal : x.count true = 1 := by
    have hsum : x.count true = (segmentCounts chunkLengths x).sum := count_true_eq_sum hx
    rw [hsum, hcounts]
    rfl
  obtain ⟨p, q, rfl⟩ := exists_lone_of_count htotal
  rw [length_lone] at hx
  refine ⟨p, ?_, by rw [show 2 ^ 9 - 1 - p = q by omega]⟩
  by_contra hp
  have htake : (lone p q).take 128 = List.replicate 128 false := by
    rw [lone, List.take_append_of_le_length (by simpa using hp), List.take_replicate,
      Nat.min_eq_left (by omega)]
  have hfirst : ((lone p q).take 128).count true = 1 := (List.cons.inj hcounts).1
  rw [htake, List.count_replicate, if_neg (by decide)] at hfirst
  cases hfirst

/-- The buffers with `ws` ones in their chunks for which `amls` returns `y`. -/
def returning (ws : List ℕ) (y : List Bool) : Set (List Bool) :=
  {x | x.length = 512 ∧ segmentCounts chunkLengths x = ws ∧
    ReturnsBits .signed (fun _ => Vector.replicate amlsArrayLen 0#8) 0 x y}

/-- With one one in the first chunk and none in the others, nine ones are returned but nine
zeros are not. -/
theorem chunk_counts_not_exact :
    (returning [1, 0, 0, 0] (List.replicate 9 true)).ncard ≠
      (returning [1, 0, 0, 0] (List.replicate 9 false)).ncard := by
  have hempty : returning [1, 0, 0, 0] (List.replicate 9 false) = ∅ := by
    rw [Set.eq_empty_iff_forall_notMem]
    rintro x ⟨hx, hcounts, hreturns⟩
    rw [returnsBits_iff _ _ hx.le] at hreturns
    obtain ⟨p, hp, rfl⟩ := exists_lone_of_segmentCounts hx hcounts
    rw [peres_lone (by omega)] at hreturns
    -- The eighth digit of a place in the first chunk is zero.
    have hdigit : some (!p.testBit 7) = some false := congrArg (·[7]?) hreturns
    rw [Nat.testBit_lt_two_pow hp] at hdigit
    cases hdigit
  have hlen : (lone 0 511).length = 512 := length_lone 0 511
  have hfirst : peres (lone 0 511) = List.replicate 9 true := peres_lone (k := 9) (by decide)
  have hmem : lone 0 511 ∈ returning [1, 0, 0, 0] (List.replicate 9 true) :=
    ⟨hlen, by decide +kernel, (returnsBits_iff _ _ hlen.le _).mpr hfirst⟩
  have hfinite : (returning [1, 0, 0, 0] (List.replicate 9 true)).Finite := by
    refine (segmentWords chunkLengths [1, 0, 0, 0]).finite_toSet.subset fun x hx => ?_
    rw [Finset.mem_coe, mem_segmentWords]
    exact ⟨hx.1, hx.2.1⟩
  rw [hempty, Set.ncard_empty]
  exact ((Set.ncard_pos hfinite).mpr ⟨_, hmem⟩).ne'

end K7nvhRng.MultiDeviceBias
