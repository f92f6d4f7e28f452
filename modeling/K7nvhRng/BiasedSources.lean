import K7nvhRng.PeresExtractor
import Mathlib.Data.FinEnum
import Mathlib.Probability.Distributions.Uniform

/-!
# Independent draws and outputs that are uniform given their length

Values are drawn independently from given distributions. If an output is produced equally often
as any other one of its length, among the inputs that have the same probability, then its
distribution is uniform on the outputs of each length.
-/

namespace K7nvhRng.BiasedSources
open LengthUniformCounting PeresExtractor
open scoped ENNReal

variable {α β κ : Type}

/-- Independent draws from each of the distributions. -/
noncomputable def draws : List (PMF α) → PMF (List α)
  | [] => PMF.pure []
  | μ :: μs => μ.bind fun a => (draws μs).map (a :: ·)

noncomputable def thirdCoin : PMF Bool :=
  (PMF.uniformOfFintype (Fin 3)).map fun i => decide (i = 0)

@[simp] theorem draws_nil_nil : draws ([] : List (PMF α)) [] = 1 := by
  simp [draws]

@[simp] theorem draws_nil_cons (x : α) (xs : List α) : draws ([] : List (PMF α)) (x :: xs) = 0 := by
  simp [draws]

theorem map_cons_apply (ν : PMF (List α)) (a x : α) (xs : List α) [DecidableEq α] :
    ν.map (a :: ·) (x :: xs) = if a = x then ν xs else 0 := by
  rw [PMF.map_apply]
  split
  · rename_i hax
    subst hax
    rw [tsum_eq_single xs]
    · simp
    · intro ys hys
      simp [Ne.symm hys]
  · rename_i hax
    simp [Ne.symm hax]

@[simp] theorem draws_cons_nil (μ : PMF α) (μs : List (PMF α)) : draws (μ :: μs) [] = 0 := by
  simp [draws]

@[simp] theorem draws_cons_cons (μ : PMF α) (μs : List (PMF α)) (x : α) (xs : List α) :
    draws (μ :: μs) (x :: xs) = μ x * draws μs xs := by
  classical
  rw [draws, PMF.bind_apply, tsum_eq_single x]
  · rw [map_cons_apply, if_pos rfl]
  · intro a ha
    rw [map_cons_apply, if_neg ha, mul_zero]

theorem length_of_draws_ne_zero {μs : List (PMF α)} {xs : List α} (h : draws μs xs ≠ 0) :
    xs.length = μs.length := by
  induction μs generalizing xs with
  | nil =>
    cases xs with
    | nil => rfl
    | cons x xs => exact absurd (draws_nil_cons x xs) h
  | cons μ μs ih =>
    cases xs with
    | nil => exact absurd (draws_cons_nil μ μs) h
    | cons x xs =>
      rw [draws_cons_cons, mul_ne_zero_iff] at h
      rw [List.length_cons, List.length_cons, ih h.2]

theorem draws_replicate_apply (coin : PMF Bool) {x : List Bool} {n : ℕ} (hx : x.length = n) :
    draws (List.replicate n coin) x = coin true ^ x.count true * coin false ^ x.count false := by
  subst hx
  induction x with
  | nil => simp
  | cons b x ih =>
    rw [List.length_cons, List.replicate_succ, draws_cons_cons, ih]
    cases b <;>
    · simp [pow_succ']
      ring

/-! ### Outputs -/

/-- If the probability of an input is determined by a key, and the inputs with each key produce
the outputs of one length equally often, then these have the same probability. -/
theorem map_apply_eq_of_fibres [DecidableEq β] [DecidableEq κ] {μ : PMF α} {S : Finset α}
    (hS : ∀ x ∉ S, μ x = 0) (key : α → κ) (w : κ → ℝ≥0∞) (hμ : ∀ x ∈ S, μ x = w (key x))
    {f : α → List β} (hf : ∀ k, LengthUniform (S.filter (fun x => key x = k)) f) {y y' : List β}
    (hy : y.length = y'.length) : μ.map f y = μ.map f y' := by
  have hsum : ∀ z, μ.map f z =
      ∑ k ∈ S.image key, ((S.filter (fun x => key x = k)).filter (fun x => f x = z)).card • w k := by
    intro z
    rw [PMF.map_apply, tsum_eq_sum (s := S)]
    · rw [← Finset.sum_fiberwise_of_maps_to (fun x hx => Finset.mem_image_of_mem key hx)]
      refine Finset.sum_congr rfl fun k _ => ?_
      rw [← Finset.sum_const]
      conv_rhs => rw [Finset.sum_filter]
      refine Finset.sum_congr rfl fun x hx => ?_
      obtain ⟨hxS, hkey⟩ := Finset.mem_filter.mp hx
      simp only [eq_comm (a := z), hμ x hxS, hkey]
    · intro x hx
      simp [hS x hx]
  rw [hsum y, hsum y']
  exact Finset.sum_congr rfl fun k _ => by rw [hf k y y' hy]

theorem card_pow_mul_apply [Fintype β] [DecidableEq β] {ν : PMF (List β)}
    (h : ∀ y y' : List β, y.length = y'.length → ν y = ν y') (y : List β) :
    (Fintype.card β : ℝ≥0∞) ^ y.length * ν y = ν.map List.length y.length := by
  rw [PMF.map_apply, tsum_eq_sum (s := words β y.length), Finset.sum_eq_card_nsmul (b := ν y),
    card_words, nsmul_eq_mul, Nat.cast_pow]
  · intro z hz
    have hlen := mem_words.mp hz
    rw [if_pos hlen.symm, h z y hlen]
  · intro z hz
    rw [if_neg fun hlen => hz (mem_words.mpr hlen.symm)]

theorem map_map_equiv {ν : PMF (List β)}
    (h : ∀ y y' : List β, y.length = y'.length → ν y = ν y') (e : β ≃ β) :
    ν.map (List.map e) = ν := by
  classical
  ext y
  rw [PMF.map_apply, tsum_eq_single (y.map e.symm)]
  · have hback : y = (y.map e.symm).map e := by simp
    rw [if_pos hback]
    exact h _ _ (List.length_map _)
  · intro z hz
    rw [if_neg]
    rintro rfl
    apply hz
    simp

theorem natCast_card_byte : (Fintype.card (BitVec 8) : ℝ≥0∞) = 256 := by
  rw [← FinEnum.card_eq_fintypeCard, FinEnum.card_bitVec]
  norm_num

/-! ### Blocks of tosses -/

/-- Blocks of `n` tosses, each with a coin of its own. -/
noncomputable def tossBlocks (n : ℕ) (coins : List (PMF Bool)) : PMF (List (List Bool)) :=
  draws (coins.map fun coin => draws (List.replicate n coin))

def blockLists (n m : ℕ) : Finset (List (List Bool)) :=
  sequences (fun _ => words Bool n) (List.replicate m ())

theorem mem_blockLists {n m : ℕ} {xs : List (List Bool)} :
    xs ∈ blockLists n m ↔ xs.length = m ∧ ∀ x ∈ xs, x.length = n := by
  rw [blockLists, mem_sequences]
  induction m generalizing xs with
  | zero => cases xs <;> simp
  | succ m ih =>
    cases xs with
    | nil => simp [List.replicate_succ]
    | cons x xs =>
      rw [List.replicate_succ, List.forall₂_cons, ih, List.forall_mem_cons, mem_words,
        List.length_cons, Nat.succ_inj]
      tauto

theorem mem_sequences_weightWords {n : ℕ} {ks : List ℕ} {xs : List (List Bool)} :
    xs ∈ sequences (fun k => weightWords n k) ks ↔
      xs.map (List.count true) = ks ∧ ∀ x ∈ xs, x.length = n := by
  rw [mem_sequences]
  induction ks generalizing xs with
  | nil => cases xs <;> simp
  | cons k ks ih =>
    cases xs with
    | nil => simp
    | cons x xs =>
      rw [List.forall₂_cons, ih, List.forall_mem_cons, mem_weightWords, List.map_cons,
        List.cons.injEq]
      tauto

noncomputable def blockWeight (n : ℕ) (coin : PMF Bool) (k : ℕ) : ℝ≥0∞ :=
  coin true ^ k * coin false ^ (n - k)

theorem tossBlocks_apply {n : ℕ} {coins : List (PMF Bool)} {xs : List (List Bool)}
    (hxs : xs ∈ blockLists n coins.length) :
    tossBlocks n coins xs =
      (List.zipWith (blockWeight n) coins (xs.map (List.count true))).prod := by
  obtain ⟨hlen, hblocks⟩ := mem_blockLists.mp hxs
  rw [tossBlocks]
  induction coins generalizing xs with
  | nil =>
    obtain rfl := List.eq_nil_of_length_eq_zero hlen
    simp
  | cons coin coins ih =>
    cases xs with
    | nil => cases hlen
    | cons x xs =>
      obtain ⟨hx, hrest⟩ := List.forall_mem_cons.mp hblocks
      have hlen' : xs.length = coins.length := Nat.succ_inj.mp hlen
      have hcount : x.count false = n - x.count true := by
        have htotal := List.count_true_add_count_false x
        omega
      rw [List.map_cons, draws_cons_cons, ih (mem_blockLists.mpr ⟨hlen', hrest⟩) hlen' hrest,
        draws_replicate_apply coin hx, hcount]
      rfl

theorem mem_of_tossBlocks_ne_zero {n : ℕ} {coins : List (PMF Bool)} {xs : List (List Bool)}
    (h : tossBlocks n coins xs ≠ 0) : xs ∈ blockLists n coins.length := by
  rw [tossBlocks] at h
  refine mem_blockLists.mpr ⟨by simpa using length_of_draws_ne_zero h, ?_⟩
  induction coins generalizing xs with
  | nil =>
    cases xs with
    | nil => simp
    | cons x xs => exact absurd (draws_nil_cons x xs) h
  | cons coin coins ih =>
    cases xs with
    | nil => simp
    | cons x xs =>
      rw [List.map_cons, draws_cons_cons, mul_ne_zero_iff] at h
      refine List.forall_mem_cons.mpr ⟨?_, ih h.2⟩
      rw [length_of_draws_ne_zero h.1, List.length_replicate]

/-- If an output is uniform among the blocks with given numbers of ones, then tossing coins
makes the outputs of one length equally likely. -/
theorem tossBlocks_map_apply_congr [DecidableEq β] {n : ℕ} {f : List (List Bool) → List β}
    (hf : ∀ ks, LengthUniform (sequences (fun k => weightWords n k) ks) f)
    (coins : List (PMF Bool)) {y y' : List β} (hy : y.length = y'.length) :
    (tossBlocks n coins).map f y = (tossBlocks n coins).map f y' := by
  have hfibres : ∀ ks, LengthUniform
      ((blockLists n coins.length).filter fun xs => xs.map (List.count true) = ks) f := by
    intro ks
    by_cases hks : ks.length = coins.length
    · have hset : (blockLists n coins.length).filter (fun xs => xs.map (List.count true) = ks) =
          sequences (fun k => weightWords n k) ks := by
        ext xs
        rw [Finset.mem_filter, mem_blockLists, mem_sequences_weightWords]
        constructor
        · rintro ⟨⟨-, hblocks⟩, hcounts⟩
          exact ⟨hcounts, hblocks⟩
        · rintro ⟨rfl, hblocks⟩
          rw [List.length_map] at hks
          exact ⟨⟨hks, hblocks⟩, rfl⟩
      rw [hset]
      exact hf ks
    · rw [Finset.filter_eq_empty_iff.mpr]
      · exact lengthUniform_empty f
      · rintro xs hxs rfl
        rw [List.length_map, (mem_blockLists.mp hxs).1] at hks
        exact hks rfl
  exact map_apply_eq_of_fibres
    (fun xs hxs => by_contra fun hne => hxs (mem_of_tossBlocks_ne_zero hne))
    (fun xs => xs.map (List.count true)) (fun ks => (List.zipWith (blockWeight n) coins ks).prod)
    (fun xs hxs => tossBlocks_apply hxs) hfibres hy

theorem tossBlocks_map_uniform [Fintype β] [DecidableEq β] {n : ℕ} {f : List (List Bool) → List β}
    (hf : ∀ ks, LengthUniform (sequences (fun k => weightWords n k) ks) f)
    (coins : List (PMF Bool)) (y : List β) :
    (Fintype.card β : ℝ≥0∞) ^ y.length * (tossBlocks n coins).map f y =
      (tossBlocks n coins).map (fun xs => (f xs).length) y.length := by
  rw [card_pow_mul_apply (fun _ _ hz => tossBlocks_map_apply_congr hf coins hz), PMF.map_comp]
  rfl

/-! ### Pairs of tosses -/

noncomputable def tossPairs (coins : List (PMF Bool)) : PMF (List Bool) :=
  draws (coins.flatMap fun coin => [coin, coin])

/-- The probability of the words in which given pairs are unequal and the others have given
common bits. -/
noncomputable def pairWeight : List (PMF Bool) → List Bool → List Bool → ℝ≥0∞
  | [], _, _ => 1
  | coin :: coins, true :: u, v => coin true * coin false * pairWeight coins u v
  | coin :: coins, false :: u, b :: v => coin b * coin b * pairWeight coins u v
  | _, _, _ => 0

theorem tossPairs_apply {coins : List (PMF Bool)} {x : List Bool}
    (hx : x.length = 2 * coins.length) :
    tossPairs coins x = pairWeight coins (pairXor x) (pairCommon x) := by
  rw [tossPairs]
  induction coins generalizing x with
  | nil =>
    obtain rfl := List.eq_nil_of_length_eq_zero hx
    simp [pairWeight]
  | cons coin coins ih =>
    match x, hx with
    | a :: b :: x, hx =>
      have hlen : x.length = 2 * coins.length := by
        simp only [List.length_cons] at hx
        omega
      have hpair : draws ((coin :: coins).flatMap fun coin => [coin, coin]) (a :: b :: x) =
          coin a * (coin b * pairWeight coins (pairXor x) (pairCommon x)) := by
        rw [List.flatMap_cons, List.cons_append, draws_cons_cons, List.cons_append, draws_cons_cons,
          List.nil_append, ih hlen]
      rw [hpair, ← mul_assoc]
      cases a <;> cases b <;> simp [pairXor, pairCommon, pairWeight, mul_comm]

/-- Given which pairs are unequal and what the others have in common, the first bits of the
unequal pairs are arbitrary. -/
theorem lengthUniform_vonNeumann (m : ℕ) (q : List Bool × List Bool) :
    LengthUniform ((words Bool (2 * m)).filter fun x => (pairXor x, pairCommon x) = q)
      vonNeumann := by
  by_cases hq : q.2.length = q.1.count false ∧ q.1.length = m
  · have hnil : LengthUniform {q} fun _ : List Bool × List Bool => ([] : List Bool) :=
      lengthUniform_nil _
    refine (lengthUniform_of_parts (w := q.1.count true) ?_ ?_ hnil).congr fun x _ =>
      List.append_nil _
    · intro x hx
      obtain ⟨hlen, hparts⟩ := Finset.mem_filter.mp hx
      rw [mem_words] at hlen
      exact ⟨⟨m, hlen⟩, Finset.mem_singleton.mpr hparts⟩
    · intro p hp
      obtain rfl := Finset.mem_singleton.mp hp
      refine ⟨hq.1, rfl, fun z hz => ?_⟩
      obtain ⟨hxor, hcommon, -⟩ := parts_unpair p.1 p.2 z hq.1 hz
      rw [Finset.mem_filter, mem_words, length_unpair _ _ _ hq.1 hz, hq.2, hxor, hcommon]
      exact ⟨rfl, rfl⟩
  · rw [Finset.filter_eq_empty_iff.mpr]
    · exact lengthUniform_empty _
    · rintro x hx rfl
      rw [mem_words] at hx
      exact hq ⟨length_pairCommon x, by rw [length_pairXor]; omega⟩

/-- What is made from the first bits of the unequal pairs, and is uniform when they are
arbitrary, is uniform given its length. -/
theorem tossPairs_map_uniform [Fintype β] [DecidableEq β] {coins : List (PMF Bool)}
    {f : List Bool → List β}
    (hf : ∀ q, LengthUniform
      ((words Bool (2 * coins.length)).filter fun x => (pairXor x, pairCommon x) = q) f)
    (y : List β) :
    (Fintype.card β : ℝ≥0∞) ^ y.length * (tossPairs coins).map f y =
      (tossPairs coins).map (fun x => (f x).length) y.length := by
  have hlen : ∀ x, tossPairs coins x ≠ 0 → x ∈ words Bool (2 * coins.length) := by
    intro x hx
    rw [mem_words, length_of_draws_ne_zero hx]
    simp [Nat.mul_comm]
  have hsame : ∀ z z' : List β, z.length = z'.length →
      (tossPairs coins).map f z = (tossPairs coins).map f z' := fun z z' hz =>
    map_apply_eq_of_fibres (fun x hx => by_contra fun hne => hx (hlen x hne))
      (fun x => (pairXor x, pairCommon x)) (fun q => pairWeight coins q.1 q.2)
      (fun x hx => tossPairs_apply (mem_words.mp hx)) hf hz
  rw [card_pow_mul_apply hsame, PMF.map_comp]
  rfl

end K7nvhRng.BiasedSources
