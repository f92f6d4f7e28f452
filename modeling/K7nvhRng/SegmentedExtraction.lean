import K7nvhRng.PeresExtractor
import Mathlib.Algebra.BigOperators.Ring.List

/-!
# Extraction from a word made of segments of different sources

The weights of consecutive segments are prescribed separately, so that only bits
of one segment are exchangeable. As long as the segment lengths stay even, no
pair of the word or of its iterated patterns of unequal pairs straddles a segment
boundary, and the bits extracted from these levels are exact.
-/

namespace K7nvhRng.SegmentedExtraction
open Finset LengthUniformCounting PeresExtractor

/-- The numbers of ones in consecutive segments of the given lengths. -/
def segmentCounts : List ℕ → List Bool → List ℕ
  | [], _ => []
  | n :: ns, x => (x.take n).count true :: segmentCounts ns (x.drop n)

def segmentWords (ns ws : List ℕ) : Finset (List Bool) :=
  (words Bool ns.sum).filter (fun x => segmentCounts ns x = ws)

@[simp] theorem mem_segmentWords {ns ws : List ℕ} {x : List Bool} :
    x ∈ segmentWords ns ws ↔ x.length = ns.sum ∧ segmentCounts ns x = ws := by
  simp [segmentWords]

theorem segmentCounts_append {n : ℕ} {x : List Bool} (hx : x.length = n) (ns : List ℕ)
    (y : List Bool) : segmentCounts (n :: ns) (x ++ y) = x.count true :: segmentCounts ns y := by
  subst hx
  simp [segmentCounts]

theorem exists_append_of_length {n : ℕ} {ns : List ℕ} {x : List Bool}
    (hx : x.length = (n :: ns).sum) :
    ∃ a b, x = a ++ b ∧ a.length = n ∧ b.length = ns.sum := by
  rw [List.sum_cons] at hx
  exact ⟨x.take n, x.drop n, (List.take_append_drop n x).symm,
    by rw [List.length_take]; omega, by rw [List.length_drop]; omega⟩

theorem count_true_eq_sum {ns : List ℕ} {x : List Bool} (hx : x.length = ns.sum) :
    x.count true = (segmentCounts ns x).sum := by
  induction ns generalizing x with
  | nil => simp_all [segmentCounts]
  | cons n ns ih =>
    obtain ⟨a, b, rfl, ha, hb⟩ := exists_append_of_length hx
    rw [segmentCounts_append ha, List.count_append, List.sum_cons, ih hb]

def segmentZeros (ns ws : List ℕ) : List ℕ := List.zipWith (· - ·) ns ws

@[simp] theorem segmentZeros_cons (n w : ℕ) (ns ws : List ℕ) :
    segmentZeros (n :: ns) (w :: ws) = (n - w) :: segmentZeros ns ws := rfl

theorem count_false_eq_sum {ns : List ℕ} {x : List Bool} (hx : x.length = ns.sum) :
    x.count false = (segmentZeros ns (segmentCounts ns x)).sum := by
  induction ns generalizing x with
  | nil => simp_all [segmentCounts, segmentZeros]
  | cons n ns ih =>
    obtain ⟨a, b, rfl, ha, hb⟩ := exists_append_of_length hx
    have hcount := List.count_true_add_count_false a
    have hb' := ih hb
    rw [segmentCounts_append ha, List.count_append, hb', segmentZeros_cons, List.sum_cons]
    omega

/-- The weight of each segment in terms of the segments of the two derived words. -/
theorem segmentCounts_parts {ps : List ℕ} {x : List Bool}
    (hx : x.length = (ps.map (2 * ·)).sum) :
    segmentCounts (ps.map (2 * ·)) x =
      List.zipWith (fun c j => c + 2 * j) (segmentCounts ps (pairXor x))
        (segmentCounts (segmentZeros ps (segmentCounts ps (pairXor x))) (pairCommon x)) := by
  induction ps generalizing x with
  | nil => simp [segmentCounts]
  | cons p ps ih =>
    rw [List.map_cons] at hx ⊢
    obtain ⟨a, b, rfl, ha, hb⟩ := exists_append_of_length hx
    obtain ⟨h₁, h₂, -⟩ := parts_append (x := a) ⟨p, ha⟩ b
    have hxor : (pairXor a).length = p := by rw [length_pairXor]; omega
    have hcount := List.count_true_add_count_false (pairXor a)
    have hcommon : (pairCommon a).length = p - (pairXor a).count true := by
      rw [length_pairCommon]; omega
    rw [segmentCounts_append ha, h₁, h₂, segmentCounts_append hxor, segmentZeros_cons,
      segmentCounts_append hcommon, List.zipWith_cons_cons, count_true_parts ⟨p, ha⟩, ih hb]

/-- The unequal pairs of a word, then those of its pattern of unequal pairs, and so on
for `d` levels. -/
def spine : ℕ → List Bool → List Bool
  | 0, _ => []
  | d + 1, x => vonNeumann x ++ spine d (pairXor x)

/-- The spine is what the full extractor outputs first. -/
theorem spine_prefix_peres (d : ℕ) (x : List Bool) : spine d x <+: peres x := by
  induction d generalizing x with
  | zero => exact List.nil_prefix
  | succ d ih =>
    obtain ⟨t, ht⟩ := ih (pairXor x)
    refine ⟨t ++ peres (pairCommon x), ?_⟩
    rw [peres_eq x, ← ht, spine]
    simp only [List.append_assoc]

private theorem lengthUniform_spine_succ {d : ℕ} {ps ws : List ℕ}
    (ih : ∀ cs, LengthUniform (segmentWords ps cs) (spine d)) :
    LengthUniform (segmentWords (ps.map (2 * ·)) ws) (spine (d + 1)) := by
  have hsum : (ps.map (2 * ·)).sum = 2 * ps.sum := by
    simpa using List.sum_map_mul_left ps id 2
  apply LengthUniform.of_fibres (fun x => (segmentCounts ps (pairXor x),
    segmentCounts (segmentZeros ps (segmentCounts ps (pairXor x))) (pairCommon x)))
  rintro ⟨cs, js⟩
  have hf : LengthUniform (segmentWords ps cs ×ˢ segmentWords (segmentZeros ps cs) js)
      (fun q => spine d q.1) := (ih cs).fst _
  by_cases hws : List.zipWith (fun c j => c + 2 * j) cs js = ws
  · refine (lengthUniform_of_parts (w := cs.sum) ?_ ?_ hf).congr fun x _ => rfl
    · intro x hx
      simp only [mem_filter, mem_segmentWords, Prod.mk.injEq] at hx
      obtain ⟨⟨hlen, -⟩, rfl, rfl⟩ := hx
      have hxor : (pairXor x).length = ps.sum := by rw [length_pairXor]; omega
      refine ⟨⟨ps.sum, by omega⟩, ?_⟩
      simp only [mem_product, mem_segmentWords, and_true]
      exact ⟨hxor, by rw [length_pairCommon, count_false_eq_sum hxor]⟩
    · rintro ⟨u, v⟩ hq
      simp only [mem_product, mem_segmentWords] at hq
      obtain ⟨⟨hu, rfl⟩, hv, rfl⟩ := hq
      have hv' : v.length = u.count false := hv.trans (count_false_eq_sum hu).symm
      refine ⟨hv', count_true_eq_sum hu, fun z hz => ?_⟩
      have hz' : z.length = u.count true := hz.trans (count_true_eq_sum hu).symm
      obtain ⟨h₁, h₂, -⟩ := parts_unpair u v z hv' hz'
      have hlen : (unpair u v z).length = (ps.map (2 * ·)).sum := by
        rw [length_unpair u v z hv' hz', hu, hsum]
      simp only [mem_filter, mem_segmentWords, segmentCounts_parts hlen, h₁, h₂, hws, hlen,
        and_self]
  · convert lengthUniform_empty (spine (d + 1))
    rw [filter_eq_empty_iff]
    intro x hx hkey
    obtain ⟨hlen, hx⟩ := mem_segmentWords.mp hx
    obtain ⟨rfl, rfl⟩ := Prod.mk.inj hkey
    exact hws ((segmentCounts_parts hlen).symm.trans hx)

/-- The first `d` levels are exact for segments whose lengths are multiples of `2 ^ d`,
whatever the weight of each segment. -/
theorem lengthUniform_spine (d : ℕ) (ns ws : List ℕ) (hns : ∀ n ∈ ns, 2 ^ d ∣ n) :
    LengthUniform (segmentWords ns ws) (spine d) := by
  induction d generalizing ns ws with
  | zero => exact lengthUniform_nil _
  | succ d ih =>
    have hhalf : (ns.map (· / 2)).map (2 * ·) = ns := by
      rw [List.map_map]
      refine (List.map_congr_left fun n hn => ?_).trans (List.map_id ns)
      have h2 : 2 ∣ n := (Dvd.intro_left _ (pow_succ 2 d).symm).trans (hns n hn)
      exact Nat.mul_div_cancel' h2
    rw [← hhalf]
    apply lengthUniform_spine_succ
    intro cs
    apply ih
    intro p hp
    obtain ⟨n, hn, rfl⟩ := List.mem_map.mp hp
    obtain ⟨m, hm⟩ := hns n hn
    exact ⟨m, by rw [hm, pow_succ, mul_right_comm, Nat.mul_div_cancel _ Nat.two_pos]⟩

end K7nvhRng.SegmentedExtraction
