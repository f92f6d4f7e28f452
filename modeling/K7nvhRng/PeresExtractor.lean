import K7nvhRng.LengthUniformCounting
import Mathlib.Data.Nat.Choose.Basic
import Mathlib.Data.Bool.Count

/-!
# Iterated von Neumann extraction

A word is read in aligned pairs. The first bits of the unequal pairs are output,
and the extraction is repeated on two derived words: whether each pair is unequal,
and the common bits of the equal pairs. Splitting a word of even length into these
three parts is a bijection that keeps track of the number of ones, and this alone
gives exactness of the extractor on every set of words of one length and weight.
-/

namespace K7nvhRng.PeresExtractor
open Finset LengthUniformCounting

/-- Whether the two bits of each aligned pair differ. An unpaired last bit is ignored. -/
def pairXor : List Bool → List Bool
  | [] | [_] => []
  | a :: b :: l => (a ^^ b) :: pairXor l

/-- The common bits of the equal pairs. -/
def pairCommon : List Bool → List Bool
  | [] | [_] => []
  | a :: b :: l => if a = b then a :: pairCommon l else pairCommon l

/-- The first bits of the unequal pairs. -/
def vonNeumann : List Bool → List Bool
  | [] | [_] => []
  | a :: b :: l => if a = b then vonNeumann l else a :: vonNeumann l

/-- Rebuild the word whose pairs are described by the three parts. -/
def unpair : List Bool → List Bool → List Bool → List Bool
  | true :: u, v, b :: z => b :: (!b) :: unpair u v z
  | false :: u, b :: v, z => b :: b :: unpair u v z
  | _, _, _ => []

@[simp] theorem length_pairXor (x : List Bool) : (pairXor x).length = x.length / 2 := by
  induction x using pairXor.induct with
  | case1 => rfl
  | case2 a => simp [pairXor]
  | case3 a b l ih => simp only [pairXor, List.length_cons, ih]; omega

theorem length_pairCommon (x : List Bool) :
    (pairCommon x).length = (pairXor x).count false := by
  induction x using pairXor.induct with
  | case1 => rfl
  | case2 a => rfl
  | case3 a b l ih => cases a <;> cases b <;> simp [pairXor, pairCommon, ih]

theorem length_vonNeumann (x : List Bool) :
    (vonNeumann x).length = (pairXor x).count true := by
  induction x using pairXor.induct with
  | case1 => rfl
  | case2 a => rfl
  | case3 a b l ih => cases a <;> cases b <;> simp [pairXor, vonNeumann, ih]

/-- The three parts determine a word of even length. -/
theorem unpair_parts {x : List Bool} (hx : 2 ∣ x.length) :
    unpair (pairXor x) (pairCommon x) (vonNeumann x) = x := by
  induction x using pairXor.induct with
  | case1 => rfl
  | case2 a => simp at hx
  | case3 a b l ih =>
    have hl : 2 ∣ l.length := by simp only [List.length_cons] at hx; omega
    cases a <;> cases b <;> simp [pairXor, pairCommon, vonNeumann, unpair, ih hl]

theorem parts_unpair (u v z : List Bool) (hv : v.length = u.count false)
    (hz : z.length = u.count true) :
    pairXor (unpair u v z) = u ∧ pairCommon (unpair u v z) = v ∧
      vonNeumann (unpair u v z) = z := by
  induction u generalizing v z with
  | nil =>
    obtain rfl := List.eq_nil_of_length_eq_zero hv
    obtain rfl := List.eq_nil_of_length_eq_zero hz
    exact ⟨rfl, rfl, rfl⟩
  | cons a u ih =>
    cases a with
    | true =>
      cases z with
      | nil => simp at hz
      | cons b z =>
        obtain ⟨h₁, h₂, h₃⟩ := ih v z (by simpa using hv) (by simpa using hz)
        simp [unpair, pairXor, pairCommon, vonNeumann, h₁, h₂, h₃]
    | false =>
      cases v with
      | nil => simp at hv
      | cons b v =>
        obtain ⟨h₁, h₂, h₃⟩ := ih v z (by simpa using hv) (by simpa using hz)
        simp [unpair, pairXor, pairCommon, vonNeumann, h₁, h₂, h₃]

theorem length_unpair (u v z : List Bool) (hv : v.length = u.count false)
    (hz : z.length = u.count true) : (unpair u v z).length = 2 * u.length := by
  induction u generalizing v z with
  | nil => simp [unpair]
  | cons a u ih =>
    cases a with
    | true =>
      cases z with
      | nil => simp at hz
      | cons b z =>
        have h := ih v z (by simpa using hv) (by simpa using hz)
        simp only [unpair, List.length_cons, h]; omega
    | false =>
      cases v with
      | nil => simp at hv
      | cons b v =>
        have h := ih v z (by simpa using hv) (by simpa using hz)
        simp only [unpair, List.length_cons, h]; omega

theorem count_true_parts {x : List Bool} (hx : 2 ∣ x.length) :
    x.count true = (pairXor x).count true + 2 * (pairCommon x).count true := by
  induction x using pairXor.induct with
  | case1 => rfl
  | case2 a => simp at hx
  | case3 a b l ih =>
    have hl : 2 ∣ l.length := by simp only [List.length_cons] at hx; omega
    cases a <;> cases b <;> simp [pairXor, pairCommon, ih hl] <;> omega

theorem parts_append {x : List Bool} (hx : 2 ∣ x.length) (y : List Bool) :
    pairXor (x ++ y) = pairXor x ++ pairXor y ∧
      pairCommon (x ++ y) = pairCommon x ++ pairCommon y ∧
      vonNeumann (x ++ y) = vonNeumann x ++ vonNeumann y := by
  induction x using pairXor.induct with
  | case1 => exact ⟨rfl, rfl, rfl⟩
  | case2 a => simp at hx
  | case3 a b l ih =>
    obtain ⟨h₁, h₂, h₃⟩ := ih (by simp only [List.length_cons] at hx; omega)
    cases a <;> cases b <;> simp [pairXor, pairCommon, vonNeumann, h₁, h₂, h₃]

theorem parts_append_singleton {x : List Bool} (hx : 2 ∣ x.length) (c : Bool) :
    pairXor (x ++ [c]) = pairXor x ∧ pairCommon (x ++ [c]) = pairCommon x ∧
      vonNeumann (x ++ [c]) = vonNeumann x := by
  simpa [pairXor, pairCommon, vonNeumann] using parts_append hx [c]

/-- The three parts of a word of `p` pairs have the lengths given by the first one. -/
def WellSized (p : ℕ) : Set (List Bool × List Bool × List Bool) :=
  {t | t.1.length = p ∧ t.2.1.length = t.1.count false ∧ t.2.2.length = t.1.count true}

theorem bijOn_parts (p : ℕ) :
    Set.BijOn (fun x => (pairXor x, pairCommon x, vonNeumann x)) {x | x.length = 2 * p}
      (WellSized p) := by
  have hinv : Set.InvOn (fun t : List Bool × List Bool × List Bool => unpair t.1 t.2.1 t.2.2)
      (fun x => (pairXor x, pairCommon x, vonNeumann x)) {x | x.length = 2 * p} (WellSized p) := by
    constructor
    · intro x (hx : x.length = 2 * p)
      exact unpair_parts (by omega)
    · rintro ⟨u, v, z⟩ ⟨-, hv, hz⟩
      obtain ⟨h₁, h₂, h₃⟩ := parts_unpair u v z hv hz
      exact Prod.ext h₁ (Prod.ext h₂ h₃)
  apply hinv.bijOn
  · intro x (hx : x.length = 2 * p)
    exact ⟨by rw [length_pairXor]; omega, length_pairCommon x, length_vonNeumann x⟩
  · rintro ⟨u, v, z⟩ ⟨hu, hv, hz⟩
    exact (length_unpair u v z hv hz).trans (congrArg (2 * ·) hu)

theorem vonNeumann_flatten {bs : List (List Bool)} (hbs : ∀ b ∈ bs, 2 ∣ b.length) :
    vonNeumann bs.flatten = bs.flatMap vonNeumann := by
  induction bs with
  | nil => rfl
  | cons b bs ih =>
    obtain ⟨hb, hbs⟩ := List.forall_mem_cons.mp hbs
    rw [List.flatten_cons, (parts_append hb _).2.2, ih hbs, List.flatMap_cons]

/-- Iterated extraction: the unequal pairs first, then the pattern of unequal pairs,
then the common bits of the equal pairs. -/
def peres (x : List Bool) : List Bool :=
  if x.length < 2 then [] else vonNeumann x ++ peres (pairXor x) ++ peres (pairCommon x)
termination_by x.length
decreasing_by
  · simp only [length_pairXor]; omega
  · have h := List.count_le_length (a := false) (l := pairXor x)
    rw [length_pairXor] at h
    rw [length_pairCommon]
    omega

theorem peres_of_length_lt_two {x : List Bool} (hx : x.length < 2) : peres x = [] := by
  rw [peres, if_pos hx]

/-- The recursion equation holds for short words as well: all three parts are empty. -/
theorem peres_eq (x : List Bool) :
    peres x = vonNeumann x ++ peres (pairXor x) ++ peres (pairCommon x) := by
  by_cases hx : x.length < 2
  · match x, hx with
    | [], _ | [_], _ => simp [vonNeumann, pairXor, pairCommon, peres_of_length_lt_two]
  · rw [peres, if_neg hx]

theorem peres_append_singleton {x : List Bool} (hx : 2 ∣ x.length) (c : Bool) :
    peres (x ++ [c]) = peres x := by
  obtain ⟨h₁, h₂, h₃⟩ := parts_append_singleton hx c
  rw [peres_eq, h₁, h₂, h₃, ← peres_eq]

theorem length_peres_lt (x : List Bool) (hx : x ≠ []) : (peres x).length < x.length := by
  fun_induction peres x with
  | case1 x h => simpa using List.length_pos_iff.mpr hx
  | case2 x h ihXor ihCommon =>
    have hlen := length_pairXor x
    have hcount := List.count_true_add_count_false (pairXor x)
    have hXor := ihXor (by intro he; rw [he] at hlen; simp at hlen; omega)
    have hCommon : (peres (pairCommon x)).length ≤ (pairCommon x).length := by
      by_cases hc : pairCommon x = []
      · simp [hc, peres_of_length_lt_two]
      · exact (ihCommon hc).le
    simp only [List.length_append, length_vonNeumann]
    rw [length_pairCommon] at hCommon
    omega

/-- If the words of `S` are exactly those whose derived words lie in `T`, all with the same
number `w` of unequal pairs, then the unequal pairs contribute all words of length `w`. -/
theorem lengthUniform_of_parts {S : Finset (List Bool)} {T : Finset (List Bool × List Bool)}
    {w : ℕ} (hS : ∀ x ∈ S, 2 ∣ x.length ∧ (pairXor x, pairCommon x) ∈ T)
    (hT : ∀ q ∈ T, q.2.length = q.1.count false ∧ q.1.count true = w ∧
      ∀ z, z.length = w → unpair q.1 q.2 z ∈ S)
    {f : List Bool × List Bool → List Bool} (hf : LengthUniform T f) :
    LengthUniform S (fun x => vonNeumann x ++ f (pairXor x, pairCommon x)) := by
  refine ((lengthUniform_words w).append hf).of_bijOn
    (fun x => (vonNeumann x, pairXor x, pairCommon x)) (fun q => unpair q.2.1 q.2.2 q.1) ?_ ?_ ?_ ?_
  · intro x hx
    have hq := (hS x hx).2
    rw [mem_product, mem_words, length_vonNeumann]
    exact ⟨(hT _ hq).2.1, hq⟩
  · rintro ⟨z, q⟩ hq
    rw [mem_product, mem_words] at hq
    exact (hT q hq.2).2.2 z hq.1
  · intro x hx
    exact unpair_parts (hS x hx).1
  · rintro ⟨z, u, v⟩ hq
    rw [mem_product, mem_words] at hq
    obtain ⟨hv, hw, -⟩ := hT _ hq.2
    obtain ⟨h₁, h₂, h₃⟩ := parts_unpair u v z hv (hq.1.trans hw.symm)
    simp only [h₁, h₂, h₃]

def weightWords (n k : ℕ) : Finset (List Bool) :=
  (words Bool n).filter (fun x => x.count true = k)

@[simp] theorem mem_weightWords {n k : ℕ} {x : List Bool} :
    x ∈ weightWords n k ↔ x.length = n ∧ x.count true = k := by
  simp [weightWords]

theorem card_weightWords (n k : ℕ) : (weightWords n k).card = n.choose k := by
  induction n generalizing k with
  | zero => cases k <;> simp [weightWords, words, filter_singleton]
  | succ n ih =>
    have hsplit : weightWords (n + 1) k = (weightWords n k).image (List.cons false) ∪
        ((words Bool n).filter (fun x => x.count true + 1 = k)).image (List.cons true) := by
      ext x
      cases x with
      | nil => simp
      | cons a x => cases a <;> simp [and_comm]
    rw [hsplit, card_union_of_disjoint, card_image_of_injective _ (List.cons_injective),
      card_image_of_injective _ (List.cons_injective), ih]
    · cases k with
      | zero => simp
      | succ k =>
        have hk := ih k
        simp only [weightWords] at hk
        simp only [Nat.add_right_cancel_iff, hk]
        rw [Nat.choose_succ_succ, Nat.add_comm]
    · rw [disjoint_left]
      intro x hx hx'
      obtain ⟨a, -, rfl⟩ := mem_image.mp hx
      obtain ⟨b, -, hb⟩ := mem_image.mp hx'
      simp at hb

/-- The inductive step of exactness for words of even length. The key fixes the weights of
both derived words, and with them their lengths. -/
private theorem lengthUniform_peres_even {p k : ℕ}
    (ih : ∀ m ≤ p, ∀ j, LengthUniform (weightWords m j) peres) :
    LengthUniform (weightWords (2 * p) k) peres := by
  apply LengthUniform.of_fibres (fun x => ((pairXor x).count true, (pairCommon x).count true))
  rintro ⟨w, j⟩
  have hf : LengthUniform (weightWords p w ×ˢ weightWords (p - w) j)
      (fun q => peres q.1 ++ peres q.2) :=
    (ih p le_rfl w).append (ih (p - w) (Nat.sub_le p w) j)
  by_cases hk : w + 2 * j = k
  · refine (lengthUniform_of_parts (w := w) ?_ ?_ hf).congr fun x _ => ?_
    · intro x hx
      simp only [mem_filter, mem_weightWords, Prod.mk.injEq] at hx
      obtain ⟨⟨hlen, -⟩, hw, hj⟩ := hx
      have hcount := List.count_true_add_count_false (pairXor x)
      refine ⟨⟨p, hlen⟩, ?_⟩
      simp only [mem_product, mem_weightWords, length_pairXor, length_pairCommon] at hcount ⊢
      omega
    · rintro ⟨u, v⟩ hq
      simp only [mem_product, mem_weightWords] at hq
      obtain ⟨⟨hu, hw⟩, hv, hj⟩ := hq
      have hcount := List.count_true_add_count_false u
      have hv' : v.length = u.count false := by omega
      refine ⟨hv', hw, fun z hz => ?_⟩
      have hz' : z.length = u.count true := hz.trans hw.symm
      obtain ⟨h₁, h₂, -⟩ := parts_unpair u v z hv' hz'
      have hlen := length_unpair u v z hv' hz'
      have hones := count_true_parts (x := unpair u v z) ⟨u.length, hlen⟩
      rw [h₁, h₂] at hones
      simp only [mem_filter, mem_weightWords, Prod.mk.injEq, h₁, h₂]
      omega
    · rw [← List.append_assoc, ← peres_eq]
  -- No word of this weight has such a key.
  · convert lengthUniform_empty peres
    rw [filter_eq_empty_iff]
    intro x hx hkey
    obtain ⟨hlen, hx⟩ := mem_weightWords.mp hx
    obtain ⟨hw, hj⟩ := Prod.mk.inj hkey
    have hones := count_true_parts (x := x) ⟨p, hlen⟩
    omega

private theorem lengthUniform_peres_odd {p k : ℕ}
    (h : ∀ j, LengthUniform (weightWords (2 * p) j) peres) :
    LengthUniform (weightWords (2 * p + 1) k) peres := by
  apply LengthUniform.of_fibres (fun x => x.drop (2 * p))
  intro t
  by_cases ht : t.length = 1 ∧ t.count true ≤ k
  · obtain ⟨hlen, hle⟩ := ht
    obtain ⟨c, rfl⟩ := List.length_eq_one_iff.mp hlen
    refine ((h (k - [c].count true)).of_bijOn (fun x => x.take (2 * p)) (fun x => x ++ [c])
      ?_ ?_ ?_ ?_).congr fun x hx => ?_
    · intro x hx
      simp only [mem_filter, mem_weightWords] at hx ⊢
      obtain ⟨⟨hx, hk⟩, hc⟩ := hx
      have hsplit := congrArg (List.count true) (List.take_append_drop (2 * p) x)
      rw [List.count_append, hc, hk] at hsplit
      simp only [List.length_take]
      omega
    · intro x hx
      simp only [mem_filter, mem_weightWords] at hx ⊢
      obtain ⟨hx, hk⟩ := hx
      simp only [List.length_append, List.count_append, hx, hk]
      refine ⟨⟨rfl, by omega⟩, ?_⟩
      rw [← hx, List.drop_left]
    · intro x hx
      simp only [mem_filter] at hx
      rw [← hx.2, List.take_append_drop]
    · intro x hx
      rw [mem_weightWords] at hx
      rw [← hx.1, List.take_left]
    · simp only [mem_filter, mem_weightWords] at hx
      have hlen : (x.take (2 * p)).length = 2 * p := by
        rw [List.length_take]; omega
      rw [← peres_append_singleton ⟨p, hlen⟩ c, ← hx.2, List.take_append_drop]
  · convert lengthUniform_empty peres
    rw [filter_eq_empty_iff]
    rintro x hx rfl
    obtain ⟨hlen, hk⟩ := mem_weightWords.mp hx
    have hsplit := congrArg (List.count true) (List.take_append_drop (2 * p) x)
    rw [List.count_append, hk] at hsplit
    simp only [List.length_drop] at ht
    omega

/-- The extractor is exact on the words of each length and weight. -/
theorem lengthUniform_peres (n k : ℕ) : LengthUniform (weightWords n k) peres := by
  induction n using Nat.strong_induction_on generalizing k with
  | _ n ih =>
    by_cases hn : n < 2
    · refine (lengthUniform_nil _).congr fun x hx => ?_
      rw [peres_of_length_lt_two (by rw [(mem_weightWords.mp hx).1]; exact hn)]
    have heven : ∀ j, LengthUniform (weightWords (2 * (n / 2)) j) peres := fun j =>
      lengthUniform_peres_even fun m hm => ih m (by omega)
    rcases Nat.mod_two_eq_zero_or_one n with h | h
    · have he : n = 2 * (n / 2) := by omega
      rw [he]
      exact heven k
    · have ho : n = 2 * (n / 2) + 1 := by omega
      rw [ho]
      exact lengthUniform_peres_odd heven

end K7nvhRng.PeresExtractor
