import Mathlib.Algebra.Ring.Int.Defs
import Mathlib.Data.List.GetD

/-!
# Packing bits into bytes

A stream of bits is cut into groups of eight, and the groups are read as bytes with
the first bit either at the lowest or at the highest place. Bits missing at the end
of the stream are zero.
-/

namespace K7nvhRng.BitPacking

def byteOf (f : ℕ → Bool) : BitVec 8 :=
  BitVec.ofBoolListLE [f 0, f 1, f 2, f 3, f 4, f 5, f 6, f 7]

theorem getLsbD_byteOf (f : ℕ → Bool) {j : ℕ} (hj : j < 8) : (byteOf f).getLsbD j = f j := by
  rw [byteOf, BitVec.getLsbD_ofBoolListLE]
  match j, hj with
  | 0, _ | 1, _ | 2, _ | 3, _ | 4, _ | 5, _ | 6, _ | 7, _ => rfl

/-- Byte `q` of the stream when earlier bits have lower places. -/
def packLsb (s : List Bool) (q : ℕ) : BitVec 8 := byteOf fun j => s.getD (8 * q + j) false

/-- Byte `q` of the stream when earlier bits have higher places. -/
def packMsb (s : List Bool) (q : ℕ) : BitVec 8 := byteOf fun j => s.getD (8 * q + (7 - j)) false

theorem getLsbD_packLsb (s : List Bool) (q : ℕ) {j : ℕ} (hj : j < 8) :
    (packLsb s q).getLsbD j = s.getD (8 * q + j) false := getLsbD_byteOf _ hj

theorem getLsbD_packMsb (s : List Bool) (q : ℕ) {j : ℕ} (hj : j < 8) :
    (packMsb s q).getLsbD j = s.getD (8 * q + (7 - j)) false := getLsbD_byteOf _ hj

/-- The two packings differ by the order of the bits in each byte. -/
theorem reverse_packMsb (s : List Bool) (q : ℕ) : (packMsb s q).reverse = packLsb s q := by
  apply BitVec.eq_of_getLsbD_eq
  intro j hj
  rw [BitVec.getLsbD_reverse, BitVec.getMsbD, getLsbD_packLsb s q hj]
  simp only [hj, decide_true, Bool.true_and]
  rw [getLsbD_packMsb s q (by omega)]
  congr 2
  omega

theorem reverse_xor (a b : BitVec 8) : (a ^^^ b).reverse = a.reverse ^^^ b.reverse := by
  apply BitVec.eq_of_getLsbD_eq
  intro j hj
  rw [BitVec.getLsbD_xor, BitVec.getLsbD_reverse, BitVec.getLsbD_reverse, BitVec.getLsbD_reverse,
    BitVec.getMsbD_xor]

@[simp] theorem packLsb_nil (q : ℕ) : packLsb [] q = 0#8 := by
  apply BitVec.eq_of_getLsbD_eq
  intro j hj
  simp [getLsbD_packLsb _ q hj]

theorem packLsb_append {s : List Bool} {q : ℕ} (hq : 8 * q + 8 ≤ s.length) (t : List Bool) :
    packLsb (s ++ t) q = packLsb s q := by
  apply BitVec.eq_of_getLsbD_eq
  intro j hj
  rw [getLsbD_packLsb _ q hj, getLsbD_packLsb _ q hj, List.getD_append _ _ _ _ (by omega)]

theorem packLsb_drop (s : List Bool) (k q : ℕ) :
    packLsb (s.drop (8 * k)) q = packLsb s (k + q) := by
  apply BitVec.eq_of_getLsbD_eq
  intro j hj
  rw [getLsbD_packLsb _ q hj, getLsbD_packLsb _ (k + q) hj, List.getD_eq_getElem?_getD,
    List.getD_eq_getElem?_getD, List.getElem?_drop,
    show 8 * k + (8 * q + j) = 8 * (k + q) + j by omega]

theorem getD_append_bit (s : List Bool) (b : Bool) (i : ℕ) :
    (s ++ [b]).getD i false = (s.getD i false || (b && decide (i = s.length))) := by
  rcases Nat.lt_trichotomy i s.length with h | h | h
  · rw [List.getD_append _ _ _ _ h, decide_eq_false (by omega), Bool.and_false, Bool.or_false]
  · rw [h, List.getD_append_right _ _ _ _ (Nat.le_refl _), List.getD_eq_default s _ (Nat.le_refl _)]
    simp
  · rw [List.getD_eq_default s _ (by omega), List.getD_eq_default (s ++ [b]) _ (by simp; omega),
      decide_eq_false (by omega), Bool.and_false, Bool.or_false]

private theorem getLsbD_twoPow_eq : ∀ n j : Fin 8, ∀ b : Bool,
    (BitVec.ofInt 8 ((if b then 1 else 0) * 2 ^ n.val)).getLsbD j.val =
      (b && decide (j.val = n.val)) := by
  decide

/-- The byte under construction takes the next bit at its first free place. -/
theorem packLsb_append_bit (s : List Bool) (b : Bool) :
    packLsb (s ++ [b]) (s.length / 8) = packLsb s (s.length / 8) |||
      BitVec.ofInt 8 ((if b then 1 else 0) * 2 ^ (s.length % 8)) := by
  apply BitVec.eq_of_getLsbD_eq
  intro j hj
  have hplace : decide (8 * (s.length / 8) + j = s.length) = decide (j = s.length % 8) :=
    decide_eq_decide.mpr (by omega)
  have hbit := getLsbD_twoPow_eq ⟨s.length % 8, by omega⟩ ⟨j, hj⟩ b
  rw [BitVec.getLsbD_or, getLsbD_packLsb _ _ hj, getLsbD_packLsb _ _ hj, hbit, getD_append_bit,
    hplace]

theorem packLsb_append_bit_of_ne (s : List Bool) (b : Bool) {q : ℕ} (hq : q ≠ s.length / 8) :
    packLsb (s ++ [b]) q = packLsb s q := by
  apply BitVec.eq_of_getLsbD_eq
  intro j hj
  rw [getLsbD_packLsb _ _ hj, getLsbD_packLsb _ _ hj, getD_append_bit, decide_eq_false (by omega),
    Bool.and_false, Bool.or_false]

/-! ### Whole bytes with earlier bits at higher places -/

def bytesMsb (s : List Bool) : List (BitVec 8) := (List.range (s.length / 8)).map (packMsb s)

@[simp] theorem length_bytesMsb (s : List Bool) : (bytesMsb s).length = s.length / 8 := by
  simp [bytesMsb]

theorem packMsb_eq_reverse (s : List Bool) (q : ℕ) : packMsb s q = (packLsb s q).reverse := by
  rw [← reverse_packMsb, BitVec.reverse_reverse_eq]

theorem packMsb_of_length_le {s : List Bool} {q : ℕ} (hq : s.length ≤ 8 * q) :
    packMsb s q = 0#8 := by
  apply BitVec.eq_of_getLsbD_eq
  intro j hj
  rw [getLsbD_packMsb s q hj, List.getD_eq_default s _ (by omega)]
  simp

theorem packMsb_append {s : List Bool} {q : ℕ} (hq : 8 * q + 8 ≤ s.length) (t : List Bool) :
    packMsb (s ++ t) q = packMsb s q := by
  rw [packMsb_eq_reverse, packMsb_eq_reverse, packLsb_append hq]

private theorem getLsbD_shift_eq : ∀ n j : Fin 8, ∀ b : Bool,
    (if b then 1#8 <<< (7 - n.val) else 0#8).getLsbD j.val =
      (b && decide (7 - j.val = n.val)) := by
  decide

theorem packMsb_append_bit (s : List Bool) (b : Bool) :
    packMsb (s ++ [b]) (s.length / 8) = packMsb s (s.length / 8) |||
      (if b then 1#8 <<< (7 - s.length % 8) else 0#8) := by
  apply BitVec.eq_of_getLsbD_eq
  intro j hj
  have hplace : decide (8 * (s.length / 8) + (7 - j) = s.length) =
      decide (7 - j = s.length % 8) := decide_eq_decide.mpr (by omega)
  have hbit := getLsbD_shift_eq ⟨s.length % 8, by omega⟩ ⟨j, hj⟩ b
  rw [BitVec.getLsbD_or, getLsbD_packMsb _ _ hj, getLsbD_packMsb _ _ hj, hbit, getD_append_bit,
    hplace]

theorem bytesMsb_append_of_lt {s : List Bool} (h : s.length % 8 + 1 < 8) (b : Bool) :
    bytesMsb (s ++ [b]) = bytesMsb s := by
  have hdiv : (s ++ [b]).length / 8 = s.length / 8 := by
    rw [List.length_append, List.length_singleton]; omega
  rw [bytesMsb, hdiv, bytesMsb]
  refine List.map_congr_left fun q hq => packMsb_append ?_ [b]
  have := List.mem_range.mp hq
  omega

theorem bytesMsb_append_of_eq {s : List Bool} (h : s.length % 8 + 1 = 8) (b : Bool) :
    bytesMsb (s ++ [b]) = bytesMsb s ++ [packMsb (s ++ [b]) (s.length / 8)] := by
  have hdiv : (s ++ [b]).length / 8 = s.length / 8 + 1 := by
    rw [List.length_append, List.length_singleton]; omega
  rw [bytesMsb, hdiv, List.range_succ, List.map_append, List.map_singleton, bytesMsb]
  congr 1
  refine List.map_congr_left fun q hq => packMsb_append ?_ [b]
  have := List.mem_range.mp hq
  omega

theorem bytesMsb_append_block {t : List Bool} (ht : t.length = 8) (s : List Bool) :
    bytesMsb (t ++ s) = packMsb t 0 :: bytesMsb s := by
  have hdiv : (t ++ s).length / 8 = s.length / 8 + 1 := by
    rw [List.length_append]; omega
  have hrest : ∀ q, packMsb (t ++ s) (q + 1) = packMsb s q := by
    intro q
    have hdrop := packLsb_drop (t ++ s) 1 q
    rw [Nat.mul_one, List.drop_left' ht, Nat.add_comm] at hdrop
    rw [packMsb_eq_reverse, packMsb_eq_reverse, hdrop]
  simp only [bytesMsb, hdiv, List.range_succ_eq_map, List.map_cons, List.map_map,
    Function.comp_def, hrest, packMsb_append (show 8 * 0 + 8 ≤ t.length by omega)]

def msbBits (b : BitVec 8) : List Bool :=
  [b.getLsbD 7, b.getLsbD 6, b.getLsbD 5, b.getLsbD 4, b.getLsbD 3, b.getLsbD 2, b.getLsbD 1,
    b.getLsbD 0]

theorem msbBits_packMsb {t : List Bool} (ht : t.length = 8) : msbBits (packMsb t 0) = t := by
  have hbit : ∀ j < 8, (packMsb t 0).getLsbD j = t.getD (7 - j) false := by
    intro j hj
    rw [getLsbD_packMsb t 0 hj, Nat.mul_zero, Nat.zero_add]
  match t, ht with
  | [_, _, _, _, _, _, _, _], _ =>
    simp only [msbBits, hbit 7 (by decide), hbit 6 (by decide), hbit 5 (by decide),
      hbit 4 (by decide), hbit 3 (by decide), hbit 2 (by decide), hbit 1 (by decide),
      hbit 0 (by decide)]
    rfl

theorem flatMap_msbBits_bytesMsb {s : List Bool} (hs : 8 ∣ s.length) :
    (bytesMsb s).flatMap msbBits = s := by
  obtain ⟨k, hk⟩ := hs
  induction k generalizing s with
  | zero =>
    rw [List.eq_nil_of_length_eq_zero hk]
    rfl
  | succ k ih =>
    have ht : (s.take 8).length = 8 := by rw [List.length_take]; omega
    have hrest : (s.drop 8).length = 8 * k := by rw [List.length_drop]; omega
    rw [← List.take_append_drop 8 s, bytesMsb_append_block ht, List.flatMap_cons,
      msbBits_packMsb ht, ih hrest]

end K7nvhRng.BitPacking
