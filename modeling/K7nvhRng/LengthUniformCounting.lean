import Mathlib.Algebra.BigOperators.Group.Finset.Basic
import Mathlib.Algebra.Order.BigOperators.Group.Finset
import Mathlib.Data.Fintype.BigOperators
import Mathlib.Data.Set.Card

/-!
# Counting inputs by their variable-length outputs

A finite set of inputs is length uniform for a list-valued function when any two
outputs of the same length are hit by the same number of inputs. No probability
is involved: the notion is closed under concatenation of independent outputs,
under splitting the inputs by any key, and under deterministic postprocessing
whose fibres are exchanged by length-preserving involutions.
-/

namespace K7nvhRng.LengthUniformCounting
open Finset

variable {α α' β γ κ : Type*} [DecidableEq β]

/-- The number of inputs in `S` with output `y` depends only on the length of `y`. -/
def LengthUniform (S : Finset α) (f : α → List β) : Prop :=
  ∀ y y' : List β, y.length = y'.length →
    (S.filter (fun x => f x = y)).card = (S.filter (fun x => f x = y')).card

theorem LengthUniform.congr {S : Finset α} {f g : α → List β}
    (h : LengthUniform S f) (hfg : ∀ x ∈ S, f x = g x) : LengthUniform S g := by
  intro y y' hy
  rw [← filter_congr (fun x hx => by rw [hfg x hx] : ∀ x ∈ S, f x = y ↔ g x = y),
    ← filter_congr (fun x hx => by rw [hfg x hx] : ∀ x ∈ S, f x = y' ↔ g x = y')]
  exact h y y' hy

theorem LengthUniform.ncard_eq {S : Finset α} {f : α → List β} (h : LengthUniform S f)
    {A : List β → Set α} (hA : ∀ y x, x ∈ A y ↔ x ∈ S ∧ f x = y) {y y' : List β}
    (hy : y.length = y'.length) : (A y).ncard = (A y').ncard := by
  have hc : ∀ z, A z = ((S.filter (fun x => f x = z) : Finset α) : Set α) := by
    intro z
    ext x
    rw [hA, mem_coe, mem_filter]
  rw [hc y, hc y', Set.ncard_coe_finset, Set.ncard_coe_finset, h y y' hy]

theorem lengthUniform_empty (f : α → List β) : LengthUniform (∅ : Finset α) f := by
  intro y y' _
  simp

theorem lengthUniform_nil (S : Finset α) : LengthUniform S (fun _ => ([] : List β)) := by
  intro y y' hy
  have he : ([] = y) = ([] = y') := by
    cases y <;> cases y' <;> simp_all
  simp only [he]

theorem LengthUniform.of_bijOn {S : Finset α} {T : Finset α'} {g : α' → List β}
    (h : LengthUniform T g) (i : α → α') (j : α' → α)
    (hi : ∀ x ∈ S, i x ∈ T) (hj : ∀ x ∈ T, j x ∈ S)
    (hji : ∀ x ∈ S, j (i x) = x) (hij : ∀ x ∈ T, i (j x) = x) :
    LengthUniform S (fun x => g (i x)) := by
  have hc : ∀ y : List β,
      (S.filter (fun x => g (i x) = y)).card = (T.filter (fun x => g x = y)).card := by
    intro y
    apply card_nbij' i j
    · intro x hx
      rw [mem_coe, mem_filter] at hx ⊢
      exact ⟨hi x hx.1, hx.2⟩
    · intro x hx
      rw [mem_coe, mem_filter] at hx ⊢
      exact ⟨hj x hx.1, by rw [hij x hx.1]; exact hx.2⟩
    · intro x hx
      rw [mem_coe, mem_filter] at hx
      exact hji x hx.1
    · intro x hx
      rw [mem_coe, mem_filter] at hx
      exact hij x hx.1
  intro y y' hy
  rw [hc y, hc y', h y y' hy]

/-- Counting may be done in front of an injective encoding of the inputs. -/
theorem LengthUniform.image [DecidableEq α'] {S : Finset α} {i : α → α'} {g : α' → List β}
    (h : LengthUniform S fun x => g (i x)) (hi : Function.Injective i) :
    LengthUniform (S.image i) g := by
  intro y y' hy
  rw [filter_image, filter_image, card_image_of_injective _ hi, card_image_of_injective _ hi]
  exact h y y' hy

/-- It suffices to count within each fibre of an arbitrary key. -/
theorem LengthUniform.of_fibres [DecidableEq κ] {S : Finset α} {f : α → List β} (key : α → κ)
    (h : ∀ k, LengthUniform (S.filter (fun x => key x = k)) f) : LengthUniform S f := by
  have hc : ∀ y : List β, (S.filter (fun x => f x = y)).card =
      ∑ k ∈ S.image key, ((S.filter (fun x => key x = k)).filter (fun x => f x = y)).card := by
    intro y
    rw [card_eq_sum_card_fiberwise (f := key) (t := S.image key)]
    · refine sum_congr rfl fun k _ => ?_
      rw [filter_filter, filter_filter]
      simp only [and_comm]
    · intro x hx
      rw [mem_coe, mem_filter] at hx
      exact mem_coe.mpr (mem_image_of_mem key hx.1)
  intro y y' hy
  rw [hc y, hc y']
  exact sum_congr rfl fun k _ => h k y y' hy

theorem card_filter_append (S : Finset α) (T : Finset α') (f : α → List β) (g : α' → List β)
    (y : List β) :
    ((S ×ˢ T).filter (fun p => f p.1 ++ g p.2 = y)).card =
      ∑ i ∈ range (y.length + 1), (S.filter (fun a => f a = y.take i)).card *
        (T.filter (fun b => g b = y.drop i)).card := by
  rw [card_eq_sum_card_fiberwise (f := fun p => (f p.1).length) (t := range (y.length + 1))]
  · refine sum_congr rfl fun i hi => ?_
    have hi' : i ≤ y.length := Nat.lt_succ_iff.mp (mem_range.mp hi)
    rw [← card_product]
    congr 1
    ext ⟨a, b⟩
    simp only [mem_filter, mem_product]
    constructor
    · rintro ⟨⟨⟨ha, hb⟩, rfl⟩, rfl⟩
      simp [ha, hb]
    · rintro ⟨⟨ha, hfa⟩, hb, hgb⟩
      refine ⟨⟨⟨ha, hb⟩, ?_⟩, ?_⟩
      · rw [hfa, hgb, List.take_append_drop]
      · rw [hfa, List.length_take, min_eq_left hi']
  · rintro ⟨a, b⟩ hp
    rw [mem_coe, mem_filter] at hp
    simp [← hp.2]

/-- Concatenating the outputs of two independent length uniform sets. -/
theorem LengthUniform.append {S : Finset α} {T : Finset α'} {f : α → List β} {g : α' → List β}
    (hf : LengthUniform S f) (hg : LengthUniform T g) :
    LengthUniform (S ×ˢ T) (fun p => f p.1 ++ g p.2) := by
  intro y y' hy
  rw [card_filter_append, card_filter_append, hy]
  refine sum_congr rfl fun i _ => ?_
  rw [hf (y.take i) (y'.take i) (by simp [hy]), hg (y.drop i) (y'.drop i) (by simp [hy])]

theorem LengthUniform.fst {S : Finset α} {f : α → List β} (hf : LengthUniform S f)
    (T : Finset α') : LengthUniform (S ×ˢ T) (fun p => f p.1) :=
  (hf.append (lengthUniform_nil T)).congr fun _ _ => List.append_nil _

/-- Postprocessing keeps the counts uniform when any two of its values of equal length
are exchanged by a length-preserving involution of its arguments. -/
theorem LengthUniform.postprocess [DecidableEq γ] {S : Finset α} {f : α → List β}
    (hf : LengthUniform S f) (g : List β → List γ)
    (hg : ∀ y y' : List γ, y.length = y'.length → ∃ φ : List β → List β,
      Function.Involutive φ ∧ (∀ s, (φ s).length = s.length) ∧
        (∀ s, g s = y → g (φ s) = y') ∧ ∀ s, g s = y' → g (φ s) = y) :
    LengthUniform S (fun x => g (f x)) := by
  intro y y' hy
  obtain ⟨φ, hφ, hlen, hto, hfrom⟩ := hg y y' hy
  -- A finite set of intermediate outputs that is closed under the involution.
  let T := S.image f ∪ (S.image f).image φ
  have hT : ∀ s ∈ T, φ s ∈ T := by
    intro s hs
    rcases mem_union.mp hs with hs | hs
    · exact mem_union_right _ (mem_image_of_mem φ hs)
    · obtain ⟨t, ht, rfl⟩ := mem_image.mp hs
      rw [hφ t]
      exact mem_union_left _ ht
  have hc : ∀ z : List γ, (S.filter (fun x => g (f x) = z)).card =
      ∑ s ∈ T.filter (fun s => g s = z), (S.filter (fun x => f x = s)).card := by
    intro z
    rw [card_eq_sum_card_fiberwise (f := f) (t := T.filter (fun s => g s = z))]
    · refine sum_congr rfl fun s hs => ?_
      congr 1
      ext x
      simp only [mem_filter]
      constructor
      · rintro ⟨⟨hx, _⟩, hfx⟩
        exact ⟨hx, hfx⟩
      · rintro ⟨hx, rfl⟩
        exact ⟨⟨hx, (mem_filter.mp hs).2⟩, rfl⟩
    · intro x hx
      rw [mem_coe, mem_filter] at hx ⊢
      exact ⟨mem_union_left _ (mem_image_of_mem f hx.1), hx.2⟩
  rw [hc y, hc y']
  refine sum_nbij' φ φ ?_ ?_ (fun s _ => hφ s) (fun s _ => hφ s) ?_
  · intro s hs
    rw [mem_filter] at hs ⊢
    exact ⟨hT s hs.1, hto s hs.2⟩
  · intro s hs
    rw [mem_filter] at hs ⊢
    exact ⟨hT s hs.1, hfrom s hs.2⟩
  · intro s _
    exact hf s (φ s) (hlen s).symm

theorem cons_injective : Function.Injective fun p : α × List α => p.1 :: p.2 := by
  rintro ⟨a, l⟩ ⟨b, m⟩ h
  simpa using h

section Words

variable (β) [Fintype β]

def words : ℕ → Finset (List β)
  | 0 => {[]}
  | n + 1 => (univ ×ˢ words n).image fun p => p.1 :: p.2

variable {β}

@[simp] theorem mem_words {n : ℕ} {l : List β} : l ∈ words β n ↔ l.length = n := by
  induction n generalizing l with
  | zero => simp [words]
  | succ n ih => cases l <;> simp [words, ih]

theorem card_words (n : ℕ) : (words β n).card = Fintype.card β ^ n := by
  induction n with
  | zero => simp [words]
  | succ n ih =>
    rw [words, card_image_of_injective _ cons_injective, card_product, ih, card_univ, pow_succ,
      mul_comm]

theorem lengthUniform_words (n : ℕ) : LengthUniform (words β n) id := by
  intro y y' hy
  have hc : ∀ z : List β, ((words β n).filter (fun x => id x = z)).card =
      if z.length = n then 1 else 0 := by
    intro z
    by_cases hz : z.length = n
    · have : (words β n).filter (fun x => id x = z) = {z} := by
        ext x
        simp only [id, mem_filter, mem_words, mem_singleton]
        exact ⟨And.right, fun h => ⟨h ▸ hz, h⟩⟩
      rw [this, card_singleton, if_pos hz]
    · rw [if_neg hz, card_eq_zero, filter_eq_empty_iff]
      intro x hx hxz
      exact hz (hxz ▸ mem_words.mp hx)
  rw [hc, hc, hy]

/-- One output of length `n` forces the presence of all of them. -/
theorem LengthUniform.card_pow_le {S : Finset α} {f : α → List β} (h : LengthUniform S f)
    {x : α} (hx : x ∈ S) : Fintype.card β ^ (f x).length ≤ S.card := by
  have hpos : ∀ y ∈ words β (f x).length, 1 ≤ (S.filter (fun x => f x = y)).card := by
    intro y hy
    rw [h y (f x) (mem_words.mp hy)]
    exact card_pos.mpr ⟨x, mem_filter.mpr ⟨hx, rfl⟩⟩
  calc Fintype.card β ^ (f x).length
      = ∑ _y ∈ words β (f x).length, 1 := by rw [← card_eq_sum_ones, card_words]
    _ ≤ ∑ y ∈ words β (f x).length, (S.filter (fun x => f x = y)).card := sum_le_sum hpos
    _ = (S.filter (fun a => f a ∈ words β (f x).length)).card :=
        sum_card_fiberwise_eq_card_filter S _ f
    _ ≤ S.card := card_filter_le _ _

end Words

section Sequences

variable [DecidableEq α]

/-- The sequences whose entries are taken from the sets with the given keys, in order. -/
def sequences (T : κ → Finset α) : List κ → Finset (List α)
  | [] => {[]}
  | k :: ks => (T k ×ˢ sequences T ks).image fun p => p.1 :: p.2

theorem mem_sequences {T : κ → Finset α} {ks : List κ} {xs : List α} :
    xs ∈ sequences T ks ↔ List.Forall₂ (fun x k => x ∈ T k) xs ks := by
  induction ks generalizing xs with
  | nil => simp [sequences]
  | cons k ks ih =>
    cases xs with
    | nil => simp [sequences]
    | cons x xs => simp [sequences, ih]

theorem card_sequences (T : κ → Finset α) (ks : List κ) :
    (sequences T ks).card = (ks.map fun k => (T k).card).prod := by
  induction ks with
  | nil => simp [sequences]
  | cons k ks ih =>
    rw [sequences, card_image_of_injective _ cons_injective, card_product, ih, List.map_cons,
      List.prod_cons]

theorem lengthUniform_sequences {T : κ → Finset α} {f : α → List β}
    (h : ∀ k, LengthUniform (T k) f) (ks : List κ) :
    LengthUniform (sequences T ks) fun xs => xs.flatMap f := by
  induction ks with
  | nil =>
    refine (lengthUniform_nil {[]}).congr fun xs hxs => ?_
    rw [mem_singleton.mp hxs, List.flatMap_nil]
  | cons k ks ih => exact ((h k).append ih).image cons_injective

end Sequences

end K7nvhRng.LengthUniformCounting
