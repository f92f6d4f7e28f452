import Mathlib.Data.List.Basic

/-!
# Complete blocks of a list

A list is cut into blocks of a fixed size; what does not fill a last block is the
remainder. Cutting is the only way to write the list as blocks of that size followed
by less than a block, so every fact about it follows from such a decomposition.
-/

namespace K7nvhRng.ListBlocks

variable {α : Type}

def blocks (n : ℕ) (l : List α) : List (List α) :=
  (List.range (l.length / n)).map fun i => (l.drop (n * i)).take n

def remainder (n : ℕ) (l : List α) : List α := l.drop (n * (l.length / n))

@[simp] theorem length_blocks (n : ℕ) (l : List α) : (blocks n l).length = l.length / n := by
  simp [blocks]

theorem length_remainder (n : ℕ) (l : List α) : (remainder n l).length = l.length % n := by
  rw [remainder, List.length_drop, Nat.mod_eq_sub_mul_div]

theorem length_of_mem_blocks {n : ℕ} {l b : List α} (hb : b ∈ blocks n l) : b.length = n := by
  obtain ⟨i, hi, rfl⟩ := List.mem_map.mp hb
  have hi' : i + 1 ≤ l.length / n := List.mem_range.mp hi
  have hle : n * (i + 1) ≤ l.length :=
    Nat.le_trans (Nat.mul_le_mul_left n hi') (Nat.mul_div_le l.length n)
  rw [Nat.mul_succ] at hle
  rw [List.length_take, List.length_drop]
  omega

theorem flatten_blocks (n : ℕ) (l : List α) : (blocks n l).flatten ++ remainder n l = l := by
  have hk : ∀ k, ((List.range k).map fun i => (l.drop (n * i)).take n).flatten =
      l.take (n * k) := by
    intro k
    induction k with
    | zero => simp
    | succ k ih =>
      rw [List.range_succ, List.map_append, List.flatten_append, ih, Nat.mul_succ, List.take_add]
      simp
  rw [blocks, hk, remainder, List.take_append_drop]

theorem flatten_blocks_of_dvd {n : ℕ} {l : List α} (h : n ∣ l.length) :
    (blocks n l).flatten = l := by
  have hrem : remainder n l = [] :=
    List.eq_nil_of_length_eq_zero (by rw [length_remainder, Nat.mod_eq_zero_of_dvd h])
  have hflat := flatten_blocks n l
  rwa [hrem, List.append_nil] at hflat

theorem length_flatten_of_forall {n : ℕ} {bs : List (List α)} (hbs : ∀ b ∈ bs, b.length = n) :
    bs.flatten.length = n * bs.length := by
  induction bs with
  | nil => simp
  | cons b bs ih =>
    rw [List.flatten_cons, List.length_append, ih (fun c hc => hbs c (by simp [hc])),
      hbs b (by simp), List.length_cons, Nat.mul_succ, Nat.add_comm]

private theorem drop_flatten {n : ℕ} {bs : List (List α)} (hbs : ∀ b ∈ bs, b.length = n)
    (r : List α) {i : ℕ} (hi : i ≤ bs.length) :
    (bs.flatten ++ r).drop (n * i) = (bs.drop i).flatten ++ r := by
  induction i generalizing bs with
  | zero => simp
  | succ i ih =>
    cases bs with
    | nil => simp at hi
    | cons b bs =>
      have hb : b.length = n := hbs b (by simp)
      rw [Nat.mul_succ, Nat.add_comm, ← List.drop_drop, List.flatten_cons, List.append_assoc,
        ← hb, List.drop_left, hb, List.drop_succ_cons]
      exact ih (fun c hc => hbs c (by simp [hc])) (by simpa using hi)

/-- A decomposition into blocks and less than a block is the one cut by `blocks`. -/
theorem blocks_unique {n : ℕ} {bs : List (List α)} {r : List α} (hbs : ∀ b ∈ bs, b.length = n)
    (hr : r.length < n) :
    blocks n (bs.flatten ++ r) = bs ∧ remainder n (bs.flatten ++ r) = r := by
  have hlen : (bs.flatten ++ r).length = n * bs.length + r.length := by
    rw [List.length_append, length_flatten_of_forall hbs]
  have hdiv : (bs.flatten ++ r).length / n = bs.length := by
    rw [hlen, Nat.mul_add_div (by omega), Nat.div_eq_of_lt hr, Nat.add_zero]
  constructor
  · apply List.ext_getElem
    · rw [length_blocks, hdiv]
    · intro i h₁ h₂
      have hi : (bs.drop i).flatten = bs[i] ++ (bs.drop (i + 1)).flatten := by
        rw [List.drop_eq_getElem_cons h₂, List.flatten_cons]
      have hb : bs[i].length = n := hbs _ (List.getElem_mem h₂)
      simp only [blocks, List.getElem_map, List.getElem_range]
      rw [drop_flatten hbs r (by omega), hi, List.append_assoc, ← hb, List.take_left]
  · rw [remainder, hdiv, drop_flatten hbs r (Nat.le_refl _)]
    simp

theorem blocks_of_length_eq {n : ℕ} {l : List α} (hn : 0 < n) (hl : l.length = n) :
    blocks n l = [l] := by
  have h := blocks_unique (n := n) (r := ([] : List α)) (List.forall_mem_singleton.mpr hl)
    (by simpa using hn)
  rw [List.flatten_singleton, List.append_nil] at h
  exact h.1

theorem blocks_append_of_lt {n : ℕ} {l : List α} (h : l.length % n + 1 < n) (a : α) :
    blocks n (l ++ [a]) = blocks n l ∧ remainder n (l ++ [a]) = remainder n l ++ [a] := by
  have hl : l ++ [a] = (blocks n l).flatten ++ (remainder n l ++ [a]) := by
    rw [← List.append_assoc, flatten_blocks]
  rw [hl]
  apply blocks_unique (fun b hb => length_of_mem_blocks hb)
  rw [List.length_append, length_remainder, List.length_singleton]
  exact h

theorem blocks_append_of_eq {n : ℕ} {l : List α} (h : l.length % n + 1 = n) (a : α) :
    blocks n (l ++ [a]) = blocks n l ++ [remainder n l ++ [a]] ∧ remainder n (l ++ [a]) = [] := by
  have hl : l ++ [a] = (blocks n l ++ [remainder n l ++ [a]]).flatten ++ [] := by
    rw [List.flatten_append, List.flatten_singleton, List.append_nil, ← List.append_assoc,
      flatten_blocks]
  rw [hl]
  apply blocks_unique
  · intro b hb
    rcases List.mem_append.mp hb with hb | hb
    · exact length_of_mem_blocks hb
    · rw [List.mem_singleton.mp hb, List.length_append, length_remainder, List.length_singleton]
      exact h
  · simp only [List.length_nil]
    omega

theorem blocks_map {β : Type} (n : ℕ) (f : α → β) (l : List α) :
    blocks n (l.map f) = (blocks n l).map (List.map f) := by
  simp [blocks, List.map_take, List.map_drop]

/-- The complete blocks lie within any part that reaches behind the last of them. -/
theorem blocks_take {n m : ℕ} (hn : 0 < n) {l : List α} (hm : n * (l.length / n) ≤ m) :
    blocks n (l.take m) = blocks n l := by
  have hbs : ∀ b ∈ blocks n l, b.length = n := fun b hb => length_of_mem_blocks hb
  have hlen : (blocks n l).flatten.length ≤ m := by
    rwa [length_flatten_of_forall hbs, length_blocks]
  have hr : ((remainder n l).take (m - (blocks n l).flatten.length)).length < n := by
    have := length_remainder n l
    have := Nat.mod_lt l.length hn
    rw [List.length_take]
    omega
  conv_lhs => rw [← flatten_blocks n l]
  rw [List.take_append, List.take_of_length_le hlen, (blocks_unique hbs hr).1]

theorem blocks_flatten {n k : ℕ} {l : List (List α)} (hn : 0 < n) (hk : 0 < k)
    (hl : ∀ c ∈ l, c.length = n) :
    blocks (n * k) l.flatten = (blocks k l).map List.flatten ∧
      remainder (n * k) l.flatten = (remainder k l).flatten := by
  have hsplit : l.flatten = ((blocks k l).map List.flatten).flatten ++ (remainder k l).flatten := by
    conv_lhs => rw [← flatten_blocks k l]
    rw [List.flatten_append, List.flatten_flatten]
  have hmem : ∀ b ∈ blocks k l, ∀ c ∈ b, c.length = n := by
    intro b hb c hc
    apply hl
    rw [← flatten_blocks k l]
    exact List.mem_append_left _ (List.mem_flatten.mpr ⟨b, hb, hc⟩)
  rw [hsplit]
  apply blocks_unique
  · intro b hb
    obtain ⟨b', hb', rfl⟩ := List.mem_map.mp hb
    rw [length_flatten_of_forall (hmem b' hb'), length_of_mem_blocks hb']
  · have hrem : ∀ c ∈ remainder k l, c.length = n := fun c hc => hl c (List.mem_of_mem_drop hc)
    rw [length_flatten_of_forall hrem, length_remainder]
    exact Nat.mul_lt_mul_of_pos_left (Nat.mod_lt _ hk) hn

end K7nvhRng.ListBlocks
