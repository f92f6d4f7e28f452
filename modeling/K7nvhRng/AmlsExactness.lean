import K7nvhRng.AmlsRefinement

/-!
# `amls` is an exact extractor

Among the inputs of one length and one number of ones, any two results of equal
length are returned equally often. Each input may meet different contents of the
scratch arrays.
-/

namespace K7nvhRng.AmlsExactness
open Finset LengthUniformCounting PeresExtractor CheckedArrays AmlsArrays AmlsRefinement

def bitArray (x : List Bool) : Vector Byte x.length :=
  ⟨(x.map bitChar).toArray, by simp⟩

@[simp] theorem toList_bitArray (x : List Bool) : (bitArray x).toList = x.map bitChar := by
  simp [bitArray, Vector.toList]

/-- `amls(x, n)` returns an array whose entries before the end marker are `y`. -/
def ReturnsBits (sg : CharSign) (heap : ℕ → Block) (mallocs : ℕ) (x y : List Bool) : Prop :=
  ∃ result, Returns sg heap (bitArray x) x.length mallocs result ∧
    returnedChars sg result = y.map bitChar

theorem returnedChars_filled {result : Block} {y : List Bool}
    (h : Filled result (y.map bitChar) endMark) :
    returnedChars .signed result = y.map bitChar := by
  have hl : result.toList = y.map bitChar ++ List.replicate (amlsArrayLen - y.length) endMark := by
    simpa [Filled, Holds] using h
  rw [returnedChars, hl, List.takeWhile_append_of_pos]
  · simp
  · intro c hc
    obtain ⟨b, -, rfl⟩ := List.mem_map.mp hc
    cases b <;> simp

theorem leadingBits_bitArray (x : List Bool) :
    leadingBits ((bitArray x).toList.take x.length) = x := by
  rw [toList_bitArray, ← List.length_map bitChar, List.take_length, leadingBits_map_bitChar]

theorem pairLoop_bitArray (heap : ℕ → Block) (mallocs : ℕ) {x : List Bool}
    (hx : x.length ≤ amlsArrayLen) :
    ∃ s, pairLoop .signed (bitArray x) x.length 0 (initLocals heap mallocs) = .ok s ∧
      Paired x s := by
  obtain ⟨s, hloop, hs⟩ := pairLoop_spec (bitArray x) x.length [] (by simp) (by simpa using hx)
    (Paired.init heap mallocs) rfl
  simp only [List.nil_append, List.length_nil, List.drop_zero, leadingBits_bitArray] at hloop hs
  exact ⟨s, hloop, hs⟩

theorem returns_unique {sg : CharSign} {heap : ℕ → Block} {m : ℕ} {data : Vector Byte m}
    {dataLen mallocs : ℕ} {r r' : Block} (h : Returns sg heap data dataLen mallocs r)
    (h' : Returns sg heap data dataLen mallocs r') : r = r' := by
  obtain ⟨depth, h⟩ := h
  obtain ⟨depth', h'⟩ := h'
  obtain ⟨_, hr⟩ := h (max depth depth') (le_max_left _ _)
  obtain ⟨_, hr'⟩ := h' (max depth depth') (le_max_right _ _)
  rw [hr] at hr'
  exact (Prod.mk.inj (Except.ok.inj hr')).1

/-- What the code returns for bits does not depend on the heap. -/
theorem exists_returns {x : List Bool} (hx : x.length ≤ amlsArrayLen) :
    ∃ result : Block, (∀ heap mallocs, Returns .signed heap (bitArray x) x.length mallocs result) ∧
      Filled result ((peres x).map bitChar) endMark := by
  obtain ⟨result, _, -, hres⟩ := amls_filled (fun _ => Vector.replicate amlsArrayLen 0#8) 0
    (Nat.le_refl 10) (bitArray x) x.length le_rfl hx
  rw [leadingBits_bitArray] at hres
  refine ⟨result, fun heap mallocs => ⟨10, fun frames hframes => ?_⟩, hres⟩
  obtain ⟨result', mallocs', hamls, hres'⟩ :=
    amls_filled heap mallocs hframes (bitArray x) x.length le_rfl hx
  rw [leadingBits_bitArray] at hres'
  have heq : result' = result := Vector.toList_inj.mp (hres'.trans hres.symm)
  exact ⟨mallocs', heq ▸ hamls⟩

/-- For bits, the function computed by the array code is the extractor itself. -/
theorem returnsBits_iff (heap : ℕ → Block) (mallocs : ℕ) {x : List Bool}
    (hx : x.length ≤ amlsArrayLen) (y : List Bool) :
    ReturnsBits .signed heap mallocs x y ↔ peres x = y := by
  obtain ⟨r, hret, hres⟩ := exists_returns hx
  constructor
  · rintro ⟨result, hret', hy⟩
    rw [← returns_unique (hret heap mallocs) hret', returnedChars_filled hres] at hy
    exact bitChar_injective.list_map hy
  · rintro rfl
    exact ⟨r, hret heap mallocs, returnedChars_filled hres⟩

/-- The bits that the array code returns for the bits `x`. The contents of the scratch arrays
are fixed here, since no result depends on them. -/
def amlsBits (x : List Bool) : List Bool :=
  match amls .signed (fun _ => Vector.replicate amlsArrayLen 0#8) 10 (bitArray x) x.length 0 with
  | .ok (result, _) => leadingBits (returnedChars .signed result)
  | .error _ => []

theorem amlsBits_eq_peres {x : List Bool} (hx : x.length ≤ amlsArrayLen) :
    amlsBits x = peres x := by
  obtain ⟨result, mallocs', hamls, hres⟩ := amls_filled
    (fun _ => Vector.replicate amlsArrayLen 0#8) 0 (Nat.le_refl 10) (bitArray x) x.length le_rfl hx
  rw [leadingBits_bitArray] at hres
  rw [amlsBits]
  simp only [hamls, returnedChars_filled hres, leadingBits_map_bitChar]

/-- The number of inputs of length `n` with `k` ones for which `amls` returns exactly `y`
depends on `y` only through its length. -/
theorem amls_exact (heap : List Bool → ℕ → Block) (mallocs : List Bool → ℕ) (n k : ℕ)
    (hn : n ≤ amlsArrayLen) (y y' : List Bool) (hy : y.length = y'.length) :
    {x : List Bool | x.length = n ∧ x.count true = k ∧
        ReturnsBits .signed (heap x) (mallocs x) x y}.ncard =
      {x : List Bool | x.length = n ∧ x.count true = k ∧
        ReturnsBits .signed (heap x) (mallocs x) x y'}.ncard := by
  refine (lengthUniform_peres n k).ncard_eq (A := fun y => {x : List Bool | x.length = n ∧
    x.count true = k ∧ ReturnsBits .signed (heap x) (mallocs x) x y}) ?_ hy
  intro y x
  simp only [Set.mem_ofPred_eq, mem_weightWords, and_assoc]
  refine and_congr_right fun hlen => and_congr_right fun _ => ?_
  exact returnsBits_iff _ _ (hlen ▸ hn) y

/-- Four bits of which two are ones give the output `0` as often as the output `1`. -/
theorem amls_exact_four :
    {x : List Bool | x.length = 4 ∧ x.count true = 2 ∧
        ReturnsBits .signed (fun _ => Vector.replicate amlsArrayLen 0#8) 0 x [false]}.ncard =
      {x : List Bool | x.length = 4 ∧ x.count true = 2 ∧
        ReturnsBits .signed (fun _ => Vector.replicate amlsArrayLen 0#8) 0 x [true]}.ncard :=
  amls_exact (fun _ _ => Vector.replicate amlsArrayLen 0#8) (fun _ => 0) 4 2 (by decide)
    [false] [true] rfl

end K7nvhRng.AmlsExactness
