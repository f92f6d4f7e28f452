import K7nvhRng.AmlsExactness

/-!
# One pass of the pairing loop loses no information

The loop is followed over the entries of its data, so that inputs one longer than the
arrays are covered as well. On data that fits it is the loop of `amls`.
-/

namespace K7nvhRng.PairingBijection
open CheckedArrays AmlsArrays AmlsRefinement AmlsExactness PeresExtractor

def pairEntry (sg : CharSign) (d : Byte) (s : Locals) : Except Fault (Option Locals) :=
  pairStep sg #v[d] 0 s

/-- The pairing loop over the entries of data of any length. -/
def pairEntries (sg : CharSign) : List Byte → Locals → Except Fault Locals
  | [], s => .ok s
  | d :: ds, s => do
    match ← pairEntry sg d s with
    | none => return s
    | some s' => pairEntries sg ds s'

theorem fetch_entry (d : Byte) : fetch #v[d] 0 = .ok d := rfl

private theorem pairStep_eq_pairEntry (sg : CharSign) {m : ℕ} (data : Vector Byte m) {i : ℕ}
    (hm : i < m) (hi : i < amlsArrayLen) (s : Locals) :
    pairStep sg data i s = pairEntry sg data[i] s := by
  rw [pairEntry, pairStep, pairStep, fetch_of_lt data hm hi, fetch_entry]

theorem pairLoop_eq_pairEntries (sg : CharSign) {m : ℕ} (data : Vector Byte m) (n i : ℕ)
    (hm : i + n ≤ m) (hn : i + n ≤ amlsArrayLen) (s : Locals) :
    pairLoop sg data n i s = pairEntries sg ((data.toList.drop i).take n) s := by
  induction n generalizing i s with
  | zero => rw [List.take_zero]; rfl
  | succ n ih =>
    have hi : i < m := by omega
    rw [List.drop_eq_getElem_cons (by simpa using hi), List.take_succ_cons,
      Vector.getElem_toList, pairLoop, pairEntries,
      pairStep_eq_pairEntry sg data hi (by omega) s]
    congr 1
    funext o
    cases o with
    | none => rfl
    | some s' => exact ih (i + 1) (by omega) (by omega) s'

private theorem pairLoop_bitArray_eq (sg : CharSign) {x : List Bool} (hx : x.length ≤ amlsArrayLen)
    (s : Locals) :
    pairLoop sg (bitArray x) x.length 0 s = pairEntries sg (x.map bitChar) s := by
  rw [pairLoop_eq_pairEntries sg _ _ _ (Nat.zero_add _).le (by omega), List.drop_zero,
    toList_bitArray, ← List.length_map bitChar, List.take_length]

private theorem pairEntries_bits (x y : List Bool) {s : Locals}
    (hlen : x.length + y.length ≤ amlsArrayLen + 1) (hs : Paired x s)
    (h0 : s.bit0 = pendingBit x) :
    ∃ s', pairEntries .signed (y.map bitChar) s = .ok s' ∧ Paired (x ++ y) s' := by
  induction y generalizing x s with
  | nil => exact ⟨s, rfl, by rwa [List.append_nil]⟩
  | cons b y ih =>
    rw [List.length_cons] at hlen
    obtain ⟨t, hstep, ht, h0'⟩ := pairStep_bit (fetch_entry (bitChar b)) (by omega) hs h0
    obtain ⟨s', hrun, hs'⟩ := ih (x ++ [b]) (by rw [List.length_append]; simp; omega) ht h0'
    refine ⟨s', ?_, by simpa using hs'⟩
    rw [List.map_cons, pairEntries, pairEntry, hstep]
    exact hrun

/-- What one pass over the bits `x` leaves: the entries written to `level_a`, those written
to `level_1`, and the first `result_pos` entries of `result`. -/
def leftByPass (heap : ℕ → Block) (mallocs : ℕ) (x : List Bool) :
    Except Fault (List Byte × List Byte × List Byte) := do
  let s ← pairEntries .signed (x.map bitChar) (initLocals heap mallocs)
  return (s.levelA.toList.take s.levelAPos, s.level1.toList.take s.level1Pos,
    s.result.toList.take s.resultPos)

def tripleChars (t : List Bool × List Bool × List Bool) : List Byte × List Byte × List Byte :=
  (t.1.map bitChar, t.2.1.map bitChar, t.2.2.map bitChar)

theorem tripleChars_injective : Function.Injective tripleChars := by
  rintro ⟨u, v, z⟩ ⟨u', v', z'⟩ h
  obtain ⟨hu, hv, hz⟩ : u.map bitChar = u'.map bitChar ∧ v.map bitChar = v'.map bitChar ∧
      z.map bitChar = z'.map bitChar := by
    simpa [tripleChars] using h
  rw [bitChar_injective.list_map hu, bitChar_injective.list_map hv,
    bitChar_injective.list_map hz]

theorem leftByPass_eq (heap : ℕ → Block) (mallocs : ℕ) {x : List Bool}
    (hx : x.length ≤ amlsArrayLen + 1) :
    leftByPass heap mallocs x = .ok (tripleChars (pairXor x, pairCommon x, vonNeumann x)) := by
  obtain ⟨s, hrun, hs⟩ := pairEntries_bits [] x (by simpa using hx) (Paired.init heap mallocs) rfl
  rw [List.nil_append] at hs
  rw [leftByPass, hrun, ok_bind, hs.take_levelA, hs.take_level1, hs.take_result]
  rfl

/-- One pass maps the bit strings of `p` pairs one to one onto the triples of matching
lengths. The number of ones is kept, and a last bit without a partner is not seen. On bits
that fit in the arrays the pass is the pairing loop of `amls`. -/
theorem pairing_bijective (heap : List Bool → ℕ → Block) (mallocs : List Bool → ℕ) (p : ℕ)
    (hp : p ≤ 256) :
    Set.BijOn (fun x => leftByPass (heap x) (mallocs x) x) {x | x.length = 2 * p}
      ((fun t => .ok (tripleChars t)) '' {t | t.1.length = p ∧
        t.2.1.length = t.1.count false ∧ t.2.2.length = t.1.count true}) ∧
    (∀ x u v z, x.length = 2 * p →
      leftByPass (heap x) (mallocs x) x = .ok (tripleChars (u, v, z)) →
      x.count true = u.count true + 2 * v.count true) ∧
    (∀ x c, x.length = 2 * p →
      leftByPass (heap (x ++ [c])) (mallocs (x ++ [c])) (x ++ [c]) =
        leftByPass (heap x) (mallocs x) x) ∧
    ∀ x s, x.length ≤ amlsArrayLen →
      pairLoop .signed (bitArray x) x.length 0 s = pairEntries .signed (x.map bitChar) s := by
  have hleft : ∀ x : List Bool, x.length ≤ 2 * p + 1 →
      leftByPass (heap x) (mallocs x) x =
        .ok (tripleChars (pairXor x, pairCommon x, vonNeumann x)) := by
    intro x hx
    exact leftByPass_eq _ _ (by rw [amlsArrayLen]; omega)
  refine ⟨?_, ?_, ?_, fun x s hx => pairLoop_bitArray_eq .signed hx s⟩
  · have hinj : Function.Injective
        (fun t => (.ok (tripleChars t) : Except Fault (List Byte × List Byte × List Byte))) := by
      intro t t' h
      exact tripleChars_injective (Except.ok.inj h)
    refine (hinj.injOn.bijOn_image.comp (bijOn_parts p)).congr ?_
    intro x (hx : x.length = 2 * p)
    exact (hleft x (by omega)).symm
  · intro x u v z hx h
    rw [hleft x (by omega)] at h
    obtain ⟨rfl, rfl, rfl⟩ : pairXor x = u ∧ pairCommon x = v ∧ vonNeumann x = z := by
      simpa using tripleChars_injective (Except.ok.inj h)
    exact count_true_parts (by omega)
  · intro x c hx
    obtain ⟨h₁, h₂, h₃⟩ := parts_append_singleton (x := x) (by omega) c
    rw [hleft (x ++ [c]) (by simp [hx]), hleft x (by omega), h₁, h₂, h₃]

/-- Three bits of which the last one has no partner. -/
theorem pairing_bijective_one :
    leftByPass (fun _ => Vector.replicate amlsArrayLen 0#8) 0 [true, false, true] =
      leftByPass (fun _ => Vector.replicate amlsArrayLen 0#8) 0 [true, false] :=
  (pairing_bijective (fun _ _ => Vector.replicate amlsArrayLen 0#8) (fun _ => 0) 1
    (by decide)).2.2.1 [true, false] true rfl

end K7nvhRng.PairingBijection
