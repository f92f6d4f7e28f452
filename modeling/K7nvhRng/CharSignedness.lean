import K7nvhRng.AmlsExactness

/-!
# `amls` over plain `char`

The marker `-1` is stored in a character and compared as an `int`. Where plain `char`
is unsigned, the stored marker promotes to 255 and no comparison with `-1` succeeds:
every bit counts as the second bit of a pair whose first bit is the marker, `level_a`
gets one entry for each bit, and the recursion on it has the same length again.
-/

namespace K7nvhRng.CharSignedness
open CheckedArrays AmlsArrays AmlsRefinement AmlsExactness PeresExtractor

theorem promote_unsigned_ne (c : Byte) : CharSign.unsigned.promote c ≠ -1 := by
  simp only [CharSign.promote]
  omega

/-- What the pairing loop has left after `n` bits when the marker is never recognised. -/
structure Unpaired (n : ℕ) (s : Locals) : Prop where
  resultPos : s.resultPos = n
  levelA : Front s.levelA (List.replicate n (bitChar true))
  levelAPos : s.levelAPos = n
  bit0 : s.bit0 = endMark

theorem Unpaired.init (heap : ℕ → Block) (mallocs : ℕ) :
    Unpaired 0 (initLocals heap mallocs) where
  resultPos := rfl
  levelA := front_nil _
  levelAPos := rfl
  bit0 := rfl

private theorem pairStep_unsigned {m : ℕ} {data : Vector Byte m} {i n : ℕ} {b : Bool} {s : Locals}
    (hd : fetch data i = .ok (bitChar b)) (hn : n < amlsArrayLen) (hs : Unpaired n s) :
    ∃ s', pairStep .unsigned data i s = .ok (some s') ∧ Unpaired (n + 1) s' := by
  obtain ⟨hresPos, hA, hAPos, h0⟩ := hs
  obtain ⟨A, hstoreA, hA'⟩ := hA.store (by rwa [List.length_replicate]) (bitChar true)
  rw [List.length_replicate, ← hAPos] at hstoreA
  rw [← List.replicate_succ'] at hA'
  have hbit : ¬(CharSign.unsigned.promote (bitChar b) ≠ 0 ∧
      CharSign.unsigned.promote (bitChar b) ≠ 1) := by
    cases b <;> simp
  have hdiff : CharSign.unsigned.promote s.bit0 ≠ CharSign.unsigned.promote (bitChar b) := by
    rw [h0, Ne, promote_inj]
    exact (bitChar_ne_endMark b).symm
  have hstore : store s.levelA s.levelAPos (toChar 1) = .ok A := hstoreA
  refine ⟨{ s with
      levelA := A, levelAPos := s.levelAPos + 1
      result := s.result.set s.resultPos s.bit0 (by omega), resultPos := s.resultPos + 1
      bit0 := toChar (-1) }, ?_, ⟨?_, hA', ?_, rfl⟩⟩
  · rw [pairStep, hd, ok_bind, if_neg hbit, if_neg (promote_unsigned_ne _), if_neg hdiff,
      hstore, ok_bind, store_of_lt s.bit0 (by omega), ok_bind, pure_eq_ok]
  · simp only [hresPos]
  · simp only [hAPos]

theorem pairLoop_unsigned {m : ℕ} {data : Vector Byte m} (n i : ℕ) {s : Locals}
    (hd : ∀ j < i + n, ∃ b, fetch data j = .ok (bitChar b)) (hn : i + n ≤ amlsArrayLen)
    (hs : Unpaired i s) :
    ∃ s', pairLoop .unsigned data n i s = .ok s' ∧ Unpaired (i + n) s' := by
  induction n generalizing i s with
  | zero => exact ⟨s, rfl, hs⟩
  | succ n ih =>
    obtain ⟨b, hb⟩ := hd i (by omega)
    obtain ⟨t, hstep, ht⟩ := pairStep_unsigned hb (by omega) hs
    have hshift : i + 1 + n = i + (n + 1) := by omega
    obtain ⟨s', hloop, hs'⟩ := ih (i + 1) (by rwa [hshift]) (by rwa [hshift]) ht
    rw [hshift] at hs'
    exact ⟨s', by rw [pairLoop, hstep]; exact hloop, hs'⟩

/-- No stack is deep enough: a call on two or more bits calls itself with as many. -/
theorem amls_unsigned (heap : ℕ → Block) (frames : ℕ) {m : ℕ} {data : Vector Byte m}
    {dataLen : ℕ} (mallocs : ℕ) (hd : ∀ j < dataLen, ∃ b, fetch data j = .ok (bitChar b))
    (htwo : 2 ≤ dataLen) (hlen : dataLen ≤ amlsArrayLen) :
    amls .unsigned heap frames data dataLen mallocs = .error .stackOverflow := by
  induction frames generalizing m data mallocs with
  | zero => rfl
  | succ frames ih =>
    obtain ⟨s, hloop, hs⟩ := pairLoop_unsigned dataLen 0 (by rwa [Nat.zero_add])
      (by rwa [Nat.zero_add]) (Unpaired.init heap mallocs)
    rw [Nat.zero_add] at hs
    -- `level_a` again holds `dataLen` bits, so one frame is spent and nothing is gained
    have hones : ∀ j < dataLen, ∃ b, fetch s.levelA j = .ok (bitChar b) := by
      intro j hj
      refine ⟨true, ?_⟩
      rw [fetch, if_pos (by omega)]
      exact hs.levelA.load (by rw [List.getElem?_replicate_of_lt hj])
    simp only [amls, if_neg (show ¬dataLen < 2 by omega), hloop, ok_bind, hs.levelAPos,
      ih (mallocs + 3) hones]
    rfl

private theorem fetch_bitArray {x : List Bool} (hx : x.length ≤ amlsArrayLen) (j : ℕ)
    (hj : j < x.length) : ∃ b, fetch (bitArray x) j = .ok (bitChar b) := by
  refine ⟨x[j], ?_⟩
  rw [fetch_of_lt _ hj (by omega), bitArray]
  simp

theorem amls_bitArray_unsigned (heap : ℕ → Block) (frames mallocs : ℕ) {x : List Bool}
    (htwo : 2 ≤ x.length) (hx : x.length ≤ amlsArrayLen) :
    amls .unsigned heap frames (bitArray x) x.length mallocs = .error .stackOverflow :=
  amls_unsigned heap frames mallocs (fetch_bitArray hx) htwo hx

/-- The call of the daemon's `amls` and every call of the utility's on the same bits return
arrays of equal values, and the two recursive calls have fewer bits. -/
def AgreesWithUtility (sg : CharSign) (heap : ℕ → Block) (mallocs : ℕ) (x : List Bool) : Prop :=
  (∃ result, Returns sg heap (bitArray x) x.length mallocs result ∧
    ∀ heap' mallocs', ∃ result', Returns .signed heap' (bitArray x) x.length mallocs' result' ∧
      result.toList.map sg.promote = result'.toList.map CharSign.signed.promote) ∧
  (2 ≤ x.length → ∃ s, pairLoop sg (bitArray x) x.length 0 (initLocals heap mallocs) = .ok s ∧
    s.levelAPos < x.length ∧ s.level1Pos < x.length)

theorem pairLoop_shorter (heap : ℕ → Block) (mallocs : ℕ) {x : List Bool} (htwo : 2 ≤ x.length)
    (hx : x.length ≤ amlsArrayLen) :
    ∃ s, pairLoop .signed (bitArray x) x.length 0 (initLocals heap mallocs) = .ok s ∧
      s.levelAPos < x.length ∧ s.level1Pos < x.length := by
  obtain ⟨s, hloop, hs⟩ := pairLoop_bitArray heap mallocs hx
  have hXor := length_pairXor x
  have hCommon := (length_parts_le x).2
  refine ⟨s, hloop, ?_, ?_⟩
  · rw [hs.levelAPos]
    omega
  · rw [hs.level1Pos]
    omega

private theorem endMark_mem {x : List Bool} (hx : x.length ≤ amlsArrayLen) {result : Block}
    (h : Filled result ((peres x).map bitChar) endMark) : endMark ∈ result.toList := by
  have hroom := length_peres_lt_amlsArrayLen hx
  have hlist : result.toList = (peres x).map bitChar ++
      List.replicate (amlsArrayLen - (peres x).length) endMark := by
    simpa [Filled, Holds] using h
  rw [hlist, List.mem_append, List.mem_replicate]
  exact .inr ⟨by omega, rfl⟩

/-- The daemon's `amls` agrees with the utility's exactly where plain `char` is signed. Over
unsigned characters no call on two or more bits returns. -/
theorem amls_agrees_iff_signed (sg : CharSign) (heap : ℕ → Block) (mallocs : ℕ) (x : List Bool)
    (hx : x.length ≤ amlsArrayLen) :
    (AgreesWithUtility sg heap mallocs x ↔ sg = .signed) ∧
      (2 ≤ x.length → ∀ frames,
        amls .unsigned heap frames (bitArray x) x.length mallocs = .error .stackOverflow) := by
  obtain ⟨r, hret, hres⟩ := exists_returns hx
  refine ⟨⟨?_, ?_⟩, fun htwo frames => amls_bitArray_unsigned heap frames mallocs htwo hx⟩
  · rintro ⟨⟨result, -, hagree⟩, -⟩
    obtain ⟨r', hret', hvalues⟩ := hagree heap mallocs
    rw [← returns_unique (hret heap mallocs) hret'] at hvalues
    cases sg with
    | signed => rfl
    | unsigned =>
      have hminus : CharSign.signed.promote endMark ∈ r.toList.map CharSign.signed.promote :=
        List.mem_map_of_mem (endMark_mem hx hres)
      rw [← hvalues, promote_endMark] at hminus
      obtain ⟨c, -, hc⟩ := List.mem_map.mp hminus
      exact absurd hc (promote_unsigned_ne c)
  · rintro rfl
    refine ⟨⟨r, hret heap mallocs, fun heap' mallocs' => ⟨r, hret heap' mallocs', rfl⟩⟩, ?_⟩
    exact fun htwo => pairLoop_shorter heap mallocs htwo hx

/-- Two zeros. -/
theorem amls_agrees_iff_signed_zeros :
    AgreesWithUtility .signed (fun _ => Vector.replicate amlsArrayLen 0#8) 0 [false, false] :=
  ((amls_agrees_iff_signed .signed (fun _ => Vector.replicate amlsArrayLen 0#8) 0 [false, false]
    (by decide)).1).mpr rfl

/-- On two zeros the code over unsigned characters never returns. -/
theorem amls_unsigned_zeros :
    ¬AgreesWithUtility .unsigned (fun _ => Vector.replicate amlsArrayLen 0#8) 0 [false, false] ∧
      ∀ frames, amls .unsigned (fun _ => Vector.replicate amlsArrayLen 0#8) frames
        (bitArray [false, false]) 2 0 = .error .stackOverflow := by
  have hover : ∀ frames, amls .unsigned (fun _ => Vector.replicate amlsArrayLen 0#8) frames
      (bitArray [false, false]) 2 0 = .error .stackOverflow := by
    intro frames
    exact amls_bitArray_unsigned (x := [false, false]) _ frames 0 (by decide) (by decide)
  refine ⟨?_, hover⟩
  rintro ⟨⟨result, ⟨depth, hret⟩, -⟩, -⟩
  obtain ⟨mallocs', hamls⟩ := hret depth le_rfl
  exact absurd ((hover depth).symm.trans hamls) (by simp)

end K7nvhRng.CharSignedness
