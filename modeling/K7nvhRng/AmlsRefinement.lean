import K7nvhRng.AmlsArrays
import K7nvhRng.PeresExtractor

/-!
# `amls` computes the iterated von Neumann extractor

With signed characters, the array code returns the extraction of the leading bits
of its input, followed by end markers, for every input and whatever `malloc` left in
its scratch arrays. The pairing loop is followed bit by bit: the cursors and the
front parts of the arrays are functions of the bits read so far.
-/

namespace K7nvhRng.AmlsRefinement
open CheckedArrays AmlsArrays PeresExtractor

def bitChar (b : Bool) : Byte := if b then 1#8 else 0#8

/-- The character that marks a missing bit and the end of the data. -/
def endMark : Byte := toChar (-1)

/-- The longest initial part made of zeros and ones, as bits. -/
def leadingBits (l : List Byte) : List Bool :=
  (l.takeWhile fun c => c = 0#8 ∨ c = 1#8).map fun c => c = 1#8

theorem promote_inj (sg : CharSign) {a b : Byte} : sg.promote a = sg.promote b ↔ a = b := by
  cases sg with
  | signed => exact BitVec.toInt_inj
  | unsigned => simp [CharSign.promote, BitVec.toNat_inj]

@[simp] theorem promote_bitChar (sg : CharSign) (b : Bool) :
    sg.promote (bitChar b) = if b then 1 else 0 := by
  cases sg <;> cases b <;> rfl

@[simp] theorem promote_endMark : CharSign.signed.promote endMark = -1 := rfl

theorem bitChar_injective : Function.Injective bitChar := by
  intro a b h
  cases a <;> cases b <;> simp_all [bitChar]

private theorem promote_eq_zero_iff (sg : CharSign) (c : Byte) : sg.promote c = 0 ↔ c = 0#8 := by
  rw [← promote_inj sg (a := c) (b := 0#8)]
  cases sg <;> rfl

private theorem promote_eq_one_iff (sg : CharSign) (c : Byte) : sg.promote c = 1 ↔ c = 1#8 := by
  rw [← promote_inj sg (a := c) (b := 1#8)]
  cases sg <;> rfl

@[simp] theorem leadingBits_cons (b : Bool) (l : List Byte) :
    leadingBits (bitChar b :: l) = b :: leadingBits l := by
  cases b <;> simp [leadingBits, bitChar]

/-- What the pairing loop has left in the arrays after reading the bits `x`. -/
structure Paired (x : List Bool) (s : Locals) : Prop where
  result : Filled s.result ((vonNeumann x).map bitChar) endMark
  resultPos : s.resultPos = (vonNeumann x).length
  level1 : Front s.level1 ((pairCommon x).map bitChar)
  level1Pos : s.level1Pos = (pairCommon x).length
  levelA : Front s.levelA ((pairXor x).map bitChar)
  levelAPos : s.levelAPos = (pairXor x).length

def pendingBit (x : List Bool) : Byte :=
  if 2 ∣ x.length then endMark else bitChar (x.getLastD false)

theorem Paired.init (heap : ℕ → Block) (mallocs : ℕ) :
    Paired [] (initLocals heap mallocs) where
  result := by
    have h : memset (memset (memset (heap mallocs) (-1)) (-1)) (-1) =
        Vector.replicate amlsArrayLen endMark := by
      ext i hi
      simp [memset, endMark]
    rw [initLocals, h]
    exact filled_replicate endMark
  resultPos := rfl
  level1 := front_nil _
  level1Pos := rfl
  levelA := front_nil _
  levelAPos := rfl

theorem Paired.take_levelA {x : List Bool} {s : Locals} (h : Paired x s) :
    s.levelA.toList.take s.levelAPos = (pairXor x).map bitChar := by
  have htake := h.levelA.take
  rwa [List.length_map, ← h.levelAPos] at htake

theorem Paired.take_result {x : List Bool} {s : Locals} (h : Paired x s) :
    s.result.toList.take s.resultPos = (vonNeumann x).map bitChar := by
  have htake := Front.take ⟨_, h.result⟩
  rwa [List.length_map, ← h.resultPos] at htake

theorem Paired.take_level1 {x : List Bool} {s : Locals} (h : Paired x s) :
    s.level1.toList.take s.level1Pos = (pairCommon x).map bitChar := by
  have htake := h.level1.take
  rwa [List.length_map, ← h.level1Pos] at htake

theorem length_parts_le (x : List Bool) :
    (vonNeumann x).length ≤ x.length / 2 ∧ (pairCommon x).length ≤ x.length / 2 := by
  have h := List.count_true_add_count_false (pairXor x)
  rw [length_pairXor] at h
  rw [length_vonNeumann, length_pairCommon]
  omega

private theorem pairStep_first {m : ℕ} {data : Vector Byte m} {i : ℕ} {x : List Bool} {b : Bool}
    {s : Locals} (hd : fetch data i = .ok (bitChar b)) (hx : 2 ∣ x.length) (hs : Paired x s)
    (h0 : s.bit0 = endMark) :
    pairStep .signed data i s = .ok (some { s with bit0 := bitChar b }) ∧
      Paired (x ++ [b]) { s with bit0 := bitChar b } := by
  obtain ⟨h₁, h₂, h₃⟩ := parts_append_singleton hx b
  refine ⟨?_, ⟨?_, ?_, ?_, ?_, ?_, ?_⟩⟩
  · cases b <;> simp [pairStep, hd, h0]
  all_goals simp only [h₁, h₂, h₃]
  · exact hs.result
  · exact hs.resultPos
  · exact hs.level1
  · exact hs.level1Pos
  · exact hs.levelA
  · exact hs.levelAPos

private theorem pairStep_second {m : ℕ} {data : Vector Byte m} {i : ℕ} {x : List Bool}
    {a b : Bool} {s : Locals} (hd : fetch data i = .ok (bitChar b)) (hx : 2 ∣ x.length)
    (hlen : x.length < amlsArrayLen) (hs : Paired (x ++ [a]) s) (h0 : s.bit0 = bitChar a) :
    ∃ s', pairStep .signed data i s = .ok (some s') ∧ Paired (x ++ [a, b]) s' ∧
      s'.bit0 = endMark := by
  obtain ⟨k₁, k₂, k₃⟩ := parts_append_singleton hx a
  obtain ⟨l₁, l₂, l₃⟩ := parts_append hx [a, b]
  obtain ⟨m₁, m₂⟩ := length_parts_le x
  have m₃ := length_pairXor x
  obtain ⟨hres, hresPos, hcom, hcomPos, hxor, hxorPos⟩ := hs
  rw [k₁] at hxor hxorPos
  rw [k₂] at hcom hcomPos
  rw [k₃] at hres hresPos
  obtain ⟨A, hA, hxor'⟩ := hxor.store (by rw [List.length_map]; omega) (bitChar (a ^^ b))
  rw [List.length_map, ← hxorPos] at hA
  by_cases hab : a = b
  · subst hab
    obtain ⟨L, hL, hcom'⟩ := hcom.store (by rw [List.length_map]; omega) (bitChar a)
    rw [List.length_map, ← hcomPos, ← h0] at hL
    have hA0 : store s.levelA s.levelAPos (toChar 0) = .ok A := by
      rw [← hA, Bool.xor_self]; rfl
    let s' : Locals := { s with
      levelA := A, levelAPos := s.levelAPos + 1
      level1 := L, level1Pos := s.level1Pos + 1
      bit0 := toChar (-1) }
    refine ⟨s', ?_, ⟨?_, ?_, ?_, ?_, ?_, ?_⟩, rfl⟩
    · rw [pairStep, hd]
      cases a <;> simp [h0, hA0] <;> simp [← h0, hL, s']
    all_goals simp only [l₁, l₂, l₃, pairXor, pairCommon, vonNeumann, s', if_true,
      List.append_nil, List.map_append, List.map_cons, List.map_nil, List.length_append,
      List.length_singleton]
    · exact hres
    · exact hresPos
    · exact hcom'
    · rw [hcomPos]
    · exact hxor'
    · rw [hxorPos]
  · obtain rfl : b = !a := by cases a <;> cases b <;> simp_all
    obtain ⟨R, hR, hres'⟩ := hres.store (by rw [List.length_map]; omega) (bitChar a)
    rw [List.length_map, ← hresPos, ← h0] at hR
    have hA1 : store s.levelA s.levelAPos (toChar 1) = .ok A := by
      rw [← hA, Bool.xor_not_self]; rfl
    let s' : Locals := { s with
      levelA := A, levelAPos := s.levelAPos + 1
      result := R, resultPos := s.resultPos + 1
      bit0 := toChar (-1) }
    refine ⟨s', ?_, ⟨?_, ?_, ?_, ?_, ?_, ?_⟩, rfl⟩
    · rw [pairStep, hd]
      cases a <;> simp [h0, hA1] <;> simp [← h0, hR, s']
    all_goals simp only [l₁, l₂, l₃, pairXor, pairCommon, vonNeumann, s', if_neg hab,
      List.append_nil, List.map_append, List.map_cons, List.map_nil, List.length_append,
      List.length_singleton]
    · exact hres'
    · rw [hresPos]
    · exact hcom
    · exact hcomPos
    · exact hxor'
    · rw [hxorPos]

theorem pairStep_bit {m : ℕ} {data : Vector Byte m} {i : ℕ} {x : List Bool} {b : Bool}
    {s : Locals} (hd : fetch data i = .ok (bitChar b)) (hlen : x.length ≤ amlsArrayLen)
    (hs : Paired x s) (h0 : s.bit0 = pendingBit x) :
    ∃ s', pairStep .signed data i s = .ok (some s') ∧ Paired (x ++ [b]) s' ∧
      s'.bit0 = pendingBit (x ++ [b]) := by
  by_cases hx : 2 ∣ x.length
  · have hodd : ¬2 ∣ (x ++ [b]).length := by
      simp only [List.length_append, List.length_singleton]; omega
    rw [pendingBit, if_pos hx] at h0
    obtain ⟨hstep, hs'⟩ := pairStep_first hd hx hs h0
    exact ⟨_, hstep, hs', by rw [pendingBit, if_neg hodd, List.getLastD_concat]⟩
  · rw [pendingBit, if_neg hx] at h0
    obtain rfl | ⟨x', a, rfl⟩ := List.eq_nil_or_concat' x
    · simp at hx
    · simp only [List.length_append, List.length_singleton] at hx hlen
      rw [List.getLastD_concat] at h0
      obtain ⟨s', hstep, hs', h0'⟩ := pairStep_second hd (by omega) (by omega) hs h0
      refine ⟨s', hstep, by simpa using hs', ?_⟩
      have heven : 2 ∣ (x' ++ [a] ++ [b]).length := by
        simp only [List.length_append, List.length_singleton]; omega
      rw [h0', pendingBit, if_pos heven]

theorem fetch_of_lt {m : ℕ} (data : Vector Byte m) {i : ℕ} (hm : i < m) (hi : i < amlsArrayLen) :
    fetch data i = .ok data[i] := by
  rw [fetch, if_pos hi, load, dif_pos hm]

/-- The pairing loop stops at the end of the data or at the first character that is no bit. -/
theorem pairLoop_spec {m : ℕ} (data : Vector Byte m) (n : ℕ) (x : List Bool) {s : Locals}
    (hm : x.length + n ≤ m) (hn : x.length + n ≤ amlsArrayLen) (hs : Paired x s)
    (h0 : s.bit0 = pendingBit x) :
    ∃ s', pairLoop .signed data n x.length s = .ok s' ∧
      Paired (x ++ leadingBits ((data.toList.drop x.length).take n)) s' := by
  induction n generalizing x s with
  | zero => exact ⟨s, rfl, by simpa [leadingBits] using hs⟩
  | succ n ih =>
    have hi : x.length < m := by omega
    have hd := fetch_of_lt data hi (by omega)
    have hdrop : data.toList.drop x.length = data[x.length] :: data.toList.drop (x.length + 1) := by
      rw [List.drop_eq_getElem_cons (by simpa using hi), Vector.getElem_toList]
    rw [hdrop, List.take_succ_cons]
    by_cases hc : data[x.length] = 0#8 ∨ data[x.length] = 1#8
    · obtain ⟨b, hb⟩ : ∃ b, data[x.length] = bitChar b :=
        hc.elim (fun h => ⟨false, h⟩) (fun h => ⟨true, h⟩)
      rw [hb] at hd
      obtain ⟨s', hstep, hs', h0'⟩ := pairStep_bit hd (by omega) hs h0
      have hlen : (x ++ [b]).length = x.length + 1 := by simp
      obtain ⟨t, ht, ht'⟩ := ih (x ++ [b]) (by omega) (by omega) hs' h0'
      rw [hlen] at ht ht'
      refine ⟨t, by rw [pairLoop, hstep]; exact ht, ?_⟩
      rw [hb, leadingBits_cons]
      simpa using ht'
    · have hstep : pairStep .signed data x.length s = .ok none := by
        rw [not_or] at hc
        simp [pairStep, hd, promote_eq_zero_iff, promote_eq_one_iff, hc]
      refine ⟨s, by rw [pairLoop, hstep]; rfl, ?_⟩
      simpa [leadingBits, hc] using hs

/-- Copying a recursive result behind the bits already present. The loop variable stands
behind the entries `done`, and `rest` is still to be copied. -/
theorem appendLoop_spec {src result : Block} (done rest : List Byte) {r : List Byte} {n : ℕ}
    (hsrc : Filled src (done ++ rest) endMark) (hn : done.length + n = amlsArrayLen)
    (hrest : ∀ c ∈ rest, c ≠ endMark) (hres : Filled result r endMark)
    (hroom : r.length + rest.length ≤ amlsArrayLen) :
    ∃ result', appendLoop .signed src n done.length result r.length =
        .ok (result', r.length + rest.length) ∧ Filled result' (r ++ rest) endMark := by
  induction rest generalizing done r n result with
  | nil =>
    cases n with
    | zero => exact ⟨result, rfl, by simpa using hres⟩
    | succ n =>
      rw [List.append_nil] at hsrc
      have hmark := hsrc.load_end (by omega)
      exact ⟨result, by simp [appendLoop, hmark], by simpa using hres⟩
  | cons c rest ih =>
    have hlen := hsrc.length
    simp only [List.length_append, List.length_cons] at hlen hroom
    cases n with
    | zero => omega
    | succ n =>
      have hsplit : done ++ c :: rest = done ++ [c] ++ rest := by simp
      have hnext := hsrc.load_next
      obtain ⟨result₁, hstore, hres₁⟩ := hres.store (by omega) c
      have hc : ¬CharSign.signed.promote c = -1 := by
        rw [← promote_endMark, promote_inj]
        exact hrest c (by simp)
      have hd : (done ++ [c]).length = done.length + 1 := by simp
      have hr : (r ++ [c]).length = r.length + 1 := by simp
      rw [hsplit] at hsrc
      obtain ⟨result', hloop, hres'⟩ := ih (done ++ [c]) hsrc
        (show (done ++ [c]).length + n = amlsArrayLen by omega)
        (fun d hd => hrest d (by simp [hd])) hres₁ (by omega)
      rw [hd, hr] at hloop
      refine ⟨result', ?_, by simpa using hres'⟩
      rw [appendLoop, hnext, ok_bind, if_neg hc, hstore, ok_bind, hloop, List.length_cons]
      congr 2
      omega

theorem bitChar_ne_endMark (b : Bool) : bitChar b ≠ endMark := by
  cases b <;> decide

@[simp] theorem leadingBits_map_bitChar (x : List Bool) : leadingBits (x.map bitChar) = x := by
  induction x with
  | nil => rfl
  | cons b x ih => rw [List.map_cons, leadingBits_cons, ih]

theorem length_leadingBits_le (l : List Byte) : (leadingBits l).length ≤ l.length := by
  rw [leadingBits, List.length_map]
  exact (List.takeWhile_sublist _).length_le

theorem length_peres_le (x : List Bool) : (peres x).length ≤ x.length := by
  by_cases hx : x = []
  · simp [hx, peres_of_length_lt_two]
  · exact (length_peres_lt x hx).le

/-- Every call whose depth is covered by the stack returns the extraction of the leading
bits of its data, then end markers. Each level of the recursion halves the length. -/
theorem amls_spec (heap : ℕ → Block) {frames : ℕ} {m : ℕ} (data : Vector Byte m)
    (dataLen mallocs : ℕ) (hframes : 0 < frames) (hpow : dataLen < 2 ^ frames)
    (hm : dataLen ≤ m) (hlen : dataLen ≤ amlsArrayLen) :
    ∃ result mallocs', amls .signed heap frames data dataLen mallocs = .ok (result, mallocs') ∧
      Filled result ((peres (leadingBits (data.toList.take dataLen))).map bitChar) endMark := by
  induction frames generalizing m dataLen mallocs with
  | zero => omega
  | succ frames ih =>
    by_cases hshort : dataLen < 2
    · refine ⟨(initLocals heap mallocs).result, mallocs + 3, by simp [amls, hshort], ?_⟩
      have hbits := length_leadingBits_le (data.toList.take dataLen)
      rw [List.length_take] at hbits
      rw [peres_of_length_lt_two (by omega)]
      exact (Paired.init heap mallocs).result
    set x := leadingBits (data.toList.take dataLen) with hxdef
    have hxlen : x.length ≤ dataLen := by
      have hbits := length_leadingBits_le (data.toList.take dataLen)
      rw [← hxdef, List.length_take] at hbits
      omega
    obtain ⟨s, hloop, hs⟩ := pairLoop_spec data dataLen [] (by simpa using hm)
      (by simpa using hlen) (Paired.init heap mallocs) rfl
    simp only [List.nil_append, List.length_nil, List.drop_zero, ← hxdef] at hloop hs
    have hframes' : 0 < frames := by
      by_contra h
      obtain rfl : frames = 0 := by omega
      simp only [Nat.zero_add, Nat.pow_one] at hpow
      omega
    obtain ⟨hvon, hcom⟩ := length_parts_le x
    have hxor := length_pairXor x
    rw [Nat.pow_succ] at hpow
    obtain ⟨levelAResult, mallocs₁, hA, hA'⟩ := ih s.levelA s.levelAPos (mallocs + 3)
      hframes' (by rw [hs.levelAPos]; omega)
      (by rw [hs.levelAPos]; omega) (by rw [hs.levelAPos]; omega)
    obtain ⟨level1Result, mallocs₂, h1, h1'⟩ := ih s.level1 s.level1Pos mallocs₁
      hframes' (by rw [hs.level1Pos]; omega)
      (by rw [hs.level1Pos]; omega) (by rw [hs.level1Pos]; omega)
    rw [hs.take_levelA, leadingBits_map_bitChar] at hA'
    rw [hs.take_level1, leadingBits_map_bitChar] at h1'
    have htotal : (peres x).length ≤ amlsArrayLen := (length_peres_le x).trans (hxlen.trans hlen)
    rw [peres_eq, List.length_append, List.length_append] at htotal
    have hmarks : ∀ y : List Bool, ∀ c ∈ y.map bitChar, c ≠ endMark := by
      intro y c hc
      obtain ⟨b, -, rfl⟩ := List.mem_map.mp hc
      exact bitChar_ne_endMark b
    obtain ⟨result₁, happA, hres₁⟩ := appendLoop_spec [] _ hA' (Nat.zero_add _)
      (hmarks _) hs.result (by simp only [List.length_map]; omega)
    obtain ⟨result₂, happ1, hres₂⟩ := appendLoop_spec [] _ h1' (Nat.zero_add _)
      (hmarks _) hres₁ (by simp only [List.length_append, List.length_map]; omega)
    refine ⟨result₂, mallocs₂, ?_, ?_⟩
    · simp only [List.length_nil, List.length_append, List.length_map] at happA happ1
      rw [← hs.resultPos] at happA happ1
      simp only [amls, if_neg hshort, hloop, ok_bind, hA, h1, happA, happ1, pure_eq_ok]
    · rw [peres_eq, List.map_append, List.map_append]
      exact hres₂

/-- A stack that is too small for the halvings of the length overflows. -/
theorem amls_shallow (heap : ℕ → Block) (frames : ℕ) {m : ℕ} (data : Vector Byte m)
    {x : List Bool} (mallocs : ℕ) (hdata : data.toList.take x.length = x.map bitChar)
    (hpow : 2 ^ frames ≤ x.length) (hm : x.length ≤ m) (hlen : x.length ≤ amlsArrayLen) :
    amls .signed heap frames data x.length mallocs = .error .stackOverflow := by
  induction frames generalizing m data x mallocs with
  | zero => rfl
  | succ frames ih =>
    have hpos := Nat.two_pow_pos frames
    rw [Nat.pow_succ] at hpow
    obtain ⟨s, hloop, hs⟩ := pairLoop_spec data x.length [] (by simpa using hm)
      (by simpa using hlen) (Paired.init heap mallocs) rfl
    simp only [List.nil_append, List.length_nil, List.drop_zero, hdata,
      leadingBits_map_bitChar] at hloop hs
    have hxor := length_pairXor x
    have hrec := ih s.levelA (x := pairXor x) (mallocs + 3)
      (by rw [← hs.levelAPos, hs.take_levelA]) (by omega) (by omega) (by omega)
    simp only [amls, if_neg (show ¬x.length < 2 by omega), hloop, ok_bind, hs.levelAPos, hrec]
    rfl

/-- No output fills the array: at least one end marker remains. -/
theorem length_peres_lt_amlsArrayLen {x : List Bool} (hx : x.length ≤ amlsArrayLen) :
    (peres x).length < amlsArrayLen := by
  by_cases hnil : x = []
  · simp [hnil, peres_of_length_lt_two, amlsArrayLen]
  · exact (length_peres_lt x hnil).trans_le hx

theorem amls_filled (heap : ℕ → Block) (mallocs : ℕ) {frames : ℕ} (hframes : 10 ≤ frames)
    {m : ℕ} (data : Vector Byte m) (dataLen : ℕ) (hm : dataLen ≤ m)
    (hlen : dataLen ≤ amlsArrayLen) :
    ∃ result mallocs', amls .signed heap frames data dataLen mallocs = .ok (result, mallocs') ∧
      Filled result ((peres (leadingBits (data.toList.take dataLen))).map bitChar) endMark := by
  have hpow : 2 ^ 10 ≤ 2 ^ frames := Nat.pow_le_pow_right Nat.two_pos hframes
  exact amls_spec heap data dataLen mallocs (by omega) (by rw [amlsArrayLen] at hlen; omega)
    hm hlen

/-- The array returned is the extraction of the leading bits, followed only by end markers.
It does not depend on the size of the stack or on what the scratch arrays contained. -/
theorem amls_refines_peres (heap : ℕ → Block) (mallocs : ℕ) {m : ℕ} (data : Vector Byte m)
    (dataLen : ℕ) (hm : dataLen ≤ m) (hlen : dataLen ≤ amlsArrayLen) :
    let out := peres (leadingBits (data.toList.take dataLen))
    ∃ result : Block,
      (∀ frames ≥ 10, ∃ mallocs',
        amls .signed heap frames data dataLen mallocs = .ok (result, mallocs')) ∧
      result.toList = out.map bitChar ++ List.replicate (amlsArrayLen - out.length) endMark ∧
      out.length < amlsArrayLen := by
  obtain ⟨result, _, -, hres⟩ := amls_filled heap mallocs le_rfl data dataLen hm hlen
  refine ⟨result, ?_, by simpa [Filled, Holds] using hres, ?_⟩
  · intro frames hframes
    obtain ⟨result', mallocs', hamls, hres'⟩ :=
      amls_filled heap mallocs hframes data dataLen hm hlen
    have heq : result' = result := Vector.toList_inj.mp (hres'.trans hres.symm)
    exact ⟨mallocs', heq ▸ hamls⟩
  · apply length_peres_lt_amlsArrayLen
    have hbits := length_leadingBits_le (data.toList.take dataLen)
    rw [List.length_take] at hbits
    omega

/-- Three characters of which the last is no bit, with scratch arrays full of sevens. -/
theorem amls_refines_peres_three :
    ∃ result : Block,
      (∀ frames ≥ 10, ∃ mallocs', amls .signed (fun _ => Vector.replicate amlsArrayLen 7#8) frames
        #v[1#8, 0#8, 2#8] 3 0 = .ok (result, mallocs')) ∧
      result.toList = [1#8] ++ List.replicate 511 endMark := by
  obtain ⟨result, hret, hlist, -⟩ := amls_refines_peres
    (fun _ => Vector.replicate amlsArrayLen 7#8) 0 #v[1#8, 0#8, 2#8] 3 le_rfl (by decide)
  have hout : peres (leadingBits ((#v[1#8, 0#8, 2#8] : Vector Byte 3).toList.take 3)) = [true] := by
    have hbits : leadingBits ((#v[1#8, 0#8, 2#8] : Vector Byte 3).toList.take 3) = [true, false] := by
      decide
    rw [hbits, peres_eq, peres_of_length_lt_two (by decide), peres_of_length_lt_two (by decide)]
    rfl
  rw [hout] at hlist
  exact ⟨result, hret, hlist⟩

end K7nvhRng.AmlsRefinement
