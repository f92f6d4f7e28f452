import K7nvhRng.AmlsArrays

/-!
# `ascii_hex_to_bin`

The utility reads pairs of hexadecimal digits and writes the bytes they denote. What
`fgetc` returns is kept in a `signed char`, so a byte `0xff` cannot be told from the end
of the input.
-/

namespace K7nvhRng.HexDecoding
open AmlsArrays

/-- `hexval`. For a character that is no digit, the character printed before `abort()`. -/
def hexval (c : Byte) : Except Byte Byte :=
  if 0x30 ≤ c.toNat ∧ c.toNat ≤ 0x39 then .ok (c - 0x30#8)
  else if 0x41 ≤ c.toNat ∧ c.toNat ≤ 0x46 then .ok (c - 0x41#8 + 10#8)
  else if 0x61 ≤ c.toNat ∧ c.toNat ≤ 0x66 then .ok (c - 0x61#8 + 10#8)
  else .error c

def asciiBytes (text : String) : List Byte := text.toList.map fun a => BitVec.ofNat 8 a.toNat

/-- What `hexval` prints before it calls `abort()`. -/
def errorText (c : Byte) : List Byte := asciiBytes "Error: " ++ [c]

/-- `(hexval(byte1) << 4) + hexval(byte2)` as an `unsigned char`. The order of the two calls
is left open by C. -/
def hexPair (leftFirst : Bool) (byte1 byte2 : Byte) : Except Byte Byte :=
  let num (hi lo : Byte) : Byte := BitVec.ofNat 8 ((hi.toNat <<< 4) + lo.toNat)
  if leftFirst then do
    let hi ← hexval byte1
    let lo ← hexval byte2
    return num hi lo
  else do
    let lo ← hexval byte2
    let hi ← hexval byte1
    return num hi lo

/-- How the program ends, with the bytes it has handed to `stdio` and the text printed at an
abort. `abort` need not flush what is buffered, so not all of these bytes must get out then. -/
inductive Ending where
  | exit (status : ℤ) (out : List Byte)
  | aborted (out text : List Byte)

/-- The value of `fgetc(stdin)` and the input that remains. -/
def fgetc : List Byte → ℤ × List Byte
  | [] => (-1, [])
  | b :: input => (b.toNat, input)

private theorem length_fgetc_le (input : List Byte) : (fgetc input).2.length ≤ input.length := by
  cases input with
  | nil => exact Nat.le_refl _
  | cons b input => simp [fgetc]

private theorem length_fgetc_lt {input : List Byte}
    (h : CharSign.signed.promote (toChar (fgetc input).1) ≠ -1) :
    (fgetc input).2.length < input.length := by
  cases input with
  | nil => exact absurd rfl h
  | cons b input => simp [fgetc]

/-- The loop of `main` with the bytes written so far. -/
def asciiHexToBin (leftFirst : Bool) (input out : List Byte) : Ending :=
  -- the value is converted to a `signed char` before it is compared with `EOF`
  let byte1 := toChar (fgetc input).1
  if _h : CharSign.signed.promote byte1 = -1 then .exit 0 out
  else
    let byte2 := toChar (fgetc (fgetc input).2).1
    if CharSign.signed.promote byte2 = -1 then .exit 0 out
    else
      match hexPair leftFirst byte1 byte2 with
      | .error c => .aborted out (errorText c)
      | .ok num => asciiHexToBin leftFirst (fgetc (fgetc input).2).2 (out ++ [num])
termination_by input.length
decreasing_by
  exact Nat.lt_of_le_of_lt (length_fgetc_le _) (length_fgetc_lt _h)

/-! ### The grammar -/

def HexDigit (v : ℕ) (c : Byte) : Prop :=
  (asciiBytes "0123456789ABCDEF")[v]? = some c ∨ (asciiBytes "0123456789abcdef")[v]? = some c

instance (v : ℕ) (c : Byte) : Decidable (HexDigit v c) := inferInstanceAs (Decidable (_ ∨ _))

def IsHexPair (q : Byte × Byte) : Prop := (∃ hi, HexDigit hi q.1) ∧ ∃ lo, HexDigit lo q.2

def Denotes (q : Byte × Byte) (b : Byte) : Prop :=
  ∃ hi lo, HexDigit hi q.1 ∧ HexDigit lo q.2 ∧ b.toNat = 16 * hi + lo

/-- The consecutive pairs of a string, without an unpaired last byte. -/
def pairsOf : List Byte → List (Byte × Byte)
  | a :: b :: s => (a, b) :: pairsOf s
  | [_] | [] => []

theorem hexDigit_lt {v : ℕ} {c : Byte} (h : HexDigit v c) : v < 16 := by
  rcases h with h | h
  · exact (List.getElem?_eq_some_iff.mp h).1
  · exact (List.getElem?_eq_some_iff.mp h).1

theorem hexval_of_digit {v : ℕ} {c : Byte} (h : HexDigit v c) :
    hexval c = .ok (BitVec.ofNat 8 v) := by
  have hdigits : ∀ v < 16,
      (asciiBytes "0123456789ABCDEF")[v]?.map hexval = some (.ok (BitVec.ofNat 8 v)) ∧
      (asciiBytes "0123456789abcdef")[v]?.map hexval = some (.ok (BitVec.ofNat 8 v)) := by
    decide +kernel
  obtain ⟨hupper, hlower⟩ := hdigits v (hexDigit_lt h)
  rcases h with h | h
  · rw [h] at hupper
    exact Option.some.inj hupper
  · rw [h] at hlower
    exact Option.some.inj hlower

theorem hexval_of_not_digit {c : Byte} (h : ¬∃ v, HexDigit v c) : hexval c = .error c := by
  have hdigit : ∀ c : Byte, 0x30 ≤ c.toNat ∧ c.toNat ≤ 0x39 → HexDigit (c - 0x30#8).toNat c := by
    decide +kernel
  have hupper : ∀ c : Byte, 0x41 ≤ c.toNat ∧ c.toNat ≤ 0x46 →
      HexDigit (c - 0x41#8 + 10#8).toNat c := by
    decide +kernel
  have hlower : ∀ c : Byte, 0x61 ≤ c.toNat ∧ c.toNat ≤ 0x66 →
      HexDigit (c - 0x61#8 + 10#8).toNat c := by
    decide +kernel
  rw [hexval, if_neg fun hc => h ⟨_, hdigit c hc⟩, if_neg fun hc => h ⟨_, hupper c hc⟩,
    if_neg fun hc => h ⟨_, hlower c hc⟩]

theorem isHexPair_iff_denotes (q : Byte × Byte) : IsHexPair q ↔ ∃ b, Denotes q b := by
  constructor
  · rintro ⟨⟨hi, hhi⟩, lo, hlo⟩
    have hi16 := hexDigit_lt hhi
    have lo16 := hexDigit_lt hlo
    refine ⟨BitVec.ofNat 8 (16 * hi + lo), hi, lo, hhi, hlo, ?_⟩
    rw [BitVec.toNat_ofNat]
    omega
  · rintro ⟨b, hi, lo, hhi, hlo, -⟩
    exact ⟨⟨hi, hhi⟩, lo, hlo⟩

private theorem hexPair_of_denotes (leftFirst : Bool) {q : Byte × Byte} {b : Byte}
    (h : Denotes q b) :
    hexPair leftFirst q.1 q.2 = .ok b := by
  obtain ⟨hi, lo, hhi, hlo, hb⟩ := h
  have hi16 := hexDigit_lt hhi
  have lo16 := hexDigit_lt hlo
  have hnum : BitVec.ofNat 8 (((BitVec.ofNat 8 hi).toNat <<< 4) + (BitVec.ofNat 8 lo).toNat) = b := by
    apply BitVec.eq_of_toNat_eq
    simp only [BitVec.toNat_ofNat, Nat.shiftLeft_eq]
    omega
  simp only [hexPair, hexval_of_digit hhi, hexval_of_digit hlo]
  rw [← hnum]
  cases leftFirst <;> rfl

private theorem hexPair_of_not_hex (leftFirst : Bool) {q : Byte × Byte} (h : ¬IsHexPair q) :
    ∃ c, (c = q.1 ∨ c = q.2) ∧ (¬∃ v, HexDigit v c) ∧ hexPair leftFirst q.1 q.2 = .error c := by
  by_cases h₁ : ∃ v, HexDigit v q.1
  · have h₂ : ¬∃ v, HexDigit v q.2 := fun h₂ => h ⟨h₁, h₂⟩
    obtain ⟨v, hv⟩ := h₁
    refine ⟨q.2, .inr rfl, h₂, ?_⟩
    simp only [hexPair, hexval_of_digit hv, hexval_of_not_digit h₂]
    cases leftFirst <;> rfl
  · by_cases h₂ : ∃ v, HexDigit v q.2
    · obtain ⟨v, hv⟩ := h₂
      refine ⟨q.1, .inl rfl, h₁, ?_⟩
      simp only [hexPair, hexval_of_digit hv, hexval_of_not_digit h₁]
      cases leftFirst <;> rfl
    · cases leftFirst with
      | true =>
        refine ⟨q.1, .inl rfl, h₁, ?_⟩
        simp only [hexPair, hexval_of_not_digit h₁]
        rfl
      | false =>
        refine ⟨q.2, .inr rfl, h₂, ?_⟩
        simp only [hexPair, hexval_of_not_digit h₂]
        rfl

/-! ### The loop -/

/-- Of all bytes, `0xff` is the one that reads as the end of the input. -/
theorem promote_eq_eof_iff (c : Byte) : CharSign.signed.promote c = -1 ↔ c = 0xff#8 := by
  revert c
  decide

theorem ne_eof_of_digit {v : ℕ} {c : Byte} (h : HexDigit v c) : c ≠ 0xff#8 := by
  rintro rfl
  have hval := hexval_of_digit h
  have herr : hexval 0xff#8 = .error 0xff#8 := by decide
  rw [herr] at hval
  cases hval

theorem asciiHexToBin_pair (leftFirst : Bool) (b₁ b₂ : Byte) (input out : List Byte) :
    asciiHexToBin leftFirst (b₁ :: b₂ :: input) out =
      if b₁ = 0xff#8 ∨ b₂ = 0xff#8 then .exit 0 out
      else
        match hexPair leftFirst b₁ b₂ with
        | .error c => .aborted out (errorText c)
        | .ok num => asciiHexToBin leftFirst input (out ++ [num]) := by
  rw [asciiHexToBin]
  simp only [fgetc, toChar_toNat, promote_eq_eof_iff]
  by_cases h₁ : b₁ = 0xff#8
  · simp [h₁]
  · by_cases h₂ : b₂ = 0xff#8
    · simp [h₁, h₂]
    · simp [h₁, h₂]

private theorem asciiHexToBin_of_no_pair (leftFirst : Bool) {input : List Byte}
    (h : pairsOf input = []) (out : List Byte) :
    asciiHexToBin leftFirst input out = .exit 0 out := by
  match input, h with
  | [], _ =>
    rw [asciiHexToBin]
    rfl
  | [b], _ =>
    rw [asciiHexToBin]
    simp only [fgetc, toChar_toNat]
    by_cases hb : CharSign.signed.promote b = -1
    · rw [dif_pos hb]
    · rw [dif_neg hb]
      rfl

theorem exists_of_pairsOf_eq_cons {s : List Byte} {q : Byte × Byte} {ps : List (Byte × Byte)}
    (h : pairsOf s = q :: ps) : ∃ s', s = q.1 :: q.2 :: s' ∧ pairsOf s' = ps := by
  match s, h with
  | a :: b :: s, h =>
    rw [pairsOf] at h
    obtain ⟨rfl, rfl⟩ := List.cons.inj h
    exact ⟨s, rfl, rfl⟩

theorem asciiHexToBin_decodes (leftFirst : Bool) {good ps : List (Byte × Byte)} {bs : List Byte}
    (hgood : List.Forall₂ Denotes good bs) {s : List Byte} (hs : pairsOf s = good ++ ps)
    (out : List Byte) :
    ∃ s', pairsOf s' = ps ∧
      asciiHexToBin leftFirst s out = asciiHexToBin leftFirst s' (out ++ bs) := by
  induction hgood generalizing s out with
  | nil => exact ⟨s, hs, by rw [List.append_nil]⟩
  | @cons q b good bs hq _ ih =>
    obtain ⟨t, rfl, ht⟩ := exists_of_pairsOf_eq_cons hs
    obtain ⟨s', hs', hrun⟩ := ih ht (out ++ [b])
    refine ⟨s', hs', ?_⟩
    have heof : ¬(q.1 = 0xff#8 ∨ q.2 = 0xff#8) := by
      obtain ⟨hi, lo, hhi, hlo, -⟩ := hq
      exact not_or.mpr ⟨ne_eof_of_digit hhi, ne_eof_of_digit hlo⟩
    rw [asciiHexToBin_pair, if_neg heof, hexPair_of_denotes leftFirst hq]
    simpa using hrun

/-- A pair with a byte `0xff` ends the program normally, even if it is not hexadecimal. -/
theorem asciiHexToBin_eof (leftFirst : Bool) {good ps : List (Byte × Byte)} {bad : Byte × Byte}
    {bs : List Byte} (hgood : List.Forall₂ Denotes good bs) {s : List Byte}
    (hs : pairsOf s = good ++ bad :: ps) (out : List Byte)
    (heof : bad.1 = 0xff#8 ∨ bad.2 = 0xff#8) :
    asciiHexToBin leftFirst s out = .exit 0 (out ++ bs) := by
  obtain ⟨s', hs', hrun⟩ := asciiHexToBin_decodes leftFirst hgood hs out
  obtain ⟨t, rfl, -⟩ := exists_of_pairsOf_eq_cons hs'
  rw [hrun, asciiHexToBin_pair, if_pos heof]

theorem asciiHexToBin_aborts (leftFirst : Bool) {good ps : List (Byte × Byte)} {bad : Byte × Byte}
    {bs : List Byte} (hgood : List.Forall₂ Denotes good bs) {s : List Byte}
    (hs : pairsOf s = good ++ bad :: ps) (hnot : ¬IsHexPair bad)
    (heof : bad.1 ≠ 0xff#8 ∧ bad.2 ≠ 0xff#8) (out : List Byte) :
    ∃ c, (c = bad.1 ∨ c = bad.2) ∧ (¬∃ v, HexDigit v c) ∧
      asciiHexToBin leftFirst s out = .aborted (out ++ bs) (errorText c) := by
  obtain ⟨s', hs', hrun⟩ := asciiHexToBin_decodes leftFirst hgood hs out
  obtain ⟨t, rfl, -⟩ := exists_of_pairsOf_eq_cons hs'
  obtain ⟨c, hmem, hdigit, hc⟩ := hexPair_of_not_hex leftFirst hnot
  refine ⟨c, hmem, hdigit, ?_⟩
  rw [hrun, asciiHexToBin_pair, if_neg (not_or.mpr heof), hc]

theorem exists_forall₂_denotes {ps : List (Byte × Byte)} (h : ∀ q ∈ ps, IsHexPair q) :
    ∃ bs, List.Forall₂ Denotes ps bs := by
  induction ps with
  | nil => exact ⟨[], .nil⟩
  | cons q ps ih =>
    obtain ⟨hq, hps⟩ := List.forall_mem_cons.mp h
    obtain ⟨b, hb⟩ := (isHexPair_iff_denotes q).mp hq
    obtain ⟨bs, hbs⟩ := ih hps
    exact ⟨b :: bs, .cons hb hbs⟩

/-- The program accepts the input `s` as its grammar says. A string of hexadecimal pairs is
decoded, whatever the case of its digits; any other string is rejected at its first pair that
is not hexadecimal, after the bytes of the pairs in front of it have been handed to `stdio`. -/
structure AcceptsGrammar (leftFirst : Bool) (s : List Byte) : Prop where
  accepts : (∀ q ∈ pairsOf s, IsHexPair q) →
    ∃ bs, List.Forall₂ Denotes (pairsOf s) bs ∧ asciiHexToBin leftFirst s [] = .exit 0 bs
  inverts : ∀ bs, List.Forall₂ Denotes (pairsOf s) bs →
    asciiHexToBin leftFirst s [] = .exit 0 bs
  rejects : ∀ good bad rest, pairsOf s = good ++ bad :: rest → (∀ q ∈ good, IsHexPair q) →
    ¬IsHexPair bad → ∃ bs c, List.Forall₂ Denotes good bs ∧ (c = bad.1 ∨ c = bad.2) ∧
      (¬∃ v, HexDigit v c) ∧ asciiHexToBin leftFirst s [] = .aborted bs (errorText c)

/-- The program follows its grammar exactly on the strings whose first pair that is not
hexadecimal, if there is one, has no byte `0xff`. -/
theorem acceptsGrammar_iff (leftFirst : Bool) (s : List Byte) :
    AcceptsGrammar leftFirst s ↔
      ∀ good bad rest, pairsOf s = good ++ bad :: rest → (∀ q ∈ good, IsHexPair q) →
        ¬IsHexPair bad → bad.1 ≠ 0xff#8 ∧ bad.2 ≠ 0xff#8 := by
  have hinverts : ∀ bs, List.Forall₂ Denotes (pairsOf s) bs →
      asciiHexToBin leftFirst s [] = .exit 0 bs := by
    intro bs hbs
    obtain ⟨s', hs', hrun⟩ :=
      asciiHexToBin_decodes leftFirst hbs (List.append_nil _).symm []
    rw [hrun, asciiHexToBin_of_no_pair leftFirst hs', List.nil_append]
  constructor
  · intro h good bad rest hs hgood hnot
    obtain ⟨bs, hbs⟩ := exists_forall₂_denotes hgood
    obtain ⟨bs', c, -, -, -, habort⟩ := h.rejects good bad rest hs hgood hnot
    have hexit := asciiHexToBin_eof leftFirst hbs hs []
    rw [habort] at hexit
    exact ⟨fun h₁ => Ending.noConfusion (hexit (.inl h₁)),
      fun h₂ => Ending.noConfusion (hexit (.inr h₂))⟩
  · intro h
    refine ⟨fun hall => ?_, hinverts, ?_⟩
    · obtain ⟨bs, hbs⟩ := exists_forall₂_denotes hall
      exact ⟨bs, hbs, hinverts bs hbs⟩
    · intro good bad rest hs hgood hnot
      obtain ⟨bs, hbs⟩ := exists_forall₂_denotes hgood
      obtain ⟨c, hmem, hdigit, hrun⟩ := asciiHexToBin_aborts leftFirst hbs hs hnot
        (h good bad rest hs hgood hnot) []
      exact ⟨bs, c, hbs, hmem, hdigit, hrun⟩

/-- After the two digits of one byte, a byte `0xff` ends the program normally. -/
theorem asciiHexToBin_truncates :
    asciiHexToBin true [0x34#8, 0x31#8, 0xff#8, 0x30#8] [] = .exit 0 [0x41#8] ∧
      ¬AcceptsGrammar true [0x34#8, 0x31#8, 0xff#8, 0x30#8] := by
  have hdigits : Denotes (0x34#8, 0x31#8) 0x41#8 := ⟨4, 1, by decide, by decide, by decide⟩
  have hpairs : pairsOf [0x34#8, 0x31#8, 0xff#8, 0x30#8] =
      [(0x34#8, 0x31#8)] ++ (0xff#8, 0x30#8) :: [] := rfl
  have hexit := asciiHexToBin_eof true (.cons hdigits .nil) hpairs [] (.inl rfl)
  refine ⟨hexit, fun h => ?_⟩
  have hgood : ∀ q ∈ [(0x34#8, 0x31#8)], IsHexPair q := by
    intro q hq
    rw [List.mem_singleton.mp hq, isHexPair_iff_denotes]
    exact ⟨0x41#8, hdigits⟩
  have hnot : ¬IsHexPair (0xff#8, 0x30#8) := by
    rintro ⟨⟨v, hv⟩, -⟩
    exact ne_eof_of_digit hv rfl
  obtain ⟨bs, c, -, -, -, habort⟩ := h.rejects _ _ [] hpairs hgood hnot
  rw [hexit] at habort
  cases habort

end K7nvhRng.HexDecoding
