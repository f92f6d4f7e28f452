import K7nvhRng.AmlsRefinement
import K7nvhRng.DaemonLoop

/-!
# Reading and converting a chunk

A chunk of 128 characters is read behind the bits that stand in `buf` already. The
conversion loop turns the characters `0` and `1` into bits, one by one, and ends the
run at the first other character.
-/

namespace K7nvhRng.ChunkConversion
open CheckedArrays AmlsArrays AmlsRefinement StoppableRuns DaemonLoop

/-- The characters a device sends for a bit. -/
def asciiChar (b : Bool) : Byte := if b then 0x31#8 else 0x30#8

def asciiBit (c : Byte) : Option Bool :=
  if c = 0x30#8 then some false else if c = 0x31#8 then some true else none

@[simp] theorem asciiBit_asciiChar (b : Bool) : asciiBit (asciiChar b) = some b := by
  cases b <;> rfl

private theorem asciiBit_eq_some_iff {c : Byte} {b : Bool} :
    asciiBit c = some b ↔ c = asciiChar b := by
  constructor
  · intro h
    unfold asciiBit at h
    split_ifs at h with h0 h1
    · obtain rfl := Option.some.inj h
      exact h0
    · obtain rfl := Option.some.inj h
      exact h1
  · rintro rfl
    exact asciiBit_asciiChar b

theorem ascii_cases (l : List Byte) :
    (∃ bits : List Bool, l = bits.map asciiChar) ∨
      ∃ (bits : List Bool) (c : Byte) (rest : List Byte), asciiBit c = none ∧
        l = bits.map asciiChar ++ c :: rest := by
  induction l with
  | nil => exact .inl ⟨[], rfl⟩
  | cons c l ih =>
    cases hc : asciiBit c with
    | none => exact .inr ⟨[], c, l, hc, rfl⟩
    | some b =>
      rw [asciiBit_eq_some_iff] at hc
      obtain ⟨bits, rfl⟩ | ⟨bits, d, rest, hd, rfl⟩ := ih
      · exact .inl ⟨b :: bits, by rw [hc, List.map_cons]⟩
      · exact .inr ⟨b :: bits, d, rest, hd, by rw [hc, List.map_cons, List.cons_append]⟩

private theorem promote_eq_ascii0_iff (sg : CharSign) (c : Byte) :
    sg.promote c = ascii0 ↔ c = 0x30#8 := by
  rw [← promote_inj sg (a := c) (b := 0x30#8)]
  cases sg <;> rfl

private theorem promote_eq_ascii1_iff (sg : CharSign) (c : Byte) :
    sg.promote c = ascii1 ↔ c = 0x31#8 := by
  rw [← promote_inj sg (a := c) (b := 0x31#8)]
  cases sg <;> rfl

@[simp] theorem promote_asciiChar (sg : CharSign) (b : Bool) :
    sg.promote (asciiChar b) = if b then ascii1 else ascii0 := by
  cases b <;> cases sg <;> rfl

variable {devices : ℕ}

def converted (i : Fin devices) (bits : List Bool) (buf : Vector Byte 512) (s : State devices) :
    State devices :=
  { s with
    buf := buf
    deviceCounters := fun j b => s.deviceCounters j b + if j = i then bits.count b else 0 }

private theorem converted_nil (i : Fin devices) (s : State devices) :
    converted i [] s.buf s = s := by
  simp [converted]

theorem converted_converted (i : Fin devices) (b : Bool) (bits : List Bool)
    (buf buf' : Vector Byte 512) (s : State devices) :
    converted i bits buf' (converted i [b] buf s) = converted i (b :: bits) buf' s := by
  simp only [converted, State.mk.injEq, true_and, and_true]
  funext j c
  by_cases hj : j = i
  · simp only [if_pos hj, ← List.singleton_append (l := bits), List.count_append, Nat.add_assoc]
  · simp only [if_neg hj, Nat.add_zero]

theorem countSample_eq (i : Fin devices) (b : Bool) (s : State devices) (buf : Vector Byte 512) :
    { countSample i b s with buf := buf } = converted i [b] buf s := by
  simp only [countSample, converted, State.mk.injEq, true_and, and_true]
  funext j c
  by_cases hj : j = i
  · subst hj
    by_cases hc : c = b
    · simp [hc]
    · simp [hc, Ne.symm hc]
  · simp [hj]

theorem convertChar_bit (host : Host) (i : Fin devices) {j : ℕ} {b : Bool} {s : State devices}
    {l rest : List Byte} (hbuf : Holds s.buf l (asciiChar b :: rest))
    (hl : l.length = s.bufPos + j) :
    ∃ buf, convertChar host i j s = .running (converted i [b] buf s) ∧
      Holds buf (l ++ [bitChar b]) rest := by
  obtain ⟨buf, hstore, hbuf'⟩ := hbuf.store (bitChar b)
  refine ⟨buf, ?_, hbuf'⟩
  have hload := hbuf.load
  rw [hl] at hload hstore
  have hne : ascii1 ≠ ascii0 := by decide
  unfold convertChar
  cases b with
  | false =>
    rw [show bitChar false = toChar 0 from rfl] at hstore
    simp [hload, hstore, countSample_eq]
  | true =>
    rw [show bitChar true = toChar 1 from rfl] at hstore
    simp [hload, hstore, hne, countSample_eq]

theorem convertChar_bad (host : Host) (i : Fin devices) {j : ℕ} {c : Byte} {s : State devices}
    {l rest : List Byte} (hbuf : Holds s.buf l (c :: rest)) (hl : l.length = s.bufPos + j)
    (hc : asciiBit c = none) :
    convertChar host i j s =
      .stopped (invalidInput (host.deviceName i) (host.charSign.promote c)) s := by
  have hload := hbuf.load
  rw [hl] at hload
  have h0 : c ≠ 0x30#8 := by rintro rfl; simp [asciiBit] at hc
  have h1 : c ≠ 0x31#8 := by rintro rfl; simp [asciiBit] at hc
  have hbad : host.charSign.promote c ≠ ascii0 ∧ host.charSign.promote c ≠ ascii1 :=
    ⟨mt (promote_eq_ascii0_iff _ _).mp h0, mt (promote_eq_ascii1_iff _ _).mp h1⟩
  simp [convertChar, hload, hbad]

theorem fold_convertChar (host : Host) (i : Fin devices) (bits : List Bool) {j : ℕ}
    {s : State devices} {l rest : List Byte} (hbuf : Holds s.buf l (bits.map asciiChar ++ rest))
    (hl : l.length = s.bufPos + j) :
    ∃ buf, Outcome.fold (convertChar host i) (List.range' j bits.length) s =
        .running (converted i bits buf s) ∧
      Holds buf (l ++ bits.map bitChar) rest := by
  induction bits generalizing j s l with
  | nil => exact ⟨s.buf, by simp [converted_nil], by simpa using hbuf⟩
  | cons b bits ih =>
    obtain ⟨buf₁, hstep, hbuf₁⟩ := convertChar_bit host i hbuf hl
    obtain ⟨buf, hfold, hbuf'⟩ := ih (s := converted i [b] buf₁ s) (j := j + 1) hbuf₁
      (by simp [hl, converted, Nat.add_assoc])
    refine ⟨buf, ?_, by simpa using hbuf'⟩
    rw [List.length_cons, List.range'_succ, Outcome.fold_cons, hstep, Outcome.andThen_running,
      hfold, converted_converted]

theorem fold_convertChar_bad (host : Host) (i : Fin devices) {bits : List Bool} {c : Byte}
    {s : State devices} {l rest : List Byte} (hbits : bits.length < 128)
    (hbuf : Holds s.buf l (bits.map asciiChar ++ c :: rest)) (hl : l.length = s.bufPos)
    (hc : asciiBit c = none) :
    ∃ buf, Outcome.fold (convertChar host i) (List.range 128) s =
      .stopped (invalidInput (host.deviceName i) (host.charSign.promote c))
        (converted i bits buf s) := by
  have hrange : List.range 128 = List.range' 0 bits.length ++
      bits.length :: List.range' (bits.length + 1) (127 - bits.length) := by
    have h := List.range'_append_1 (s := 0) (m := bits.length) (n := 127 - bits.length + 1)
    rw [Nat.zero_add] at h
    rw [List.range_eq_range', ← List.range'_succ, h]
    congr 1
    omega
  obtain ⟨buf, hfold, hbuf'⟩ := fold_convertChar host i bits (j := 0) hbuf hl
  have hbad := convertChar_bad host i (j := bits.length) (s := converted i bits buf s) hbuf'
    (by simp [hl, converted]) hc
  refine ⟨buf, ?_⟩
  rw [hrange, Outcome.fold_append, hfold, Outcome.andThen_running, Outcome.fold_cons, hbad,
    Outcome.andThen_stopped]

theorem storeBytes_spec {buf : Vector Byte 512} {l : List Byte} (hbuf : Front buf l)
    (hl : l.length + 128 ≤ 512) (bytes : Vector Byte 128) :
    ∃ buf' rest, storeBytes buf l.length bytes = .ok buf' ∧
      Holds buf' l (bytes.toList ++ rest) := by
  refine ⟨_, buf.toList.drop (l.length + 128), by rw [storeBytes, if_pos hl], ?_⟩
  have hfront := hbuf.take
  apply List.ext_getElem
  · simp
    omega
  · intro n h₁ h₂
    rw [Vector.length_toList] at h₁
    have hkeep : n < l.length → l[n]? = some buf[n] := by
      intro hn
      rw [← hfront, List.getElem?_take_of_lt hn, List.getElem?_eq_getElem (by simpa using h₁),
        Vector.getElem_toList]
    rw [Vector.getElem_toList, Vector.getElem_ofFn, List.getElem_append]
    dsimp only
    by_cases hn : n < l.length
    · rw [dif_neg (by omega), dif_pos hn]
      simpa [List.getElem?_eq_getElem hn, eq_comm] using hkeep hn
    · rw [dif_neg hn, List.getElem_append]
      by_cases hn' : n - l.length < 128
      · rw [dif_pos ⟨by omega, hn'⟩, dif_pos (by simpa using hn'), Vector.getElem_toList]
      · rw [dif_neg (by omega), dif_neg (by simpa using hn'), List.getElem_drop,
          Vector.getElem_toList]
        have hidx : l.length + 128 + (n - l.length - 128) = n := by omega
        simp only [Vector.length_toList, Fin.getElem_fin, hidx]

end K7nvhRng.ChunkConversion
