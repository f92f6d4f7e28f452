import K7nvhRng.AmlsRefinement
import K7nvhRng.BitPacking
import K7nvhRng.DaemonLoop
import K7nvhRng.ListBlocks

/-!
# The whitening buffer as a function of the bits packed so far

`buf_whitened`, its two cursors and the bytes delivered are determined by the stream
of bits that the packing loop has seen. A group of 8192 bits is complete exactly when
the buffer is full; its two halves are then mixed, and nothing of it is left behind.
-/

namespace K7nvhRng.WhiteningBuffer
open CheckedArrays AmlsArrays AmlsRefinement PeresExtractor BitPacking ListBlocks StoppableRuns DaemonLoop

/-- The bytes output for group `g` of a stream of bits. -/
def mixedGroup (s : List Bool) (g : ℕ) : List Byte :=
  (List.range 512).map fun l => packLsb s (1024 * g + l) ^^^ packLsb s (1024 * g + 512 + l)

def mixed (s : List Bool) : List Byte := (List.range (s.length / 8192)).flatMap (mixedGroup s)

theorem length_mixed (s : List Bool) : (mixed s).length = 512 * (s.length / 8192) := by
  simp [mixed, mixedGroup, List.length_flatMap, Nat.mul_comm]

theorem mixedGroup_append {s : List Bool} {g : ℕ} (hg : g < s.length / 8192) (t : List Bool) :
    mixedGroup (s ++ t) g = mixedGroup s g := by
  rw [mixedGroup, mixedGroup]
  refine List.map_congr_left fun l hl => ?_
  rw [List.mem_range] at hl
  rw [packLsb_append (by omega), packLsb_append (by omega)]

private theorem mixed_append_of_lt {s : List Bool} (h : s.length % 8192 + 1 < 8192) (b : Bool) :
    mixed (s ++ [b]) = mixed s := by
  have hdiv : (s ++ [b]).length / 8192 = s.length / 8192 := by
    rw [List.length_append, List.length_singleton]; omega
  rw [mixed, mixed, hdiv]
  exact List.flatMap_congr fun g hg => mixedGroup_append (List.mem_range.mp hg) [b]

private theorem mixed_append_of_eq {s : List Bool} (h : s.length % 8192 + 1 = 8192) (b : Bool) :
    mixed (s ++ [b]) = mixed s ++ (List.range 512).map fun l =>
      packLsb (remainder 8192 s ++ [b]) l ^^^ packLsb (remainder 8192 s ++ [b]) (l + 512) := by
  have hdiv : (s ++ [b]).length / 8192 = s.length / 8192 + 1 := by
    rw [List.length_append, List.length_singleton]; omega
  have hdrop : remainder 8192 s ++ [b] = (s ++ [b]).drop (8 * (1024 * (s.length / 8192))) := by
    rw [remainder, ← Nat.mul_assoc, List.drop_append_of_le_length (by omega)]
  have hold : (List.range (s.length / 8192)).flatMap (mixedGroup (s ++ [b])) = mixed s :=
    List.flatMap_congr fun g hg => mixedGroup_append (List.mem_range.mp hg) [b]
  have hnew : mixedGroup (s ++ [b]) (s.length / 8192) = (List.range 512).map fun l =>
      packLsb (remainder 8192 s ++ [b]) l ^^^ packLsb (remainder 8192 s ++ [b]) (l + 512) := by
    rw [mixedGroup]
    refine List.map_congr_left fun l _ => ?_
    rw [hdrop, packLsb_drop, packLsb_drop, Nat.add_assoc (1024 * _) 512 l, Nat.add_comm l 512]
  rw [mixed, hdiv, List.range_succ, List.flatMap_append, List.flatMap_singleton, hold, hnew]

variable {devices : ℕ}

/-- The buffer holds the bits behind the last complete group of `S` and is zero elsewhere;
the complete groups have been delivered. -/
structure Whitened (S : List Bool) (s : State devices) : Prop where
  bit_lt : s.bufWhitenedBit < 8
  cursor : 8 * s.bufWhitenedPos + s.bufWhitenedBit = S.length % 8192
  bytes : ∀ q (h : q < 1024), s.bufWhitened[q] = packLsb (remainder 8192 S) q
  delivered : s.delivered = mixed S

theorem whitened_init : Whitened [] (State.init devices) where
  bit_lt := by simp [State.init]
  cursor := rfl
  bytes := by simp [State.init, remainder]
  delivered := rfl

/-- What packing the bits `bits` does to the counters, and that it does nothing else. -/
structure Packs (host : Host) (bits : List Bool) (s s' : State devices) : Prop where
  numZeros : s'.numZeros = s.numZeros + bits.count false
  numOnes : s'.numOnes = s.numOnes + bits.count true
  entCount : s'.entCount + s.delivered.length = s.entCount + s'.delivered.length
  credited : s'.credited + host.sink.credit * s.delivered.length =
    s.credited + host.sink.credit * s'.delivered.length
  buf : s'.buf = s.buf
  bufPos : s'.bufPos = s.bufPos
  deviceCounters : s'.deviceCounters = s.deviceCounters
  processed : s'.processed = s.processed
  reports : s'.reports = s.reports

theorem Packs.refl (host : Host) (s : State devices) : Packs host [] s s := by
  constructor <;> simp

theorem Packs.trans {host : Host} {xs ys : List Bool} {s t u : State devices}
    (h : Packs host xs s t) (h' : Packs host ys t u) : Packs host (xs ++ ys) s u where
  numZeros := by rw [h'.numZeros, h.numZeros, List.count_append, Nat.add_assoc]
  numOnes := by rw [h'.numOnes, h.numOnes, List.count_append, Nat.add_assoc]
  entCount := by have := h.entCount; have := h'.entCount; omega
  credited := by have := h.credited; have := h'.credited; omega
  buf := h'.buf.trans h.buf
  bufPos := h'.bufPos.trans h.bufPos
  deviceCounters := h'.deviceCounters.trans h.deviceCounters
  processed := h'.processed.trans h.processed
  reports := h'.reports.trans h.reports

/-- The assumptions under which the loop is analysed: plain `char` is signed, the stack has
room for ten calls of `amls`, and every delivery succeeds. -/
structure Assumed (host : Host) : Prop where
  signed : host.charSign = .signed
  frames : 10 ≤ host.frames
  delivers : ∀ n, host.deliveryError n = none

def fileHost : Host where
  charSign := .signed
  sink := .fileOutput
  heap := fun _ => Vector.replicate amlsArrayLen 0#8
  frames := 10
  deviceName := fun _ => "/dev/ttyACM0"
  deliveryError := fun _ => none

theorem assumed_fileHost : Assumed fileHost := ⟨rfl, Nat.le_refl 10, fun _ => rfl⟩

def emitted (host : Host) (values : List Byte) (s : State devices) : State devices :=
  { s with
    entCount := s.entCount + values.length
    delivered := s.delivered ++ values
    credited := s.credited + host.sink.credit * values.length }

theorem emitted_append (host : Host) (xs ys : List Byte) (s : State devices) :
    emitted host ys (emitted host xs s) = emitted host (xs ++ ys) s := by
  simp [emitted, Nat.add_assoc, Nat.mul_add]

private theorem getElem_set_packed {bw : Vector Byte 1024} {t : List Bool}
    (ht : t.length / 8 < 1024) (hbw : ∀ q (h : q < 1024), bw[q] = packLsb t q) (b : Bool) :
    ∀ q (h : q < 1024), (bw.set (t.length / 8) (packLsb t (t.length / 8) |||
      BitVec.ofInt 8 ((if b then 1 else 0) * 2 ^ (t.length % 8))))[q] = packLsb (t ++ [b]) q := by
  intro q hq
  rw [Vector.getElem_set]
  by_cases h : t.length / 8 = q
  · rw [if_pos h, ← h, packLsb_append_bit]
  · rw [if_neg h, hbw q hq, packLsb_append_bit_of_ne t b (Ne.symm h)]

@[simp] theorem countBit_bufWhitened (sg : CharSign) (r : Byte) (s : State devices) :
    (countBit sg r s).bufWhitened = s.bufWhitened := by
  unfold countBit; split <;> rfl

@[simp] theorem countBit_bufWhitenedPos (sg : CharSign) (r : Byte) (s : State devices) :
    (countBit sg r s).bufWhitenedPos = s.bufWhitenedPos := by
  unfold countBit; split <;> rfl

@[simp] theorem countBit_bufWhitenedBit (sg : CharSign) (r : Byte) (s : State devices) :
    (countBit sg r s).bufWhitenedBit = s.bufWhitenedBit := by
  unfold countBit; split <;> rfl

private theorem advance_countBit (host : Host) (b : Bool) (bw : Vector Byte 1024)
    {s s₁ : State devices} (hbit : s.bufWhitenedBit < 8)
    (h₁ : s₁ = advance { countBit .signed (bitChar b) s with bufWhitened := bw }) :
    Packs host [b] s s₁ ∧ s₁.delivered = s.delivered ∧ s₁.bufWhitened = bw ∧
      s₁.bufWhitenedBit < 8 ∧ 8 * s₁.bufWhitenedPos + s₁.bufWhitenedBit =
        8 * s.bufWhitenedPos + s.bufWhitenedBit + 1 := by
  subst h₁
  rw [advance]
  refine ⟨?_, ?_, ?_, ?_⟩
  · cases b <;> split_ifs <;> constructor <;> simp [countBit]
  · cases b <;> split_ifs <;> simp [countBit]
  · split_ifs <;> rfl
  · simp only [countBit_bufWhitenedPos, countBit_bufWhitenedBit]
    split_ifs <;> constructor <;> dsimp only <;> omega

variable {host : Host} (hh : Assumed host)
include hh

private theorem fold_mixByte {s : State devices} {w : ℕ → Byte}
    (hw : ∀ q (h : q < 1024), s.bufWhitened[q] = w q) (ls : List ℕ) (hls : ∀ l ∈ ls, l < 512) :
    Outcome.fold (mixByte host) ls s =
      .running (emitted host (ls.map fun l => w l ^^^ w (l + 512)) s) := by
  induction ls generalizing s with
  | nil => simp [emitted]
  | cons l ls ih =>
    have hl : l < 512 := hls l (by simp)
    have hlow : load s.bufWhitened l = .ok (w l) := by
      rw [load, dif_pos (by omega), hw]
    have hhigh : load s.bufWhitened (l + 512) = .ok (w (l + 512)) := by
      rw [load, dif_pos (by omega), hw]
    have hstep : mixByte host l s = .running (emitted host [w l ^^^ w (l + 512)] s) := by
      simp [mixByte, hlow, hhigh, deliver, hh.delivers, emitted]
    rw [Outcome.fold_cons, hstep, Outcome.andThen_running,
      ih (s := emitted host _ s) hw (fun k hk => hls k (by simp [hk])), emitted_append]
    rfl

theorem flush_eq {s : State devices} {w : ℕ → Byte}
    (hw : ∀ q (h : q < 1024), s.bufWhitened[q] = w q) :
    flush host s = .running { emitted host ((List.range 512).map fun l => w l ^^^ w (l + 512)) s with
      bufWhitenedPos := 0, bufWhitened := Vector.replicate 1024 0#8 } := by
  rw [flush, fold_mixByte hh hw (List.range 512) fun l hl => List.mem_range.mp hl]
  rfl

theorem packBit_spec {S : List Bool} {s : State devices} (hs : Whitened S s) (b : Bool) :
    ∃ s', packBit host (bitChar b) s = .running s' ∧ Whitened (S ++ [b]) s' ∧
      Packs host [b] s s' := by
  set t := remainder 8192 S with ht
  have hlen : t.length = S.length % 8192 := length_remainder 8192 S
  have hcur := hs.cursor
  have hbit := hs.bit_lt
  have hpos : s.bufWhitenedPos = t.length / 8 := by omega
  have hbit' : s.bufWhitenedBit = t.length % 8 := by omega
  have hroom : t.length / 8 < 1024 := by omega
  obtain ⟨bw, hbw⟩ : ∃ bw, bw = s.bufWhitened.set (t.length / 8) (packLsb t (t.length / 8) |||
    BitVec.ofInt 8 ((if b then 1 else 0) * 2 ^ (t.length % 8))) := ⟨_, rfl⟩
  obtain ⟨s₁, h₁⟩ : ∃ s₁, s₁ = advance { countBit .signed (bitChar b) s with bufWhitened := bw } :=
    ⟨_, rfl⟩
  have hload : load s.bufWhitened (t.length / 8) = .ok (packLsb t (t.length / 8)) := by
    rw [load, dif_pos hroom, hs.bytes]
  have hpack : packBit host (bitChar b) s =
      if s₁.bufWhitenedPos ≥ 1024 then flush host s₁ else .running s₁ := by
    simp only [packBit, hh.signed, countBit_bufWhitened, countBit_bufWhitenedPos,
      countBit_bufWhitenedBit, hpos, hbit', hload, checked_ok, promote_bitChar,
      store_of_lt _ hroom, h₁, hbw]
  obtain ⟨hpacks, hdel, hset, hbit₁, hcur₁⟩ := advance_countBit host b bw hbit h₁
  have hbytes : ∀ q (h : q < 1024), s₁.bufWhitened[q] = packLsb (t ++ [b]) q := by
    rw [hset, hbw]
    exact getElem_set_packed hroom hs.bytes b
  rw [hpack]
  by_cases hfull : s₁.bufWhitenedPos ≥ 1024
  · have heq : S.length % 8192 + 1 = 8192 := by omega
    have hmixed := mixed_append_of_eq heq b
    rw [if_pos hfull, flush_eq hh hbytes]
    rw [← ht] at hmixed
    generalize (List.range 512).map _ = values at hmixed ⊢
    refine ⟨_, rfl, ⟨hbit₁, ?_, ?_, ?_⟩, ?_⟩
    · rw [List.length_append, List.length_singleton]
      simp only [emitted]
      omega
    · intro q hq
      rw [(blocks_append_of_eq heq b).2, packLsb_nil]
      exact Vector.getElem_replicate hq
    · simp only [emitted, hdel, hs.delivered, hmixed]
    · refine ⟨hpacks.numZeros, hpacks.numOnes, ?_, ?_, hpacks.buf, hpacks.bufPos,
        hpacks.deviceCounters, hpacks.processed, hpacks.reports⟩
      · have h := hpacks.entCount
        simp only [emitted, hdel, List.length_append] at h ⊢
        omega
      · have h := hpacks.credited
        simp only [emitted, hdel, List.length_append, Nat.mul_add] at h ⊢
        omega
  · have hlt : S.length % 8192 + 1 < 8192 := by omega
    rw [if_neg hfull]
    refine ⟨_, rfl, ⟨hbit₁, ?_, ?_, ?_⟩, hpacks⟩
    · rw [List.length_append, List.length_singleton]
      omega
    · intro q hq
      rw [hbytes, (blocks_append_of_lt hlt b).2]
    · rw [hdel, hs.delivered, mixed_append_of_lt hlt b]

/-- The packing loop takes the bits in front of the first end marker. The loop variable
stands behind the bits `done`, and `todo` is still to be packed. -/
theorem packLoop_spec {r : Block} (done todo : List Bool) {S : List Bool} {s : State devices}
    {n : ℕ} (hr : Filled r ((done ++ todo).map bitChar) endMark) (hn : done.length + n = 512)
    (hs : Whitened S s) :
    ∃ s', packLoop host r n done.length s = .running s' ∧ Whitened (S ++ todo) s' ∧
      Packs host todo s s' := by
  induction todo generalizing done S s n with
  | nil =>
    rw [List.append_nil] at hr ⊢
    refine ⟨s, ?_, hs, Packs.refl host s⟩
    cases n with
    | zero => rfl
    | succ n =>
      have hmark := hr.load_end (by simp only [List.length_map, amlsArrayLen]; omega)
      rw [List.length_map] at hmark
      simp [packLoop, hmark, hh.signed]
  | cons b todo ih =>
    have hlen := hr.length
    simp only [List.length_map, List.length_append, List.length_cons, amlsArrayLen] at hlen
    cases n with
    | zero => omega
    | succ n =>
      have hnext : load r done.length = .ok (bitChar b) := by
        rw [← List.length_map bitChar]
        exact Filled.load_next (m := todo.map bitChar) (by simpa using hr)
      have hbit : ¬(host.charSign.promote (bitChar b) ≠ 0 ∧ host.charSign.promote (bitChar b) ≠ 1) := by
        cases b <;> simp
      obtain ⟨s₁, hstep, hs₁, hp₁⟩ := packBit_spec hh hs b
      obtain ⟨s', hloop, hs', hp'⟩ := ih (done ++ [b]) (n := n) (by simpa using hr)
        (by simp only [List.length_append, List.length_singleton]; omega) hs₁
      refine ⟨s', ?_, by simpa using hs', hp₁.trans hp'⟩
      rw [packLoop, hnext, checked_ok, if_neg hbit, hstep, Outcome.andThen_running, ← hloop,
        List.length_append, List.length_singleton]

/-- A full buffer of bits is extracted and packed. -/
theorem processBuffer_spec {S x : List Bool} {s : State devices} (hs : Whitened S s)
    (hx : s.buf.toList = x.map bitChar) :
    ∃ s', processBuffer host s = .running { s' with bufPos := 0 } ∧ Whitened (S ++ peres x) s' ∧
      Packs host (peres x) { s with processed := s.processed ++ [s.buf] } s' := by
  have hlen : (x.map bitChar).length = 512 := by rw [← hx, Vector.length_toList]
  obtain ⟨r, mallocs', hamls, hr⟩ := amls_filled host.heap s.mallocs hh.frames s.buf 512
    (Nat.le_refl _) (Nat.le_refl _)
  rw [hx, ← hlen, List.take_length, leadingBits_map_bitChar] at hr
  have hs₀ : Whitened S
      { s with mallocs := mallocs', processed := s.processed ++ [s.buf] } :=
    ⟨hs.bit_lt, hs.cursor, hs.bytes, hs.delivered⟩
  obtain ⟨s', hloop, hs', hp⟩ := packLoop_spec hh [] (peres x) (n := 512) hr rfl hs₀
  refine ⟨s', ?_, hs', ⟨hp.numZeros, hp.numOnes, hp.entCount, hp.credited, hp.buf, hp.bufPos,
    hp.deviceCounters, hp.processed, hp.reports⟩⟩
  simp only [processBuffer, hh.signed, hamls, checked_ok]
  exact congrArg (Outcome.andThen · _) hloop

end K7nvhRng.WhiteningBuffer
