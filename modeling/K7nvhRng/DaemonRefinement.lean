import K7nvhRng.DeviceInput

/-!
# The loop keeps the ledger

The state of the loop is determined by the ledger of the events so far, and an event
that is an error for the ledger ends the loop with the same exit. No other exit is taken
and no array is left, for any number of devices and any order of reads and ticks.
-/

namespace K7nvhRng.DaemonRefinement
open CheckedArrays AmlsArrays AmlsRefinement AmlsExactness PeresExtractor BitPacking ListBlocks
open StoppableRuns DaemonLoop ChunkConversion WhiteningBuffer ChunkLedger DeviceInput

variable {devices : ℕ}

def counters (s : State devices) : Report devices :=
  ⟨s.numZeros, s.numOnes, s.entCount, s.deviceCounters⟩

/-- A state of the loop and the ledger of the events that led to it. -/
structure Tracks (host : Host) (s : State devices) (l : Ledger devices) : Prop where
  lengths : ∀ c ∈ l.chunks, c.2.length = 128
  mark : l.lastMark <+: l.chunks
  front : Front s.buf ((pending l.chunks).map bitChar)
  bufPos : s.bufPos = 128 * (l.chunks.length % 4)
  whitened : Whitened (stream l.chunks) s
  processed : s.processed.map Vector.toList = (groups l.chunks).map (List.map bitChar)
  since : counters s = interval l.lastMark l.chunks
  reports : s.reports = reportsOf l.marks
  credited : s.credited = host.sink.credit * s.delivered.length

/-- What is left of it when the run has stopped. -/
structure Final (host : Host) (s : State devices) (l : Ledger devices) : Prop where
  delivered : s.delivered = mixed (stream l.chunks)
  processed : s.processed.map Vector.toList = (groups l.chunks).map (List.map bitChar)
  credited : s.credited = host.sink.credit * s.delivered.length

theorem Tracks.final {host : Host} {s : State devices} {l : Ledger devices}
    (h : Tracks host s l) : Final host s l := ⟨h.whitened.delivered, h.processed, h.credited⟩

theorem tracks_init (host : Host) : Tracks host (State.init devices) (Ledger.empty devices) where
  lengths := by simp [Ledger.empty]
  mark := List.prefix_rfl
  front := by rw [Ledger.empty, pending_nil]; exact front_nil _
  bufPos := rfl
  whitened := by rw [Ledger.empty, stream_nil]; exact whitened_init
  processed := by simp [State.init, Ledger.empty]
  since := (interval_self []).symm
  reports := rfl
  credited := rfl

theorem tick_simulates (host : Host) (rndcount : Except SysError ℤ) {s : State devices}
    {l : Ledger devices} (h : Tracks host s l) :
    Outcome.Simulates (Tracks host) (Final host) (tick host rndcount s)
      (record host (.tick rndcount) l) := by
  have hreset : Tracks host
      { s with
        reports := s.reports ++ [counters s], deviceCounters := fun _ _ => 0
        entCount := 0, numZeros := 0, numOnes := 0 }
      { l with marks := l.marks ++ [l.chunks] } := by
    have hlast : Ledger.lastMark { l with marks := l.marks ++ [l.chunks] } = l.chunks := by
      simp [Ledger.lastMark]
    exact {
      lengths := h.lengths
      mark := by rw [hlast]
      front := h.front
      bufPos := h.bufPos
      whitened := ⟨h.whitened.bit_lt, h.whitened.cursor, h.whitened.bytes, h.whitened.delivered⟩
      processed := h.processed
      since := by rw [hlast, interval_self]; rfl
      reports := by rw [reportsOf_append, ← h.reports, h.since]; rfl
      credited := h.credited }
  unfold tick record poolError
  cases hsink : host.sink with
  | linuxRandom =>
    cases rndcount with
    | error e => exact .stopped _ ⟨h.whitened.delivered, h.processed, h.credited⟩
    | ok n => exact .running hreset
  | fileOutput => exact .running hreset
  | appleRandom => exact .running hreset

theorem length_pending {cs : History devices} (h : ∀ c ∈ cs, c.2.length = 128) :
    (pending cs).length = 128 * (cs.length % 4) := by
  have hmem : ∀ c ∈ remainder 4 (cs.map Prod.snd), c.length = 128 := by
    intro c hc
    obtain ⟨d, hd, rfl⟩ := List.mem_map.mp (List.mem_of_mem_drop hc)
    exact h d hd
  rw [pending, length_flatten_of_forall hmem, length_remainder, List.length_map]

def received (i : Fin devices) (bits : List Bool) (buf : Vector Byte 512) (s : State devices) :
    State devices :=
  { s with
    buf := buf
    bufPos := s.bufPos + 128
    deviceCounters := fun j b => s.deviceCounters j b + if j = i then bits.count b else 0 }

/-- The ledger of a state in which a chunk has been received and the bits `y` that `amls`
produced from it have been packed. -/
theorem Tracks.append {host : Host} {s s' : State devices} {l : Ledger devices}
    (h : Tracks host s l) {i : Fin devices} {bits y : List Bool} (hbits : bits.length = 128)
    {buf : Vector Byte 512} {blocks : List (Vector Byte 512)} {n : ℕ}
    (hblocks : blocks.map Vector.toList =
      (groups (l.chunks ++ [(i, bits)])).map (List.map bitChar))
    (hstream : stream (l.chunks ++ [(i, bits)]) = stream l.chunks ++ y)
    (hpacks : Packs host y { received i bits buf s with processed := blocks } s')
    (hwhitened : Whitened (stream l.chunks ++ y) s')
    (hfront : Front s'.buf ((pending (l.chunks ++ [(i, bits)])).map bitChar))
    (hn : n = 128 * ((l.chunks.length + 1) % 4)) :
    Tracks host { s' with bufPos := n } { l with chunks := l.chunks ++ [(i, bits)] } := by
  obtain ⟨hzeros, hones, hent, hdev⟩ := interval_append h.mark (i, bits) hstream
  have hdelivered := hwhitened.delivered
  have hcounters := h.since
  rw [← hstream] at hwhitened hdelivered
  refine
    { lengths := ?_
      mark := h.mark.trans (List.prefix_append _ _)
      front := hfront
      bufPos := by simp [hn]
      whitened := ⟨hwhitened.bit_lt, hwhitened.cursor, hwhitened.bytes, hwhitened.delivered⟩
      processed := by rw [← hblocks]; exact congrArg _ hpacks.processed
      since := ?_
      reports := hpacks.reports.trans h.reports
      credited := ?_ }
  · intro c hc
    rcases List.mem_append.mp hc with hc | hc
    · exact h.lengths c hc
    · rw [List.mem_singleton.mp hc, hbits]
  · change counters s' = interval l.lastMark (l.chunks ++ [(i, bits)])
    apply Report.ext
    · exact hpacks.numZeros.trans (by rw [hzeros, ← hcounters]; rfl)
    · exact hpacks.numOnes.trans (by rw [hones, ← hcounters]; rfl)
    · have hpack := hpacks.entCount
      have hold : s.delivered = mixed (stream l.chunks) := h.whitened.delivered
      rw [← hcounters, ← hold, ← hdelivered] at hent
      simp only [received, counters] at hpack hent ⊢
      omega
    · exact hpacks.deviceCounters.trans (by funext j b; rw [hdev, ← hcounters]; rfl)
  · have hcredit := hpacks.credited
    simp only [received, h.credited] at hcredit ⊢
    omega

theorem received_tracks {host : Host} {s : State devices} {l : Ledger devices}
    (h : Tracks host s l) {i : Fin devices} {bits : List Bool} (hbits : bits.length = 128)
    {buf : Vector Byte 512} {rest : List Byte}
    (hbuf : Holds buf ((pending l.chunks).map bitChar ++ bits.map bitChar) rest)
    (hlt : l.chunks.length % 4 + 1 < 4) :
    Tracks host (received i bits buf s) { l with chunks := l.chunks ++ [(i, bits)] } := by
  obtain ⟨hgroups, hpending⟩ := groups_append_of_lt hlt (i, bits)
  have hstream : stream (l.chunks ++ [(i, bits)]) = stream l.chunks ++ [] := by
    rw [stream, hgroups, List.append_nil, stream]
  have hblocks : s.processed.map Vector.toList =
      (groups (l.chunks ++ [(i, bits)])).map (List.map bitChar) := by rw [hgroups, h.processed]
  refine h.append (n := s.bufPos + 128) hbits hblocks hstream (Packs.refl host _) ?_ ⟨rest, ?_⟩ ?_
  · rw [List.append_nil]
    exact ⟨h.whitened.bit_lt, h.whitened.cursor, h.whitened.bytes, h.whitened.delivered⟩
  · rw [hpending, List.map_append]
    exact hbuf
  · rw [h.bufPos]
    omega

theorem length_group {cs : History devices} (h : ∀ c ∈ cs, c.2.length = 128) {bits : List Bool}
    (hbits : bits.length = 128) (heq : cs.length % 4 + 1 = 4) :
    (pending cs ++ bits).length = amlsArrayLen := by
  rw [List.length_append, hbits, length_pending h, amlsArrayLen]
  omega

theorem toList_of_full {cs : History devices} (h : ∀ c ∈ cs, c.2.length = 128) {bits : List Bool}
    (hbits : bits.length = 128) {buf : Vector Byte 512} {rest : List Byte}
    (hbuf : Holds buf ((pending cs).map bitChar ++ bits.map bitChar) rest)
    (heq : cs.length % 4 + 1 = 4) : buf.toList = (pending cs ++ bits).map bitChar := by
  have hrest := hbuf.length
  rw [← List.map_append, List.length_map, length_group h hbits heq, amlsArrayLen] at hrest
  rw [hbuf, List.eq_nil_of_length_eq_zero (by omega : rest.length = 0), List.append_nil,
    List.map_append]

theorem processBuffer_tracks {host : Host} (hh : Assumed host) {s : State devices}
    {l : Ledger devices} (h : Tracks host s l) {i : Fin devices} {bits : List Bool}
    (hbits : bits.length = 128) {buf : Vector Byte 512} {rest : List Byte}
    (hbuf : Holds buf ((pending l.chunks).map bitChar ++ bits.map bitChar) rest)
    (heq : l.chunks.length % 4 + 1 = 4) :
    ∃ s', processBuffer host (received i bits buf s) = .running s' ∧
      Tracks host s' { l with chunks := l.chunks ++ [(i, bits)] } := by
  obtain ⟨hgroups, hpending⟩ := groups_append_of_eq heq (i, bits)
  have hgroup := length_group h.lengths hbits heq
  have hstream : stream (l.chunks ++ [(i, bits)]) =
      stream l.chunks ++ peres (pending l.chunks ++ bits) := by
    rw [stream, hgroups, List.flatMap_append, List.flatMap_singleton,
      amlsBits_eq_peres hgroup.le, stream]
  have hfull := toList_of_full h.lengths hbits hbuf heq
  have hwhitened : Whitened (stream l.chunks) (received i bits buf s) :=
    ⟨h.whitened.bit_lt, h.whitened.cursor, h.whitened.bytes, h.whitened.delivered⟩
  obtain ⟨s', hrun, hs', hpacks⟩ := processBuffer_spec hh hwhitened hfull
  have hblocks : (s.processed ++ [buf]).map Vector.toList =
      (groups (l.chunks ++ [(i, bits)])).map (List.map bitChar) := by
    rw [hgroups, List.map_append, List.map_append, h.processed, List.map_singleton,
      List.map_singleton, hfull]
  refine ⟨_, hrun, h.append hbits hblocks hstream hpacks hs' ?_ (by omega)⟩
  rw [hpending]
  exact front_nil _

/-- A read either ends the run with the error of the ledger, or its chunk is received. The
buffer is given to `amls` if the chunk fills it. -/
theorem acceptRead_cases (i : Fin devices) (r : ReadResult) {host : Host} {s : State devices}
    {l : Ledger devices} (h : Tracks host s l) :
    (∃ why s', samples host i r = .error why ∧ acceptRead host i r s = .stopped why s' ∧
      Final host s' l) ∨
    ∃ bits buf rest, samples host i r = .ok bits ∧ bits.length = 128 ∧
      Holds buf ((pending l.chunks).map bitChar ++ bits.map bitChar) rest ∧
      acceptRead host i r s =
        if l.chunks.length % 4 + 1 < 4 then .running (received i bits buf s)
        else processBuffer host (received i bits buf s) := by
  have hlen : ((pending l.chunks).map bitChar).length = s.bufPos := by
    rw [List.length_map, length_pending h.lengths, h.bufPos]
  obtain ⟨buf, rest, hstore, hbuf⟩ := storeBytes_spec h.front
    (by rw [hlen, h.bufPos]; omega) r.bytes
  rw [hlen] at hstore
  rw [acceptRead, hstore, checked_ok]
  by_cases hn : r.n = 128
  · simp only [hn, ne_eq, not_true_eq_false, if_false]
    have h128 : r.bytes.toList.length = 128 := Vector.length_toList
    obtain ⟨bits, hbits⟩ | ⟨bits, c, tail, hc, hbits⟩ := ascii_cases r.bytes.toList
    · rw [hbits, List.length_map] at h128
      rw [hbits] at hbuf
      obtain ⟨buf', hfold, hbuf'⟩ := fold_convertChar host i bits (j := 0)
        (s := { s with buf := buf }) hbuf hlen
      rw [h128, ← List.range_eq_range'] at hfold
      refine .inr ⟨bits, buf', rest, samples_of_bits host i hn hbits, h128, hbuf', ?_⟩
      rw [hfold, Outcome.andThen_running]
      by_cases hlt : l.chunks.length % 4 + 1 < 4
      · have hroom : ¬(received i bits buf' s).bufPos ≥ 512 := by
          simp only [received, h.bufPos]
          omega
        rw [if_pos hlt]
        exact if_neg hroom
      · have hroom : (received i bits buf' s).bufPos ≥ 512 := by
          simp only [received, h.bufPos]
          omega
        rw [if_neg hlt]
        exact if_pos hroom
    · have hbad : bits.length < 128 := by
        rw [hbits, List.length_append, List.length_map, List.length_cons] at h128
        omega
      rw [hbits, List.append_assoc, List.cons_append] at hbuf
      obtain ⟨buf', hfold⟩ := fold_convertChar_bad host i (s := { s with buf := buf }) hbad
        hbuf hlen hc
      rw [hfold, Outcome.andThen_stopped]
      exact .inl ⟨_, _, samples_of_bad host i hn hc hbits, rfl,
        h.whitened.delivered, h.processed, h.credited⟩
  · exact .inl ⟨_, _, if_pos hn, if_pos hn, h.whitened.delivered, h.processed, h.credited⟩

theorem acceptRead_simulates {host : Host} (hh : Assumed host) (i : Fin devices) (r : ReadResult)
    {s : State devices} {l : Ledger devices} (h : Tracks host s l) :
    Outcome.Simulates (Tracks host) (Final host) (acceptRead host i r s)
      (record host (.read i r) l) := by
  rw [record]
  obtain ⟨why, s', hsamples, hread, hfinal⟩ | ⟨bits, buf, rest, hsamples, hbits, hbuf, hread⟩ :=
    acceptRead_cases i r h
  · rw [hread, hsamples]
    exact .stopped why hfinal
  · rw [hread, hsamples]
    by_cases hlt : l.chunks.length % 4 + 1 < 4
    · rw [if_pos hlt]
      exact .running (received_tracks h hbits hbuf hlt)
    · obtain ⟨s', hrun, hs'⟩ := processBuffer_tracks hh h hbits (i := i) hbuf (by omega)
      rw [if_neg hlt, hrun]
      exact .running hs'

theorem step_simulates {host : Host} (hh : Assumed host) (e : Event devices) (s : State devices)
    (l : Ledger devices) (h : Tracks host s l) :
    Outcome.Simulates (Tracks host) (Final host) (step host e s) (record host e l) := by
  cases e with
  | tick rndcount => exact tick_simulates host rndcount h
  | read i r => exact acceptRead_simulates hh i r h

/-- The loop and the ledger run alike over every list of iterations. -/
theorem mainLoop_simulates {host : Host} (hh : Assumed host) (its : List (Iteration devices)) :
    Outcome.Simulates (Tracks host) (Final host) (mainLoop host its) (ledger host its) := by
  rw [mainLoop_eq, ledger]
  exact Outcome.Simulates.fold (step_simulates hh) _ (tracks_init host)

theorem mainLoop_of_feeds {host : Host} (hh : Assumed host) {its : List (Iteration devices)}
    {x : List Bool} (h : Feeds host its (x.map asciiChar)) :
    ∃ s, mainLoop host its = .running s ∧
      s.delivered = mixed ((blocks 512 x).flatMap amlsBits) := by
  obtain ⟨l, hl, -, hgroups⟩ := h.ledger
  have hrun := mainLoop_simulates hh its
  rw [hl] at hrun
  generalize mainLoop host its = o at hrun
  cases hrun with
  | running htracks => exact ⟨_, rfl, by rw [htracks.whitened.delivered, stream, hgroups]⟩

/-- The loop computes its output in one go from the chunks read before the first error: the
bytes delivered are the mix of the complete groups of the packed stream, whether the run goes
on or has stopped. It only stops where the ledger does, and never by a fault. When it is back
at its head, the cursors and the whitening buffer are those of the stream so far. -/
theorem mainLoop_refines_batch {host : Host} (hh : Assumed host)
    (its : List (Iteration devices)) :
    let chunks := (ledger host its).state.chunks
    let S := stream chunks
    ((mainLoop host its).state.delivered = (List.range (S.length / 8192)).flatMap fun g =>
      (List.range 512).map fun j => packLsb S (1024 * g + j) ^^^ packLsb S (1024 * g + 512 + j)) ∧
    (∀ why s, mainLoop host its = .stopped why s →
      ledger host its = .stopped why (ledger host its).state ∧
        ∃ status message, why = .exit status message) ∧
    ∀ s, mainLoop host its = .running s →
      ledger host its = .running (ledger host its).state ∧
      s.bufPos = 128 * (chunks.length % 4) ∧ s.bufWhitenedBit < 8 ∧
      8 * s.bufWhitenedPos + s.bufWhitenedBit = S.length % 8192 ∧
      ∀ q (h : q < 1024), s.bufWhitened[q] = packLsb (S.drop (S.length - S.length % 8192)) q := by
  have hrun := mainLoop_simulates hh its
  have hexit := exit_of_ledger_stopped host its
  dsimp only
  generalize mainLoop host its = o, ledger host its = o' at hrun hexit
  cases hrun with
  | running h =>
    refine ⟨h.whitened.delivered, (fun why s hs => by cases hs), fun s hs => ?_⟩
    cases hs
    refine ⟨rfl, h.bufPos, h.whitened.bit_lt, h.whitened.cursor, fun q hq => ?_⟩
    rw [h.whitened.bytes q hq, remainder]
    congr 2
    exact (Nat.sub_eq_of_eq_add (Nat.div_add_mod _ _).symm).symm
  | stopped why h =>
    refine ⟨h.delivered, fun why' s hs => ?_, (fun s hs => by cases hs)⟩
    cases hs
    cases hexit with
    | stopped hwhy => exact ⟨rfl, hwhy⟩

/-- Alternating samples, from which a complete group is extracted and output. -/
theorem mainLoop_refines_batch_alternating :
    ∃ s, mainLoop fileHost (feed ((alternating 8192).map asciiChar)) = .running s ∧
      512 ≤ s.delivered.length := by
  obtain ⟨hdelivered, hstop, -⟩ :=
    mainLoop_refines_batch assumed_fileHost (feed ((alternating 8192).map asciiChar))
  obtain ⟨l, hledger, -, hgroups⟩ := Feeds.ledger (feeds_feed fileHost
    (x := (alternating 8192).map asciiChar)
    (by rw [List.length_map, length_alternating]; decide))
  have hstream : 8192 ≤ (stream l.chunks).length := by
    rw [stream, hgroups]
    exact length_extracted_alternating (by decide)
  rw [hledger] at hdelivered hstop
  cases hrun : mainLoop fileHost (feed ((alternating 8192).map asciiChar)) with
  | stopped why s =>
    have hledgerStop := (hstop why s hrun).1
    cases hledgerStop
  | running s =>
    rw [hrun] at hdelivered
    have hmixed : s.delivered = mixed (stream l.chunks) := hdelivered
    refine ⟨s, rfl, ?_⟩
    rw [hmixed, length_mixed]
    omega

end K7nvhRng.DaemonRefinement
