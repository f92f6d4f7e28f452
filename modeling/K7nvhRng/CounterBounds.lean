import K7nvhRng.DaemonStatistics

/-!
# The counters stay small

The counters of the statistics are of type `int`. How large they get between two ticks is
decided by the samples that are read in that time: `amls` returns no more bits than it is given,
and the mix turns sixteen of them into a byte. What was in the buffers at the tick before adds a
constant.
-/

namespace K7nvhRng.CounterBounds
open AmlsArrays AmlsRefinement AmlsExactness ListBlocks StoppableRuns DaemonLoop ChunkConversion
open WhiteningBuffer ChunkLedger DaemonRefinement DeviceInput EveryHost DaemonStatistics

variable {devices : ℕ}

def Report.samples (r : Report devices) : ℕ :=
  ∑ i, (r.deviceCounters i false + r.deviceCounters i true)

structure Bounded (r : Report devices) : Prop where
  bits : r.numZeros + r.numOnes ≤ Report.samples r + 384
  bytes : 16 * r.entCount ≤ r.numZeros + r.numOnes + 8191

private theorem length_amlsBits_le {b : List Bool} (hb : b.length = 512) :
    (amlsBits b).length ≤ 512 := by
  rw [amlsBits_eq_peres hb.le]
  exact (length_peres_le b).trans hb.le

private theorem length_of_mem_groups {cs : History devices} (h : ∀ c ∈ cs, c.2.length = 128)
    {g : List Bool} (hg : g ∈ groups cs) : g.length = 512 := by
  obtain ⟨b, hb, rfl⟩ := List.mem_map.mp hg
  have hmem : ∀ c ∈ b, c.length = 128 := by
    intro c hc
    have hflat : c ∈ (blocks 4 (cs.map Prod.snd)).flatten := List.mem_flatten.mpr ⟨b, hb, hc⟩
    have hall : c ∈ cs.map Prod.snd := by
      rw [← flatten_blocks 4 (cs.map Prod.snd)]
      exact List.mem_append_left _ hflat
    obtain ⟨d, hd, rfl⟩ := List.mem_map.mp hall
    exact h d hd
  rw [length_flatten_of_forall hmem, length_of_mem_blocks hb]

private theorem length_flatMap_amlsBits_le {gs : List (List Bool)} (h : ∀ g ∈ gs, g.length = 512) :
    (gs.flatMap amlsBits).length ≤ 512 * gs.length := by
  induction gs with
  | nil => simp
  | cons g gs ih =>
    obtain ⟨hg, hgs⟩ := List.forall_mem_cons.mp h
    have hfirst := length_amlsBits_le hg
    have hrest := ih hgs
    rw [List.flatMap_cons, List.length_append, List.length_cons]
    omega

private theorem length_stream_le {before now : History devices} (h : before <+: now)
    (hlen : ∀ c ∈ now, c.2.length = 128) :
    (stream now).length ≤ (stream before).length + 512 * (now.length / 4 - before.length / 4) := by
  obtain ⟨gs, hgs⟩ := groups_mono h
  have hcount : gs.length = now.length / 4 - before.length / 4 := by
    have hlengths := congrArg List.length hgs
    simp only [groups, List.length_append, List.length_map, length_blocks] at hlengths
    omega
  have hmem : ∀ g ∈ gs, g.length = 512 := by
    intro g hg
    apply length_of_mem_groups hlen
    rw [← hgs]
    exact List.mem_append_right _ hg
  have hnew := length_flatMap_amlsBits_le hmem
  rw [stream, stream, ← hgs, List.flatMap_append, List.length_append]
  omega

theorem sum_lengths {cs : History devices} (h : ∀ c ∈ cs, c.2.length = 128) :
    (cs.map fun c => c.2.length).sum = 128 * cs.length := by
  rw [List.map_congr_left h, List.map_const', List.sum_replicate_nat, Nat.mul_comm]

theorem bounded_interval {before now : History devices} (h : before <+: now)
    (hlen : ∀ c ∈ now, c.2.length = 128) : Bounded (interval before now) := by
  have hlen' : ∀ c ∈ before, c.2.length = 128 := fun c hc => hlen c (h.mem hc)
  have hbits := additive_bits.add before now h
  have hbytes := additive_bytes.add before now h
  have hsamples := additive_samples.add before now h
  have hstream := length_stream_le h hlen
  have hmore := h.length_le
  simp only [length_mixed] at hbits hbytes
  rw [sum_lengths hlen, sum_lengths hlen'] at hsamples
  constructor
  · rw [Report.samples]
    omega
  · omega

private theorem length_of_samples {host : Host} {i : Fin devices} {r : ReadResult}
    {bits : List Bool} (h : samples host i r = .ok bits) : bits.length = 128 := by
  by_cases hn : r.n = 128
  · rcases ascii_cases r.bytes.toList with ⟨bits', hbits⟩ | ⟨bits', c, rest, hc, hbits⟩
    · rw [samples_of_bits host i hn hbits] at h
      cases h
      have hlen := congrArg List.length hbits
      rw [Vector.length_toList, List.length_map] at hlen
      exact hlen.symm
    · rw [samples_of_bad host i hn hc hbits] at h
      cases h
  · rw [samples, if_pos hn] at h
    cases h

/-- The reports so far are bounded, and so is the one that would be made next. -/
structure Reported (l : Ledger devices) : Prop where
  lengths : ∀ c ∈ l.chunks, c.2.length = 128
  mark : l.lastMark <+: l.chunks
  reports : ∀ r ∈ reportsOf l.marks, Bounded r

private theorem reported_tick {l : Ledger devices} (h : Reported l) :
    Reported { l with marks := l.marks ++ [l.chunks] } where
  lengths := h.lengths
  mark := by simp [Ledger.lastMark]
  reports := by
    intro r hr
    rw [reportsOf_append] at hr
    rcases List.mem_append.mp hr with hr | hr
    · exact h.reports r hr
    · rw [List.mem_singleton.mp hr]
      exact bounded_interval h.mark h.lengths

private theorem reported_read {l : Ledger devices} (h : Reported l) (i : Fin devices)
    {bits : List Bool} (hbits : bits.length = 128) :
    Reported { l with chunks := l.chunks ++ [(i, bits)] } where
  lengths := by
    intro c hc
    rcases List.mem_append.mp hc with hc | hc
    · exact h.lengths c hc
    · rw [List.mem_singleton.mp hc]
      exact hbits
  mark := h.mark.trans (List.prefix_append _ _)
  reports := h.reports

private theorem reported_ledger (host : Host) (its : List (Iteration devices)) :
    Outcome.Satisfies Reported (fun _ _ => True) (ledger host its) := by
  apply Outcome.Satisfies.fold
  · intro e _ l h
    cases e with
    | tick rndcount =>
      rw [record]
      split
      · exact .stopped trivial
      · exact .running (reported_tick h)
    | read i r =>
      rw [record]
      split
      · exact .stopped trivial
      · rename_i bits hbits
        exact .running (reported_read h i (length_of_samples hbits))
  · exact ⟨by simp [Ledger.empty], List.prefix_rfl, by simp [Ledger.empty, reportsOf]⟩

/-- In every report, and in the counters since the last one, the bits that `amls` has produced
exceed the samples read by 384 at most, and sixteen times the bytes output exceed these bits by
8191 at most. So the counters of type `int` do not overflow while fewer than 2 ^ 31 - 384 samples
are read between two ticks. -/
theorem counters_bounded {host : Host} {its : List (Iteration devices)} {s : State devices}
    (hrun : mainLoop host its = .running s) :
    ∀ r ∈ s.reports ++ [counters s],
      r.numZeros + r.numOnes ≤ Report.samples r + 384 ∧
      16 * r.entCount ≤ r.numZeros + r.numOnes + 8191 ∧
      (Report.samples r < 2 ^ 31 - 384 → r.numZeros + r.numOnes < 2 ^ 31 ∧ r.entCount < 2 ^ 31) := by
  obtain ⟨l, hledger, h⟩ := mainLoop_tracks hrun
  have hreported := reported_ledger host its
  rw [hledger] at hreported
  obtain ⟨hreported⟩ := hreported
  intro r hr
  have hbounded : Bounded r := by
    rw [h.reports, h.since] at hr
    rcases List.mem_append.mp hr with hr | hr
    · exact hreported.reports r hr
    · rw [List.mem_singleton.mp hr]
      exact bounded_interval hreported.mark hreported.lengths
  have hbits := hbounded.bits
  have hbytes := hbounded.bytes
  refine ⟨hbits, hbytes, fun hsamples => ⟨?_, ?_⟩⟩
  · omega
  · omega

/-- Alternating samples and then a tick, which reports extracted bits. -/
theorem counters_bounded_alternating :
    ∃ s, mainLoop fileHost (feed ((alternating 8192).map asciiChar) ++ [idleTick]) = .running s ∧
      (∃ r ∈ s.reports, 0 < r.numZeros + r.numOnes) ∧
      ∀ r ∈ s.reports, r.numZeros + r.numOnes ≤ Report.samples r + 384 ∧
        16 * r.entCount ≤ r.numZeros + r.numOnes + 8191 := by
  have hfeeds := feeds_feed fileHost (x := (alternating 8192).map asciiChar)
    (by rw [List.length_map, length_alternating]; decide)
  obtain ⟨l, hledger, -, hgroups⟩ := hfeeds.ledger
  obtain ⟨s, hrun, -⟩ := mainLoop_of_feeds assumed_fileHost hfeeds
  obtain ⟨l', hledger', htracks⟩ := mainLoop_tracks hrun
  obtain rfl : l' = l := Outcome.running.inj (hledger'.symm.trans hledger)
  have htick : ∃ t, mainLoop fileHost (feed ((alternating 8192).map asciiChar) ++ [idleTick]) =
      .running t ∧ t.reports = s.reports ++ [counters s] := by
    rw [mainLoop_eq] at hrun ⊢
    rw [List.flatMap_append, Outcome.fold_append, hrun, List.flatMap_singleton, events_idleTick]
    exact ⟨_, rfl, rfl⟩
  obtain ⟨t, ht, hreports⟩ := htick
  have hbounded := counters_bounded ht
  refine ⟨t, ht, ?_, fun r hr => ?_⟩
  · have hconsistent := consistent_ledger fileHost (feed ((alternating 8192).map asciiChar))
    rw [hledger] at hconsistent
    obtain ⟨hconsistent⟩ := hconsistent
    have htotal := hconsistent.total additive_bits
    have hextracted : 8192 ≤ (stream l'.chunks).length := by
      rw [stream, hgroups]
      exact length_extracted_alternating (by decide)
    rw [← htracks.reports, ← htracks.since] at htotal
    by_contra hnone
    have hzero : ∀ r ∈ s.reports ++ [counters s], r.numZeros + r.numOnes = 0 := fun r hr =>
      Nat.eq_zero_of_not_pos fun hpos => hnone ⟨r, hreports ▸ hr, hpos⟩
    obtain ⟨hold, hnew⟩ := List.forall_mem_append.mp hzero
    have hsum : (s.reports.map fun r => r.numZeros + r.numOnes).sum = 0 :=
      List.sum_eq_zero fun n hn => by
        obtain ⟨r, hr, rfl⟩ := List.mem_map.mp hn
        exact hold r hr
    have hlast := hnew _ (List.mem_singleton_self _)
    omega
  · obtain ⟨hbits, hbytes, -⟩ := hbounded r (List.mem_append_left _ hr)
    exact ⟨hbits, hbytes⟩

end K7nvhRng.CounterBounds
