import K7nvhRng.EveryHost
import Mathlib.Algebra.BigOperators.Group.Finset.Basic
import Mathlib.Algebra.BigOperators.Group.List.Basic

/-!
# The statistics of a run

Every tick reports what has happened since the tick before it, and the reports together
with the counters still running account for everything that has happened. The counters
are exact integers here.
-/

namespace K7nvhRng.DaemonStatistics
open AmlsArrays ListBlocks StoppableRuns DaemonLoop ChunkConversion WhiteningBuffer ChunkLedger
open DaemonRefinement EveryHost

variable {devices : ℕ}

/-- A number that reports give for an interval, as the increase of a total. -/
structure Additive (f : Report devices → ℕ) (total : History devices → ℕ) : Prop where
  nil : total [] = 0
  add : ∀ before now, before <+: now → f (interval before now) + total before = total now

theorem additive_bits : Additive (fun r : Report devices => r.numZeros + r.numOnes)
    fun cs => (stream cs).length where
  nil := by simp
  add := by
    intro before now h
    have hlen := (stream_mono h).length_le
    have hcount := List.count_true_add_count_false ((stream now).drop (stream before).length)
    rw [List.length_drop] at hcount
    simp only [interval]
    omega

theorem additive_bytes : Additive (fun r : Report devices => r.entCount)
    fun cs => (mixed (stream cs)).length where
  nil := by simp [length_mixed]
  add := by
    intro before now h
    have hlen := Nat.div_le_div_right (c := 8192) (stream_mono h).length_le
    simp only [interval, List.length_drop, length_mixed]
    omega

private theorem sum_length_devices (cs : History devices) :
    ∑ i, ((cs.filter fun c => c.1 = i).flatMap Prod.snd).length =
      (cs.map fun c => c.2.length).sum := by
  induction cs with
  | nil => simp
  | cons c cs ih =>
    have hcons : ∀ i, (((c :: cs).filter fun c => c.1 = i).flatMap Prod.snd).length =
        (if c.1 = i then c.2.length else 0) +
          ((cs.filter fun c => c.1 = i).flatMap Prod.snd).length := by
      intro i
      by_cases hi : c.1 = i
      · simp [hi]
      · simp [hi]
    simp only [hcons, Finset.sum_add_distrib, ih, List.map_cons, List.sum_cons,
      Finset.sum_ite_eq, Finset.mem_univ, if_true]

theorem additive_samples :
    Additive (fun r : Report devices => ∑ i, (r.deviceCounters i false + r.deviceCounters i true))
      fun cs => (cs.map fun c => c.2.length).sum where
  nil := rfl
  add := by
    rintro before now ⟨cs, rfl⟩
    have hcount : ∀ i, (interval before (before ++ cs)).deviceCounters i false +
        (interval before (before ++ cs)).deviceCounters i true =
          ((cs.filter fun c => c.1 = i).flatMap Prod.snd).length := by
      intro i
      simp only [interval, List.drop_left]
      rw [Nat.add_comm, List.count_true_add_count_false]
    simp only [hcount, sum_length_devices, List.map_append, List.sum_append]
    omega

/-- The last tick lies in the past, and the reports so far add up to the totals then. -/
structure Consistent (l : Ledger devices) : Prop where
  mark : l.lastMark <+: l.chunks
  reports : ∀ f total, Additive f total → ((reportsOf l.marks).map f).sum = total l.lastMark

private theorem consistent_tick {l : Ledger devices} (h : Consistent l) :
    Consistent { l with marks := l.marks ++ [l.chunks] } := by
  have hlast : Ledger.lastMark { l with marks := l.marks ++ [l.chunks] } = l.chunks := by
    simp [Ledger.lastMark]
  refine ⟨by rw [hlast], fun f total hf => ?_⟩
  rw [hlast, reportsOf_append, List.map_append, List.sum_append, h.reports f total hf,
    List.map_singleton, List.sum_singleton, ← hf.add _ _ h.mark, Nat.add_comm]
  rfl

theorem consistent_ledger (host : Host) (its : List (Iteration devices)) :
    Outcome.Satisfies Consistent (fun _ _ => True) (ledger host its) := by
  refine Outcome.Satisfies.fold (fun e _ l h => ?_) ⟨List.prefix_rfl, fun f total hf => ?_⟩
  · cases e with
    | tick rndcount =>
      rw [record]
      split
      · exact .stopped trivial
      · exact .running (consistent_tick h)
    | read i r =>
      rw [record]
      split
      · exact .stopped trivial
      · exact .running ⟨h.mark.trans (List.prefix_append _ _), h.reports⟩
  · exact hf.nil.symm

theorem Consistent.total {l : Ledger devices} (h : Consistent l) {f : Report devices → ℕ}
    {total : History devices → ℕ} (hf : Additive f total) :
    ((reportsOf l.marks).map f).sum + f (interval l.lastMark l.chunks) = total l.chunks := by
  rw [h.reports f total hf, Nat.add_comm, hf.add _ _ h.mark]

/-- The counters of a run that has met no error. Each report counts the bits that `amls`
produced, the bytes output and the characters read from each device since the report before
it, and the counters of the state do so since the last one. Together they account for every
bit packed and every character read. -/
theorem statistics_conserved {host : Host} {its : List (Iteration devices)} {s : State devices}
    (hrun : mainLoop host its = .running s) :
    let l := (ledger host its).state
    s.reports = List.zipWith interval ([] :: l.marks) l.marks ∧
    ⟨s.numZeros, s.numOnes, s.entCount, s.deviceCounters⟩ =
      interval (l.marks.getLastD []) l.chunks ∧
    (s.reports.map fun r => r.numZeros + r.numOnes).sum + (s.numZeros + s.numOnes) =
      16 * ((s.reports.map fun r => r.entCount).sum + s.entCount) +
        8 * s.bufWhitenedPos + s.bufWhitenedBit ∧
    (s.reports.map fun r => ∑ i, (r.deviceCounters i false + r.deviceCounters i true)).sum +
        ∑ i, (s.deviceCounters i false + s.deviceCounters i true) =
      512 * s.processed.length + s.bufPos := by
  dsimp only
  have hcons := consistent_ledger host its
  obtain ⟨l, hledger, h⟩ := mainLoop_tracks hrun
  rw [hledger] at hcons
  rw [hledger, Outcome.state_running]
  obtain ⟨hcons⟩ := hcons
  have hsince := h.since
  have hbits := hcons.total additive_bits
  have hbytes := hcons.total additive_bytes
  have hsamples := hcons.total additive_samples
  simp only [← hsince, ← h.reports, counters] at hbits hbytes hsamples
  refine ⟨h.reports, hsince, ?_, ?_⟩
  · have hcursor := h.whitened.cursor
    rw [hbits, hbytes, length_mixed]
    omega
  · have hlens := List.map_congr_left h.lengths
    have hblocks := congrArg List.length h.processed
    simp only [groups, List.length_map, length_blocks] at hblocks
    rw [hsamples, hlens, List.map_const', List.sum_replicate_nat, h.bufPos, hblocks]
    omega

private theorem interval_chunk (i : Fin devices) (bits : List Bool) (b : Bool) :
    (interval [] [(i, bits)]).deviceCounters i b = bits.count b := by
  simp [interval]

/-- A chunk of ones and then a tick: the tick reports 128 ones of the device, and no count is
left behind. -/
theorem statistics_conserved_ones :
    ∃ s, mainLoop fileHost (feed ((List.replicate 128 true).map asciiChar) ++ [idleTick]) =
        .running s ∧
      s.reports.map (fun r => (r.deviceCounters 0 false, r.deviceCounters 0 true)) = [(0, 128)] ∧
      s.deviceCounters 0 true = 0 := by
  have hledger : ledger fileHost (feed ((List.replicate 128 true).map asciiChar) ++ [idleTick]) =
      .running ⟨[(0, List.replicate 128 true)], [[(0, List.replicate 128 true)]]⟩ := by
    rw [ledger, List.flatMap_append, events_feed, blocks_of_length_eq (by decide) (by simp),
      List.flatMap_singleton, events_idleTick, List.map_singleton, List.singleton_append,
      Outcome.fold_cons, record, samples_readOf _ _ List.length_replicate]
    rfl
  have hsim := mainLoop_simulates assumed_fileHost
    (feed ((List.replicate 128 true).map asciiChar) ++ [idleTick])
  rw [hledger] at hsim
  cases hrun : mainLoop fileHost (feed ((List.replicate 128 true).map asciiChar) ++ [idleTick]) with
  | stopped why s =>
    rw [hrun] at hsim
    cases hsim
  | running s =>
    obtain ⟨hreports, hcounters, -⟩ := statistics_conserved hrun
    rw [hledger] at hreports hcounters
    refine ⟨s, rfl, ?_, ?_⟩
    · rw [hreports, Outcome.state_running, List.zipWith_cons_cons, List.zipWith_nil_right,
        List.map_singleton, interval_chunk, interval_chunk, List.count_replicate_self,
        List.count_replicate, if_neg (by decide)]
    · have hlast : [[((0 : Fin 1), List.replicate 128 true)]].getLastD [] =
          [(0, List.replicate 128 true)] := rfl
      rw [Outcome.state_running, hlast, interval_self] at hcounters
      exact congrArg (fun r : Report 1 => r.deviceCounters 0 true) hcounters

end K7nvhRng.DaemonStatistics
