import K7nvhRng.EveryHost
import Mathlib.Data.Rat.Cast.Order

/-!
# The domain of the statistics

A tick divides by the number of bits that `amls` has produced since the tick before it and by
the number of characters read from each device, and takes logarithms of the fractions of zeros
and of ones. No value is tested. The counters are exact integers here; `CounterBounds` says for
how long the counters of type `int` do not differ from them.
-/

namespace K7nvhRng.StatisticsDomain
open StoppableRuns DaemonLoop WhiteningBuffer ChunkLedger DaemonRefinement EveryHost

variable {devices : ℕ}

/-- The values that the statistics block computes from a state are defined: no divisor
vanishes and both logarithms have positive arguments. -/
structure InDomain (s : State devices) : Prop where
  total : s.numOnes + s.numZeros ≠ 0
  device : ∀ i, s.deviceCounters i true + s.deviceCounters i false ≠ 0
  zeros : 0 < (s.numZeros : ℚ) / ((s.numZeros + s.numOnes : ℕ) : ℚ)
  ones : 0 < (s.numOnes : ℚ) / ((s.numZeros + s.numOnes : ℕ) : ℚ)

/-- Since the last tick every device has delivered a chunk, and the bits that `amls` has
produced from the blocks completed since then contain both a zero and a one. -/
structure Supplied (l : Ledger devices) : Prop where
  device : ∀ i, ∃ c ∈ l.chunks.drop l.lastMark.length, c.1 = i
  bits : ∀ b, b ∈ (stream l.chunks).drop (stream l.lastMark).length

theorem fraction_pos_iff {a n : ℕ} (h : a ≤ n) : 0 < (a : ℚ) / (n : ℚ) ↔ 0 < a := by
  constructor
  · intro hpos
    by_contra hzero
    obtain rfl : a = 0 := by omega
    simp at hpos
  · intro hpos
    have hn : 0 < n := by omega
    exact div_pos (Nat.cast_pos.mpr hpos) (Nat.cast_pos.mpr hn)

theorem deviceCounters_pos_iff {before now : History devices}
    (hlengths : ∀ c ∈ now, c.2.length = 128) (i : Fin devices) :
    (interval before now).deviceCounters i true + (interval before now).deviceCounters i false ≠ 0 ↔
      ∃ c ∈ now.drop before.length, c.1 = i := by
  simp only [interval, List.count_true_add_count_false]
  constructor
  · intro h
    by_contra hnone
    have hempty : ((now.drop before.length).filter fun c => c.1 = i) = [] :=
      List.filter_eq_nil_iff.mpr fun c hc => by simpa using fun hi => hnone ⟨c, hc, hi⟩
    rw [hempty] at h
    exact h rfl
  · rintro ⟨c, hc, rfl⟩ hzero
    have hnil : c.2 = [] := List.flatMap_eq_nil_iff.mp (List.eq_nil_of_length_eq_zero hzero) c
      (List.mem_filter.mpr ⟨hc, by simp⟩)
    have hlen := hlengths c (List.mem_of_mem_drop hc)
    rw [hnil] at hlen
    simp at hlen

/-- Whatever iteration comes next, its tick is inside the domain exactly when the interval
before it is supplied. -/
theorem inDomain_iff {host : Host} {its : List (Iteration devices)} {s : State devices}
    (hrun : mainLoop host its = .running s) :
    InDomain s ↔ Supplied (ledger host its).state := by
  obtain ⟨l, hledger, htracks⟩ := mainLoop_tracks hrun
  rw [hledger, Outcome.state_running]
  have hzeros : s.numZeros = (interval l.lastMark l.chunks).numZeros :=
    congrArg Report.numZeros htracks.since
  have hones : s.numOnes = (interval l.lastMark l.chunks).numOnes :=
    congrArg Report.numOnes htracks.since
  have hcounters : s.deviceCounters = (interval l.lastMark l.chunks).deviceCounters :=
    congrArg Report.deviceCounters htracks.since
  have hz : 0 < (s.numZeros : ℚ) / ((s.numZeros + s.numOnes : ℕ) : ℚ) ↔ 0 < s.numZeros :=
    fraction_pos_iff (by omega)
  have ho : 0 < (s.numOnes : ℚ) / ((s.numZeros + s.numOnes : ℕ) : ℚ) ↔ 0 < s.numOnes :=
    fraction_pos_iff (by omega)
  have hfalse : 0 < s.numZeros ↔ false ∈ (stream l.chunks).drop (stream l.lastMark).length := by
    rw [hzeros]
    exact List.count_pos_iff
  have htrue : 0 < s.numOnes ↔ true ∈ (stream l.chunks).drop (stream l.lastMark).length := by
    rw [hones]
    exact List.count_pos_iff
  constructor
  · intro h
    refine ⟨fun i => ?_, fun b => ?_⟩
    · have hi := h.device i
      rw [hcounters] at hi
      exact (deviceCounters_pos_iff htracks.lengths i).mp hi
    · cases b with
      | false => exact hfalse.mp (hz.mp h.zeros)
      | true => exact htrue.mp (ho.mp h.ones)
  · intro h
    have hpos := hfalse.mpr (h.bits false)
    refine ⟨by omega, fun i => ?_, hz.mpr hpos, ho.mpr (htrue.mpr (h.bits true))⟩
    rw [hcounters]
    exact (deviceCounters_pos_iff htracks.lengths i).mpr (h.device i)

/-- The statistics block of a run is only evaluated inside its domain exactly when every
interval between two ticks that it reaches is supplied. The counters are exact integers; those
of the program are while no interval is too long, see `CounterBounds`. -/
theorem statistics_in_domain_iff (host : Host) (its : List (Iteration devices)) :
    (∀ before it after s, its = before ++ it :: after → it.testEnt = true →
      mainLoop host before = .running s → InDomain s) ↔
    ∀ before it after s, its = before ++ it :: after → it.testEnt = true →
      mainLoop host before = .running s → Supplied (ledger host before).state := by
  constructor
  · intro h before it after s hits htick hrun
    exact (inDomain_iff hrun).mp (h before it after s hits htick hrun)
  · intro h before it after s hits htick hrun
    exact (inDomain_iff hrun).mpr (h before it after s hits htick hrun)

/-- A tick before the device has delivered anything divides by zero. -/
theorem idleTick_outside_domain :
    ¬∀ before it after s, [idleTick] = before ++ it :: after → it.testEnt = true →
      mainLoop fileHost before = .running s → InDomain s := by
  intro h
  exact (h [] idleTick [] (State.init 1) rfl rfl rfl).total rfl

end K7nvhRng.StatisticsDomain
