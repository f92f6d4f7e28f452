import K7nvhRng.CharSignedness
import K7nvhRng.DaemonRefinement
import K7nvhRng.FailingDeliveries

/-!
# Runs on every host

The ledger describes the loop on a host with signed characters, a stack for ten calls and a sink
that takes every byte. On a host where a delivery fails, the run is cut short. Where characters
are unsigned or the stack is smaller, `amls` does not return, and a run does not get past the
chunk that fills its buffer. So on every host a run that goes on is at the state that its ledger
tells, and none has output more than the blocks it has processed account for.
-/

namespace K7nvhRng.EveryHost
open CheckedArrays AmlsArrays AmlsRefinement CharSignedness ListBlocks StoppableRuns DaemonLoop
open WhiteningBuffer ChunkLedger DaemonRefinement FailingDeliveries

variable {devices : ℕ}

/-- Whether `amls` has the signedness and the stack that it needs to return. -/
def Returns (host : Host) : Prop := host.charSign = .signed ∧ 10 ≤ host.frames

instance (host : Host) : Decidable (Returns host) := inferInstanceAs (Decidable (_ ∧ _))

/-- What a run has output is covered by a run that has met no error. -/
def Covered (host : Host) (s : State devices) : Prop :=
  ∃ t l, Behind s t ∧ Final host t l

/-! ### Hosts on which `amls` does not return -/

private theorem covered_of_full {host : Host} {s : State devices} {l : Ledger devices}
    (h : Tracks host s l) (hfew : l.chunks.length < 4) {i : Fin devices} {bits : List Bool}
    {buf : Vector Byte 512}
    (hbuf : buf.toList = (pending l.chunks ++ bits).map bitChar)
    (heq : l.chunks.length % 4 + 1 = 4) :
    Covered host { received i bits buf s with processed := s.processed ++ [buf] } := by
  obtain ⟨hgroups, -⟩ := groups_append_of_eq heq (i, bits)
  have hnone : groups l.chunks = [] := by
    have hblocks : blocks 4 (l.chunks.map Prod.snd) = [] := by
      apply List.eq_nil_of_length_eq_zero
      rw [length_blocks, List.length_map]
      omega
    rw [groups, hblocks, List.map_nil]
  have hdelivered : s.delivered = [] := by
    rw [h.whitened.delivered, stream, hnone]
    rfl
  have hcredited : s.credited = 0 := by
    rw [h.credited, hdelivered, List.length_nil, Nat.mul_zero]
  have hblocks : (s.processed ++ [buf]).map Vector.toList =
      (groups (l.chunks ++ [(i, bits)])).map (List.map bitChar) := by
    rw [hgroups, List.map_append, List.map_append, h.processed, List.map_singleton,
      List.map_singleton, hbuf]
  refine ⟨{ received i bits buf s with
    processed := s.processed ++ [buf]
    delivered := mixed (stream (l.chunks ++ [(i, bits)]))
    credited := host.sink.credit * (mixed (stream (l.chunks ++ [(i, bits)]))).length },
    { l with chunks := l.chunks ++ [(i, bits)] }, ⟨rfl, ?_, ?_⟩, rfl, hblocks, rfl⟩
  · show s.delivered <+: _
    rw [hdelivered]
    exact List.nil_prefix
  · show s.credited ≤ _
    rw [hcredited]
    exact Nat.zero_le _

section
variable {host : Host} (hbad : ¬Returns host)
include hbad

theorem amls_overflows {buf : Vector Byte 512} {x : List Bool} (hx : buf.toList = x.map bitChar)
    (mallocs : ℕ) :
    amls host.charSign host.heap host.frames buf 512 mallocs = .error .stackOverflow := by
  have hlen : x.length = 512 := by
    rw [← List.length_map bitChar, ← hx, Vector.length_toList]
  cases hsign : host.charSign with
  | signed =>
    have hframes : host.frames ≤ 9 := by
      by_contra hlarge
      exact hbad ⟨hsign, by omega⟩
    have hpow : 2 ^ host.frames ≤ 2 ^ 9 := Nat.pow_le_pow_right Nat.two_pos hframes
    have hover := amls_shallow host.heap host.frames buf (x := x) mallocs
      (by rw [hx, ← List.length_map bitChar, List.take_length]) (by omega) (by omega)
      (by rw [hlen, amlsArrayLen])
    rwa [hlen] at hover
  | unsigned =>
    refine amls_unsigned host.heap host.frames mallocs (fun j hj => ?_) (by decide) (Nat.le_refl _)
    have hmem : buf[j] ∈ buf.toList := Vector.mem_toList_iff.mpr (Vector.getElem_mem hj)
    rw [hx] at hmem
    obtain ⟨b, -, hb⟩ := List.mem_map.mp hmem
    exact ⟨b, by rw [fetch_of_lt buf hj hj, hb]⟩

theorem processBuffer_overflows {s : State devices} {x : List Bool}
    (hx : s.buf.toList = x.map bitChar) :
    processBuffer host s =
      .stopped (.fault .stackOverflow) { s with processed := s.processed ++ [s.buf] } := by
  rw [processBuffer]
  simp only [amls_overflows hbad hx]
  rfl

theorem step_overflows (e : Event devices) {s : State devices} {l : Ledger devices}
    (h : Tracks host s l) (hfew : l.chunks.length < 4) :
    Outcome.Satisfies
      (fun s' => ∃ l', record host e l = .running l' ∧ Tracks host s' l' ∧ l'.chunks.length < 4)
      (fun _ s' => Covered host s') (step host e s) := by
  cases e with
  | tick rndcount =>
    have hsim := tick_simulates host rndcount h
    rw [step]
    generalize hrecord : record host (.tick rndcount) l = o at hsim
    generalize tick host rndcount s = o' at hsim ⊢
    cases hsim with
    | stopped why hs' => exact .stopped ⟨_, _, Behind.refl _, hs'⟩
    | @running s' l' hs' =>
      refine .running ⟨l', rfl, hs', ?_⟩
      rw [record] at hrecord
      split at hrecord
      · cases hrecord
      · cases hrecord
        exact hfew
  | read i r =>
    rw [step]
    obtain ⟨why, t, -, hread, hfinal⟩ | ⟨bits, buf, rest, hsamples, hbits, hbuf, hread⟩ :=
      acceptRead_cases i r h
    · rw [hread]
      exact .stopped ⟨_, _, Behind.refl _, hfinal⟩
    · rw [hread]
      by_cases hlt : l.chunks.length % 4 + 1 < 4
      · rw [if_pos hlt]
        refine .running ⟨_, by rw [record, hsamples], received_tracks h hbits hbuf hlt, ?_⟩
        simp only [List.length_append, List.length_singleton]
        omega
      · have heq : l.chunks.length % 4 + 1 = 4 := by omega
        have hfull := toList_of_full h.lengths hbits hbuf heq
        rw [if_neg hlt, processBuffer_overflows hbad hfull]
        exact .stopped (covered_of_full h hfew hfull heq)

end

/-! ### Hosts on which a delivery may fail -/

theorem tracks_reliable {host : Host} {s : State devices} {l : Ledger devices} :
    Tracks (reliable host) s l ↔ Tracks host s l :=
  ⟨fun h => ⟨h.lengths, h.mark, h.front, h.bufPos, h.whitened, h.processed, h.since, h.reports,
      h.credited⟩,
    fun h => ⟨h.lengths, h.mark, h.front, h.bufPos, h.whitened, h.processed, h.since, h.reports,
      h.credited⟩⟩

theorem Covered.of_final {host : Host} {s t : State devices} {l : Ledger devices}
    (hbehind : Behind s t) (h : Final (reliable host) t l) : Covered host s :=
  ⟨t, l, hbehind, h.delivered, h.processed, h.credited⟩

theorem step_returns {host : Host} (hgood : Returns host) (e : Event devices) {s : State devices}
    {l : Ledger devices} (h : Tracks host s l) :
    Outcome.Satisfies (fun s' => ∃ l', record host e l = .running l' ∧ Tracks host s' l')
      (fun _ s' => Covered host s') (step host e s) := by
  have hcut := step_cutShort host e s
  have hsim := step_simulates (assumed_reliable hgood.1 hgood.2) e s l (tracks_reliable.mpr h)
  rw [show record (reliable host) e l = record host e l from rfl] at hsim
  generalize step host e s = o, step (reliable host) e s = o', record host e l = o'' at hcut hsim ⊢
  cases hcut with
  | same =>
    cases hsim with
    | running hs' => exact .running ⟨_, rfl, tracks_reliable.mp hs'⟩
    | stopped why hs' => exact .stopped (.of_final (Behind.refl _) hs')
  | cut why hbehind =>
    cases hsim with
    | running hs' => exact .stopped (.of_final hbehind hs'.final)
    | stopped why' hs' => exact .stopped (.of_final hbehind hs')

/-! ### All hosts -/

def Reached (host : Host) (s : State devices) (l : Ledger devices) : Prop :=
  Tracks host s l ∧ (Returns host ∨ l.chunks.length < 4)

theorem reached_init (host : Host) : Reached host (State.init devices) (Ledger.empty devices) :=
  ⟨tracks_init host, .inr (by simp [Ledger.empty])⟩

theorem step_reached {host : Host} (e : Event devices) {s : State devices} {l : Ledger devices}
    (h : Reached host s l) :
    Outcome.Satisfies (fun s' => ∃ l', record host e l = .running l' ∧ Reached host s' l')
      (fun _ s' => Covered host s') (step host e s) := by
  obtain ⟨htracks, hcases⟩ := h
  by_cases hgood : Returns host
  · refine (step_returns hgood e htracks).imp fun s' hs' => ?_
    obtain ⟨l', hrecord, hl'⟩ := hs'
    exact ⟨l', hrecord, hl', .inl hgood⟩
  · refine (step_overflows hgood e htracks (hcases.resolve_left hgood)).imp fun s' hs' => ?_
    obtain ⟨l', hrecord, hl', hfew⟩ := hs'
    exact ⟨l', hrecord, hl', .inr hfew⟩

/-- On every host, a run that goes on is at the state that its ledger tells. -/
theorem mainLoop_tracks {host : Host} {its : List (Iteration devices)} {s : State devices}
    (hrun : mainLoop host its = .running s) :
    ∃ l, ledger host its = .running l ∧ Tracks host s l := by
  rw [mainLoop_eq] at hrun
  obtain ⟨l, hledger, hreached⟩ := Outcome.fold_running_of_step (R := Reached host)
    (fun e s l s' h hstep => by
      have hs' := step_reached e h
      rw [hstep] at hs'
      cases hs' with
      | running hs' => exact hs') (reached_init host) hrun
  exact ⟨l, hledger, hreached.1⟩

/-- On every host, what a run has output and credited is no more than a run without an error
would have done with the same blocks. -/
theorem mainLoop_covered (host : Host) (its : List (Iteration devices)) :
    Covered host (mainLoop host its).state := by
  have hrun : Outcome.Satisfies (fun s => ∃ l, Reached host s l) (fun _ s => Covered host s)
      (mainLoop host its) := by
    rw [mainLoop_eq]
    refine Outcome.Satisfies.fold (fun e _ s hs => ?_) ⟨_, reached_init host⟩
    obtain ⟨l, hl⟩ := hs
    refine (step_reached e hl).imp fun s' hs' => ?_
    obtain ⟨l', -, hl'⟩ := hs'
    exact ⟨l', hl'⟩
  generalize mainLoop host its = o at hrun ⊢
  cases hrun with
  | running h =>
    obtain ⟨l, hl⟩ := h
    exact ⟨_, l, Behind.refl _, hl.1.final⟩
  | stopped h => exact h

end K7nvhRng.EveryHost
