import K7nvhRng.AmlsExactness
import K7nvhRng.ChunkConversion
import K7nvhRng.WhiteningBuffer

/-!
# The daemon as a ledger of chunks

The loop is driven by two kinds of events, statistics ticks and reads of a chunk. What
the daemon is for can be said about these events alone: chunks are collected until the
first error, every four of them are given to `amls`, the bits of all results form one
stream, and complete groups of 8192 bits of it are mixed and output. A tick reports
what has happened since the tick before it.
-/

namespace K7nvhRng.ChunkLedger
open AmlsArrays AmlsExactness BitPacking ListBlocks StoppableRuns DaemonLoop ChunkConversion
open WhiteningBuffer

variable {devices : ℕ}

/-! ### Events of the loop -/

inductive Event (devices : ℕ) where
  | tick (rndcount : Except SysError ℤ)
  | read (i : Fin devices) (r : ReadResult)

def step (host : Host) : Event devices → State devices → Run devices
  | .tick rndcount => tick host rndcount
  | .read i r => acceptRead host i r

/-- A device with fewer than 128 bytes available is passed over. -/
def Poll.events (i : Fin devices) (p : Poll) : List (Event devices) :=
  if p.numBytes ≥ 128 then [.read i p.read] else []

def Iteration.events (it : Iteration devices) : List (Event devices) :=
  (if it.testEnt then [.tick it.rndcount] else []) ++
    (List.finRange devices).flatMap fun i => Poll.events i (it.polls i)

theorem iterate_eq (host : Host) (it : Iteration devices) (s : State devices) :
    iterate host it s = Outcome.fold (step host) (Iteration.events it) s := by
  have hpoll : (fun i => readDevice host i (it.polls i)) =
      fun i => Outcome.fold (step host) (Poll.events i (it.polls i)) := by
    funext i t
    rw [readDevice, Poll.events]
    split
    · rw [Outcome.fold_singleton, step]
    · rfl
  rw [iterate, Iteration.events, Outcome.fold_append, hpoll]
  congr 1
  · split
    · rw [Outcome.fold_singleton, step]
    · rfl
  · funext t
    rw [Outcome.fold_flatMap]

theorem mainLoop_eq (host : Host) (its : List (Iteration devices)) :
    mainLoop host its =
      Outcome.fold (step host) (its.flatMap Iteration.events) (State.init devices) := by
  rw [Outcome.fold_flatMap, mainLoop]
  congr 1
  funext it s
  exact iterate_eq host it s

/-! ### The plain schedule of one device -/

def readOf (c : List Byte) : ReadResult := ⟨128, Vector.ofFn fun i => c.getD i 0#8, ⟨0, ""⟩⟩

/-- Read the complete chunks of `x` from one device, in one iteration each. -/
def feed (x : List Byte) : List (Iteration 1) :=
  (blocks 128 x).map fun c => ⟨false, .ok 0, fun _ => ⟨128, readOf c⟩⟩

def idleTick : Iteration 1 := ⟨true, .ok 0, fun _ => ⟨0, readOf []⟩⟩

theorem events_idleTick : Iteration.events idleTick = [.tick (.ok 0)] := by
  simp [Iteration.events, idleTick, Poll.events, List.finRange_succ]

theorem events_feed (x : List Byte) :
    (feed x).flatMap Iteration.events = (blocks 128 x).map fun c => .read 0 (readOf c) := by
  have hevents : ∀ c, Iteration.events ⟨false, .ok 0, fun _ : Fin 1 => ⟨128, readOf c⟩⟩ =
      [.read 0 (readOf c)] := by
    intro c
    simp [Iteration.events, Poll.events, List.finRange_succ]
  simp only [feed, List.flatMap_map, hevents]
  exact List.map_eq_flatMap.symm

theorem toList_readOf {c : List Byte} (hc : c.length = 128) : (readOf c).bytes.toList = c := by
  apply List.ext_getElem
  · simp [hc]
  · intro n h₁ h₂
    simp [readOf, List.getElem?_eq_getElem h₂]

/-! ### The ledger -/

/-- The chunks accepted so far, each with the device it came from. -/
abbrev History (devices : ℕ) := List (Fin devices × List Bool)

/-- The history now and at every tick so far. -/
structure Ledger (devices : ℕ) where
  chunks : History devices
  marks : List (History devices)

def Ledger.empty (devices : ℕ) : Ledger devices := ⟨[], []⟩

def Ledger.lastMark (l : Ledger devices) : History devices := l.marks.getLastD []

/-- The bits of a chunk, or the error it ends the run with: a `read` that does not deliver
128 bytes, or a character that is neither `0` nor `1`. -/
def samples (host : Host) (i : Fin devices) (r : ReadResult) : Except Stop (List Bool) :=
  if r.n ≠ 128 then .error (readFailure (host.deviceName i) r.n r.error)
  else match r.bytes.toList.find? fun c => (asciiBit c).isNone with
    | some c => .error (invalidInput (host.deviceName i) (host.charSign.promote c))
    | none => .ok (r.bytes.toList.filterMap asciiBit)

theorem find?_asciiChar (bits : List Bool) :
    (bits.map asciiChar).find? (fun c => (asciiBit c).isNone) = none := by
  simp

theorem samples_of_bits (host : Host) (i : Fin devices) {r : ReadResult} {bits : List Bool}
    (hn : r.n = 128) (hbits : r.bytes.toList = bits.map asciiChar) :
    samples host i r = .ok bits := by
  rw [samples, if_neg (not_not.mpr hn), hbits, find?_asciiChar]
  simp [List.filterMap_map]

theorem samples_readOf (host : Host) (i : Fin devices) {bits : List Bool}
    (hbits : bits.length = 128) : samples host i (readOf (bits.map asciiChar)) = .ok bits :=
  samples_of_bits host i rfl (toList_readOf (by rw [List.length_map, hbits]))

theorem samples_of_bad (host : Host) (i : Fin devices) {r : ReadResult} {bits : List Bool}
    {c : Byte} {rest : List Byte} (hn : r.n = 128) (hc : asciiBit c = none)
    (hbits : r.bytes.toList = bits.map asciiChar ++ c :: rest) :
    samples host i r = .error (invalidInput (host.deviceName i) (host.charSign.promote c)) := by
  have hfind : (bits.map asciiChar ++ c :: rest).find? (fun c => (asciiBit c).isNone) = some c := by
    rw [List.find?_append, find?_asciiChar, List.find?_cons, hc]
    rfl
  rw [samples, if_neg (not_not.mpr hn), hbits, hfind]

/-- The entropy pool of the kernel is only asked for when it is fed. -/
def poolError (host : Host) (rndcount : Except SysError ℤ) : Option Stop :=
  match host.sink, rndcount with
  | .linuxRandom, .error e =>
    some (.exit (-20) s!"Could not read the entropy count. Error {e.errno}: {e.text}")
  | _, _ => none

def record (host : Host) : Event devices → Ledger devices → Outcome Stop (Ledger devices)
  | .tick rndcount, l =>
    match poolError host rndcount with
    | some why => .stopped why l
    | none => .running { l with marks := l.marks ++ [l.chunks] }
  | .read i r, l =>
    match samples host i r with
    | .error why => .stopped why l
    | .ok bits => .running { l with chunks := l.chunks ++ [(i, bits)] }

/-- The ledger of a run of the loop, up to the first error. -/
def ledger (host : Host) (its : List (Iteration devices)) : Outcome Stop (Ledger devices) :=
  Outcome.fold (record host) (its.flatMap Iteration.events) (Ledger.empty devices)

private theorem exit_of_samples_error {host : Host} {i : Fin devices} {r : ReadResult} {why : Stop}
    (h : samples host i r = .error why) : ∃ status message, why = .exit status message := by
  unfold samples at h
  split_ifs at h
  · cases h
    exact ⟨_, _, rfl⟩
  · split at h
    · cases h
      exact ⟨_, _, rfl⟩
    · cases h

private theorem exit_of_poolError {host : Host} {rndcount : Except SysError ℤ} {why : Stop}
    (h : poolError host rndcount = some why) : ∃ status message, why = .exit status message := by
  unfold poolError at h
  split at h
  · cases h
    exact ⟨_, _, rfl⟩
  · cases h

/-- A ledger is only ended by an exit of the process. -/
theorem exit_of_ledger_stopped (host : Host) (its : List (Iteration devices)) :
    Outcome.Satisfies (fun _ => True) (fun why _ => ∃ status message, why = .exit status message)
      (ledger host its) := by
  refine Outcome.Satisfies.fold (fun e _ l _ => ?_) trivial
  cases e with
  | tick rndcount =>
    rw [record]
    split
    · next hpool => exact .stopped (exit_of_poolError hpool)
    · exact .running trivial
  | read i r =>
    rw [record]
    split
    · next hread => exact .stopped (exit_of_samples_error hread)
    · exact .running trivial

/-! ### What a history amounts to -/

def groups (cs : History devices) : List (List Bool) :=
  (blocks 4 (cs.map Prod.snd)).map List.flatten

def pending (cs : History devices) : List Bool := (remainder 4 (cs.map Prod.snd)).flatten

def stream (cs : History devices) : List Bool := (groups cs).flatMap amlsBits

@[simp] theorem pending_nil : pending ([] : History devices) = [] := by
  simp [pending, remainder]

@[simp] theorem groups_nil : groups ([] : History devices) = [] := by
  simp [groups, blocks]

@[simp] theorem stream_nil : stream ([] : History devices) = [] := by
  simp [stream]

theorem groups_append_of_lt {cs : History devices} (h : cs.length % 4 + 1 < 4)
    (c : Fin devices × List Bool) :
    groups (cs ++ [c]) = groups cs ∧ pending (cs ++ [c]) = pending cs ++ c.2 := by
  have h' : (cs.map Prod.snd).length % 4 + 1 < 4 := by rwa [List.length_map]
  obtain ⟨hb, hr⟩ := blocks_append_of_lt h' c.2
  simp [groups, pending, hb, hr]

theorem groups_append_of_eq {cs : History devices} (h : cs.length % 4 + 1 = 4)
    (c : Fin devices × List Bool) :
    groups (cs ++ [c]) = groups cs ++ [pending cs ++ c.2] ∧ pending (cs ++ [c]) = [] := by
  have h' : (cs.map Prod.snd).length % 4 + 1 = 4 := by rwa [List.length_map]
  obtain ⟨hb, hr⟩ := blocks_append_of_eq h' c.2
  simp [groups, pending, hb, hr]

theorem groups_mono {before now : History devices} (h : before <+: now) :
    groups before <+: groups now := by
  obtain ⟨cs, rfl⟩ := h
  induction cs using List.reverseRecOn with
  | nil => rw [List.append_nil]
  | append_singleton cs c ih =>
    rw [← List.append_assoc]
    rcases Nat.lt_or_ge ((before ++ cs).length % 4 + 1) 4 with hlt | hge
    · rwa [(groups_append_of_lt hlt c).1]
    · rw [(groups_append_of_eq (by omega) c).1]
      exact ih.trans (List.prefix_append _ _)

theorem stream_mono {before now : History devices} (h : before <+: now) :
    stream before <+: stream now := by
  obtain ⟨gs, hgs⟩ := groups_mono h
  exact ⟨gs.flatMap amlsBits, by rw [stream, stream, ← hgs, List.flatMap_append]⟩

/-- What happened between two points of a run, given by their histories: the bits produced,
the bytes output and the characters read from each device. -/
def interval (before now : History devices) : Report devices where
  numZeros := ((stream now).drop (stream before).length).count false
  numOnes := ((stream now).drop (stream before).length).count true
  entCount := ((mixed (stream now)).drop (mixed (stream before)).length).length
  deviceCounters := fun i b =>
    (((now.drop before.length).filter fun c => c.1 = i).flatMap Prod.snd).count b

theorem interval_self (cs : History devices) : interval cs cs = ⟨0, 0, 0, fun _ _ => 0⟩ := by
  simp [interval]

theorem interval_append {before now : History devices} (h : before <+: now)
    (c : Fin devices × List Bool) {bits : List Bool}
    (hbits : stream (now ++ [c]) = stream now ++ bits) :
    (interval before (now ++ [c])).numZeros = (interval before now).numZeros + bits.count false ∧
    (interval before (now ++ [c])).numOnes = (interval before now).numOnes + bits.count true ∧
    (interval before (now ++ [c])).entCount + (mixed (stream now)).length =
      (interval before now).entCount + (mixed (stream (now ++ [c]))).length ∧
    ∀ i b, (interval before (now ++ [c])).deviceCounters i b =
      (interval before now).deviceCounters i b + if i = c.1 then c.2.count b else 0 := by
  have hlen := (stream_mono h).length_le
  have hmixed : (mixed (stream before)).length ≤ (mixed (stream now)).length := by
    rw [length_mixed, length_mixed]
    exact Nat.mul_le_mul_left 512 (Nat.div_le_div_right hlen)
  have hmixed' : (mixed (stream now)).length ≤ (mixed (stream (now ++ [c]))).length := by
    rw [length_mixed, length_mixed, hbits, List.length_append]
    exact Nat.mul_le_mul_left 512 (Nat.div_le_div_right (Nat.le_add_right _ _))
  refine ⟨?_, ?_, ?_, ?_⟩
  · simp only [interval, hbits, List.drop_append_of_le_length hlen, List.count_append]
  · simp only [interval, hbits, List.drop_append_of_le_length hlen, List.count_append]
  · simp only [interval, List.length_drop]
    omega
  · intro i b
    simp only [interval, List.drop_append_of_le_length h.length_le, List.filter_append,
      List.flatMap_append, List.count_append]
    by_cases hi : i = c.1
    · simp [hi]
    · simp [hi, Ne.symm hi]

/-- One report for each tick, about the time since the tick before it. -/
def reportsOf (marks : List (History devices)) : List (Report devices) :=
  List.zipWith interval ([] :: marks) marks

theorem reportsOf_append (marks : List (History devices)) (m : History devices) :
    reportsOf (marks ++ [m]) = reportsOf marks ++ [interval (marks.getLastD []) m] := by
  have h : ∀ before : History devices, List.zipWith interval (before :: (marks ++ [m])) (marks ++ [m]) =
      List.zipWith interval (before :: marks) marks ++ [interval (marks.getLastD before) m] := by
    induction marks with
    | nil => intro before; rfl
    | cons a marks ih =>
      intro before
      simp only [List.cons_append, List.zipWith_cons_cons, ih a, List.getLastD_cons]
  exact h []

end K7nvhRng.ChunkLedger
