import K7nvhRng.DaemonRefinement
import K7nvhRng.FailingDeliveries
import K7nvhRng.LogRecursion

/-!
# The output up to the first byte that cannot be delivered

When the sink refuses a byte, the process logs that and ends with the status of that sink. Until
then it has done what it does on a host where every delivery succeeds: the bytes that have been
output are those in front of the refused one, and none of them is missing or repeated. The exit
waits for the log, which may fail in its turn.
-/

namespace K7nvhRng.DeliveryPrefix
open PeresExtractor AmlsArrays AmlsExactness CheckedArrays ListBlocks StoppableRuns DaemonLoop
open ChunkConversion WhiteningBuffer ChunkLedger DaemonRefinement DeviceInput FailingDeliveries
open LogRecursion

variable {devices : ℕ}

/-- The number of the first byte that is refused, and why. -/
structure FirstRefused (host : Host) (n : ℕ) (e : SysError) : Prop where
  refused : host.deliveryError n = some e
  before : ∀ k < n, host.deliveryError k = none

/-- The run of the host is that of the reliable one up to the refused byte. -/
abbrev Cut (host : Host) (n : ℕ) (e : SysError) : Run devices → Run devices → Prop :=
  Outcome.CutAt State.delivered n (host.sink.failure e)

/-! ### The output only grows -/

abbrev Extends : State devices → State devices → Prop := Outcome.Extends State.delivered

theorem grows_of_behind {f : State devices → Run devices} (h : Outcome.Grows Behind f) :
    Outcome.Grows Extends f := fun s => (h s).2.1

theorem extends_checked {α : Type} (x : Except Fault α) {s₀ s : State devices}
    {f : α → Run devices} (hs : Extends s₀ s) (hf : ∀ a, Extends s₀ (f a).state) :
    Extends s₀ (checked x s f).state := by
  cases x with
  | ok a => exact hf a
  | error _ => exact hs

def SameOutput (s t : State devices) : Prop := t.delivered = s.delivered

private theorem convertChar_sameOutput (host : Host) (i : Fin devices) (j : ℕ) :
    Outcome.Grows SameOutput (convertChar host i j) := by
  intro s
  rw [SameOutput, convertChar]
  cases load s.buf (s.bufPos + j) with
  | error _ => rfl
  | ok c =>
    rw [checked_ok]
    split_ifs
    · rfl
    · cases store s.buf (s.bufPos + j) (toChar 0) <;> rfl
    · cases store s.buf (s.bufPos + j) (toChar 1) <;> rfl

theorem SameOutput.refl (s : State devices) : SameOutput s s := rfl

theorem SameOutput.trans (s t u : State devices) (h : SameOutput s t) (h' : SameOutput t u) :
    SameOutput s u :=
  Eq.trans h' h

theorem convert_sameOutput (host : Host) (i : Fin devices) (js : List ℕ) :
    Outcome.Grows SameOutput (Outcome.fold (convertChar host i) js) :=
  Outcome.Grows.fold SameOutput.refl SameOutput.trans (convertChar_sameOutput host i) js

theorem SameOutput.extends {s t : State devices} (h : SameOutput s t) : Extends s t := by
  rw [SameOutput] at h
  rw [Extends, Outcome.Extends, h]

theorem tick_sameOutput (host : Host) (rndcount : Except SysError ℤ) :
    Outcome.Grows SameOutput (tick host rndcount : State devices → Run devices) := by
  intro s
  unfold tick
  cases host.sink with
  | linuxRandom => cases rndcount <;> rfl
  | fileOutput => rfl
  | appleRandom => rfl

theorem processBuffer_extends (host : Host) :
    Outcome.Grows Extends (processBuffer host : State devices → Run devices) := by
  intro s
  refine extends_checked _ (Outcome.Extends.refl _ s) fun r => ?_
  exact Outcome.Grows.andThen Outcome.Extends.trans
    (grows_of_behind (packLoop_grows host r.1 512 0)) (fun t => Outcome.Extends.refl _ t)
    { s with processed := s.processed ++ [s.buf], mallocs := r.2 }

def accepted (host : Host) (s : State devices) : Run devices :=
  if s.bufPos + 128 ≥ 512 then processBuffer host { s with bufPos := s.bufPos + 128 }
  else .running { s with bufPos := s.bufPos + 128 }

theorem accepted_extends (host : Host) :
    Outcome.Grows Extends (accepted host : State devices → Run devices) := by
  intro s
  rw [accepted]
  split
  · exact processBuffer_extends host { s with bufPos := s.bufPos + 128 }
  · exact Outcome.Extends.refl _ s

theorem acceptRead_eq (host : Host) (i : Fin devices) (r : ReadResult) (s : State devices) :
    acceptRead host i r s = checked (storeBytes s.buf s.bufPos r.bytes) s fun buf =>
      if r.n ≠ 128 then
        .stopped (readFailure (host.deviceName i) r.n r.error) { s with buf := buf }
      else (Outcome.fold (convertChar host i) (List.range 128) { s with buf := buf }).andThen
        (accepted host) := rfl

theorem step_extends (host : Host) (e : Event devices) : Outcome.Grows Extends (step host e) := by
  intro s
  cases e with
  | tick rndcount =>
    exact (tick_sameOutput host rndcount s).extends
  | read i r =>
    rw [step, acceptRead_eq]
    refine extends_checked _ (Outcome.Extends.refl _ s) fun buf => ?_
    split
    · exact Outcome.Extends.refl _ s
    · exact Outcome.Grows.andThen Outcome.Extends.trans
        (fun t => (convert_sameOutput host i (List.range 128) t).extends) (accepted_extends host)
        { s with buf := buf }

/-! ### Comparison with the reliable host -/

section Cut
variable {host : Host} {n : ℕ} {e : SysError}

theorem cut_checked {α : Type} (x : Except Fault α) {s : State devices} {f g : α → Run devices}
    (hs : s.delivered.length ≤ n) (h : ∀ a, Cut host n e (f a) (g a)) :
    Cut host n e (checked x s f) (checked x s g) := by
  cases x with
  | ok a => exact h a
  | error _ => exact .same hs

theorem cut_ite {p : Prop} [Decidable p] {a a' b b' : Run devices} (h : p → Cut host n e a a')
    (h' : ¬p → Cut host n e b b') : Cut host n e (if p then a else b) (if p then a' else b') := by
  split
  · exact h ‹_›
  · exact h' ‹_›

variable (hn : FirstRefused host n e)
include hn

private theorem deliver_cut (value : Byte) {s : State devices} (hs : s.delivered.length ≤ n) :
    Cut host n e (deliver host value s) (deliver (reliable host) value s) := by
  rcases Nat.lt_or_eq_of_le hs with hlt | heq
  · rw [deliver, deliver, hn.before _ hlt]
    refine .same ?_
    simpa [Outcome.state] using hlt
  · rw [deliver, heq, hn.refused]
    refine .cut ?_ ?_
    · simp [deliver, reliable, Outcome.state, ← heq]
    · simp [deliver, reliable, Outcome.state, ← heq]

private theorem mixByte_cut (l : ℕ) {s : State devices} (hs : s.delivered.length ≤ n) :
    Cut host n e (mixByte host l s) (mixByte (reliable host) l s) :=
  cut_checked _ hs fun _ => cut_checked _ hs fun _ => deliver_cut hn _ hs

private theorem flush_cut {s : State devices} (hs : s.delivered.length ≤ n) :
    Cut host n e (flush host s) (flush (reliable host) s) :=
  (Outcome.CutAt.fold (fun l _ ht => mixByte_cut hn l ht)
    (fun l => grows_of_behind (mixByte_grows _ l)) _ hs).andThen (fun _ ht => .same ht)
    fun _ => List.prefix_rfl

private theorem packBit_cut (r : Byte) {s : State devices} (hs : s.delivered.length ≤ n) :
    Cut host n e (packBit host r s) (packBit (reliable host) r s) := by
  have hcount : (countBit host.charSign r s).delivered.length ≤ n := by
    rw [countBit]
    split <;> exact hs
  refine cut_checked _ hcount fun c => cut_checked _ hcount fun bw => ?_
  have hpacked : (advance { countBit host.charSign r s with bufWhitened := bw }).delivered.length ≤
      n := by
    rw [advance]
    split <;> exact hcount
  exact cut_ite (fun _ => flush_cut hn hpacked) fun _ => .same hpacked

private theorem packLoop_cut (r : Block) (m k : ℕ) {s : State devices}
    (hs : s.delivered.length ≤ n) :
    Cut host n e (packLoop host r m k s) (packLoop (reliable host) r m k s) := by
  induction m generalizing k s with
  | zero => exact .same hs
  | succ m ih =>
    refine cut_checked _ hs fun c => cut_ite (fun _ => .same hs) fun _ => ?_
    exact (packBit_cut hn c hs).andThen (fun t ht => ih (k + 1) ht)
      (grows_of_behind (packLoop_grows _ r m (k + 1)))

theorem processBuffer_cut {s : State devices} (hs : s.delivered.length ≤ n) :
    Cut host n e (processBuffer host s) (processBuffer (reliable host) s) :=
  cut_checked _ hs fun r => by
    have hloop := packLoop_cut hn r.1 512 0
      (s := { s with processed := s.processed ++ [s.buf], mallocs := r.2 }) hs
    exact hloop.andThen (fun t ht => .same ht) fun t => Outcome.Extends.refl _ t

private theorem accepted_cut {s : State devices} (hs : s.delivered.length ≤ n) :
    Cut host n e (accepted host s) (accepted (reliable host) s) :=
  cut_ite (fun _ => processBuffer_cut hn hs) fun _ => .same hs

theorem step_cut (ev : Event devices) {s : State devices} (hs : s.delivered.length ≤ n) :
    Cut host n e (step host ev s) (step (reliable host) ev s) := by
  cases ev with
  | tick rndcount =>
    have htick := tick_sameOutput host rndcount s
    exact .same (by rw [step, htick]; exact hs)
  | read i r =>
    rw [step, step, acceptRead_eq, acceptRead_eq]
    refine cut_checked _ hs fun buf => cut_ite (fun _ => .same hs) fun _ => ?_
    have hconvert := convert_sameOutput host i (List.range 128) { s with buf := buf }
    have hfold : Cut host n e (Outcome.fold (convertChar host i) (List.range 128) { s with buf := buf })
        (Outcome.fold (convertChar (reliable host) i) (List.range 128) { s with buf := buf }) :=
      .same (by rw [hconvert]; exact hs)
    exact hfold.andThen (fun t ht => accepted_cut hn ht) (accepted_extends _)

/-- The run on the host and the run on the reliable host. -/
theorem mainLoop_cut (its : List (Iteration devices)) :
    Cut host n e (mainLoop host its) (mainLoop (reliable host) its) := by
  rw [mainLoop_eq, mainLoop_eq]
  exact Outcome.CutAt.fold (fun ev _ hs => step_cut hn ev hs) (step_extends _) _ (Nat.zero_le n)

end Cut

/-! ### How the process ends -/

/-- What follows when the loop is left for a reason: the message is composed in `logmessage` and
logged, and only then the process exits. -/
def conclude (log : LogHost) (frames : ℕ) (t : LogState) : Stop → Outcome LogStop LogState
  | .exit status message =>
    if message.utf8ByteSize ≥ 1000 then .stopped (.fault (.badIndex 1000)) t
    else (logMessage log frames message t).andThen fun t => .stopped (exitCleanup log status) t
  | .fault f => .stopped (.fault f) t

theorem conclude_of_firstSuccess {log : LogHost} {frames k : ℕ} {t : LogState} {status : ℤ}
    {message : String} (hfits : message.utf8ByteSize < 1000)
    (hk : FirstSuccess log message t.writes k) (hframes : k < frames) :
    conclude log frames t (.exit status message) =
      .stopped (exitCleanup log (if k = 0 then status else -12)) (afterSuccess log message t k) := by
  rw [conclude, if_neg (Nat.not_le.mpr hfits), logMessage_of_firstSuccess hk frames hframes]
  cases k with
  | zero =>
    have hsuccess : log.writeError t.writes = none := hk.success
    rw [hsuccess]
    rfl
  | succ k =>
    obtain ⟨e, he⟩ := Option.ne_none_iff_exists'.mp (hk.failures 0 (by omega))
    rw [Nat.add_zero] at he
    rw [he]
    rfl

theorem exit_of_assumed {host : Host} (hh : Assumed host) {its : List (Iteration devices)}
    {why : Stop} {s : State devices} (h : mainLoop host its = .stopped why s) :
    ∃ status message, why = .exit status message := by
  have hsim := mainLoop_simulates hh its
  have hexit := exit_of_ledger_stopped host its
  rw [h] at hsim
  generalize ledger host its = o at hsim hexit
  cases hsim with
  | stopped _ _ =>
    cases hexit with
    | stopped hwhy => exact hwhy

theorem exit_of_failure (sink : Sink) (e : SysError) :
    ∃ status message, sink.failure e = .exit status message := by
  cases sink <;> exact ⟨_, _, rfl⟩

/-- With signed characters and a stack for ten calls nothing but an exit ends the loop: no access
leaves its array, whichever deliveries fail. -/
theorem mainLoop_exits {host : Host} (hsigned : host.charSign = .signed)
    (hframes : 10 ≤ host.frames) {its : List (Iteration devices)} {why : Stop} {s : State devices}
    (h : mainLoop host its = .stopped why s) : ∃ status message, why = .exit status message := by
  by_cases hall : ∀ n, host.deliveryError n = none
  · exact exit_of_assumed ⟨hsigned, hframes, hall⟩ h
  · have hsome : ∃ n, host.deliveryError n ≠ none := not_forall.mp hall
    obtain ⟨e, he⟩ := Option.ne_none_iff_exists'.mp (Nat.find_spec hsome)
    have hfirst : FirstRefused host (Nat.find hsome) e :=
      ⟨he, fun k hk => not_not.mp (Nat.find_min hsome hk)⟩
    have hcut := mainLoop_cut hfirst its
    rw [h] at hcut
    generalize hreliable : mainLoop (reliable host) its = o at hcut
    cases hcut with
    | same _ => exact exit_of_assumed (assumed_reliable hsigned hframes) hreliable
    | cut _ _ => exact exit_of_failure host.sink e

/-- If the sink refuses byte `n` and none before it, then the daemon runs as on a host that
refuses none until there is a byte more than `n` to output. It then leaves the loop for the exit
of its sink, and has output the first `n` bytes. It ends with the status of this exit if the
message about it can be logged at once, and with -12 if a later write to the log succeeds. -/
theorem output_up_to_refused {host : Host} {n : ℕ} {e : SysError} (hn : FirstRefused host n e)
    (its : List (Iteration devices)) :
    ((mainLoop (reliable host) its).state.delivered.length ≤ n →
      mainLoop host its = mainLoop (reliable host) its) ∧
    (n < (mainLoop (reliable host) its).state.delivered.length →
      ∃ s status message, host.sink.failure e = .exit status message ∧
        mainLoop host its = .stopped (.exit status message) s ∧
        s.delivered = (mainLoop (reliable host) its).state.delivered.take n ∧
        ∀ (log : LogHost) (frames k : ℕ) (t : LogState), message.utf8ByteSize < 1000 →
          FirstSuccess log message t.writes k → k < frames →
          conclude log frames t (.exit status message) =
            .stopped (exitCleanup log (if k = 0 then status else -12))
              (afterSuccess log message t k)) := by
  obtain ⟨status, message, hfailure⟩ := exit_of_failure host.sink e
  have hcut := mainLoop_cut hn its
  rw [Cut, hfailure] at hcut
  generalize mainLoop host its = o, mainLoop (reliable host) its = o' at hcut
  cases hcut with
  | same h => exact ⟨fun _ => rfl, fun hlt => absurd h (Nat.not_le.mpr hlt)⟩
  | cut hs hlt =>
    refine ⟨fun hle => absurd hlt (Nat.not_lt.mpr hle), fun _ => ?_⟩
    exact ⟨_, status, message, hfailure, rfl, hs, fun log frames k t hfits hk hframes =>
      conclude_of_firstSuccess hfits hk hframes⟩

def fullDisk : Host :=
  { fileHost with
    deliveryError := fun n => if n = 100 then some ⟨28, "No space left on device"⟩ else none }

private theorem firstRefused_fullDisk : FirstRefused fullDisk 100 ⟨28, "No space left on device"⟩ :=
  ⟨rfl, fun k hk => if_neg (by omega)⟩

def emptyLog : LogHost := ⟨4, 3, 5, 100, fun _ => "2015-01-01 00:00:00", fun _ => none⟩

theorem output_up_to_refused_fullDisk :
    ∃ s message, mainLoop fullDisk (feed ((alternating 8192).map asciiChar)) =
        .stopped (.exit (-15) message) s ∧ s.delivered.length = 100 ∧
      conclude emptyLog 1 ⟨0, []⟩ (.exit (-15) message) =
        .stopped (.exit (-15) [4, 3, 5]) ⟨1, [logentry emptyLog 0 message]⟩ := by
  have hfeeds : Feeds (reliable fullDisk) (feed ((alternating 8192).map asciiChar))
      ((alternating 8192).map asciiChar) := by
    apply feeds_feed
    rw [List.length_map, length_alternating]
    decide
  obtain ⟨t, hrun, hdelivered⟩ := mainLoop_of_feeds (assumed_reliable rfl (Nat.le_refl 10)) hfeeds
  have hlong : 512 ≤ t.delivered.length := by
    have hlen := length_extracted_alternating (n := 8192) (by decide)
    rw [hdelivered, length_mixed]
    omega
  obtain ⟨-, hcut⟩ :=
    output_up_to_refused firstRefused_fullDisk (feed ((alternating 8192).map asciiChar))
  rw [hrun, Outcome.state_running] at hcut
  obtain ⟨s, status, message, hfailure, hstop, hs, hend⟩ := hcut (by omega)
  cases hfailure
  refine ⟨s, _, hstop, by rw [hs, List.length_take]; omega, ?_⟩
  refine hend emptyLog 1 0 ⟨0, []⟩ (by decide) ⟨rfl, by omega, fun j hj => ?_⟩ (by decide)
  obtain rfl : j = 0 := by omega
  exact ⟨by decide, by omega⟩

end K7nvhRng.DeliveryPrefix
