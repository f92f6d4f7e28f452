import K7nvhRng.DaemonStartup

/-!
# The descriptors during the start-up

When the three standard descriptors are in use at the start, the log and the PID file get
numbers that the daemon does not close with the standard ones, the devices get the numbers
set free, and no handle is zero. Otherwise the log gets a number that is closed again, and
the first message behind the devices cannot be written.
-/

namespace K7nvhRng.StartupDescriptors
open StoppableRuns DaemonLoop LogRecursion DescriptorTable SerialSettings DaemonStartup

/-- None of the files of the daemon is open yet. -/
def Inherited (t : Table File) : Prop := ∀ n f, t.file n = some f → ∃ k, f = .inherited k

def StandardInUse (t : Table File) : Prop := ∀ n < 3, t.file n ≠ none

theorem Inherited.owns {t : Table File} (h : Inherited t) {f : File} (hf : ∀ k, f ≠ .inherited k) :
    Owns t 0 f := by
  intro n
  refine ⟨fun hn => ?_, fun hzero => absurd hzero.1 (Int.lt_irrefl 0)⟩
  obtain ⟨k, hk⟩ := h n f hn
  exact absurd hk (hf k)

variable (host : StartHost) (answers : Statement → Answer)

/-! ### Up to the standard descriptors -/

theorem orderly_init {t : Table File} (ht : Inherited t) : Orderly (Process.init t) :=
  ⟨ht.owns (by simp), ht.owns (by simp), ht.owns (by simp)⟩

def withLogFile (p : Process) : Process :=
  { p with table := p.table.opened .log, logFileHandle := p.table.lowest }

def withPidFile (p : Process) : Process :=
  { p with table := p.table.opened .pid, pidFileHandle := p.table.lowest }

def withoutStandard (p : Process) : Process :=
  { p with table := ((p.table.closed 0).closed 1).closed 2 }

def daemonized (t : Table File) : Process :=
  withoutStandard (withPidFile (withLogFile (Process.init t)))

theorem effects_daemonize (t : Table File) :
    effects host answers daemonize (Process.init t) = daemonized t := rfl

theorem lowest_withLogFile {t : Table File} (hstd : StandardInUse t) : 3 ≤ (t.opened .log).lowest :=
  Table.lt_lowest fun n hn => Table.file_opened_ne_none (hstd n hn)

section Standard
variable {t : Table File} (ht : Inherited t) (hstd : StandardInUse t)
include ht hstd

theorem orderly_withLogFile : Orderly (withLogFile (Process.init t)) := by
  have hlow : 3 ≤ t.lowest := Table.lt_lowest hstd
  obtain ⟨hlog, hpid, hsink⟩ := orderly_init ht
  exact ⟨owns_opened hlog (Nat.lt_of_lt_of_le (by omega) hlow), hpid.opened (by simp),
    hsink.opened (by simp)⟩

theorem orderly_withPidFile : Orderly (withPidFile (withLogFile (Process.init t))) := by
  have hlow := lowest_withLogFile hstd
  obtain ⟨hlog, hpid, hsink⟩ := orderly_withLogFile ht hstd
  exact ⟨hlog.opened (by simp), owns_opened hpid (Nat.lt_of_lt_of_le (by omega) hlow),
    hsink.opened (by simp)⟩

theorem daemonize_admissible : Admissible host answers daemonize (Process.init t) := by
  have h₀ := orderly_init ht
  have h₁ := orderly_withLogFile ht hstd
  have h₂ := orderly_withPidFile ht hstd
  have hlow : 3 ≤ t.lowest := Table.lt_lowest hstd
  have hlog : 0 < (withLogFile (Process.init t)).logFileHandle :=
    Int.natCast_pos.mpr (Nat.lt_of_lt_of_le (by omega) hlow)
  exact ⟨h₀, trivial, h₀, trivial, h₀, rfl, h₁, hlog, h₁, trivial, h₁, trivial, h₁, rfl, h₂,
    trivial, h₂, trivial, h₂, trivial, trivial⟩

end Standard

/-! ### The devices -/

/-- The `j`-th argument is open under exactly one descriptor, which is its handle. -/
def DeviceOpen (p : Process) (j : ℕ) : Prop :=
  ∃ n : ℕ, p.entFileHandles (j - 1) = n ∧ ∀ k, p.table.file k = some (.device j) ↔ k = n

/-- The `j`-th argument has been configured, and its counters are zero. -/
structure DeviceReady (p : Process) (j : ℕ) : Prop where
  settings : p.settings (j - 1) =
    some (configure host.constants (answers (.getAttributes j)).attributes)
  dtr : p.dtr (j - 1) = some (decide (host.platform = .linux))
  counters : ∀ b, p.deviceCounters (j - 1) b = some 0

/-- The process between two devices, when the first `i` of them are open. -/
structure Serving (i : ℕ) (p : Process) : Prop where
  orderly : Orderly p
  logOpen : 0 < p.logFileHandle
  pidOpen : 0 < p.pidFileHandle
  sinkClosed : p.outFileHandle = 0
  deviceOpen : ∀ j, 1 ≤ j → j ≤ i → DeviceOpen p j
  ready : ∀ j, 1 ≤ j → j ≤ i → DeviceReady host answers p j
  unopened : ∀ j n, i < j → p.table.file n ≠ some (.device j)
  zeroInUse : 1 ≤ i → p.table.file 0 ≠ none

theorem serving_daemonized {t : Table File} (ht : Inherited t) (hstd : StandardInUse t) :
    Serving host answers 0 (daemonized t) := by
  have hlow : 3 ≤ t.lowest := Table.lt_lowest hstd
  have hlow' := lowest_withLogFile hstd
  obtain ⟨hlog, hpid, hsink⟩ := orderly_withPidFile ht hstd
  have hL : (withPidFile (withLogFile (Process.init t))).logFileHandle = t.lowest := rfl
  have hP : (withPidFile (withLogFile (Process.init t))).pidFileHandle = (t.opened .log).lowest := rfl
  have hS : (withPidFile (withLogFile (Process.init t))).outFileHandle = 0 := rfl
  constructor
  case orderly =>
    exact ⟨((hlog.closed (by omega)).closed (by omega)).closed (by omega),
      ((hpid.closed (by omega)).closed (by omega)).closed (by omega),
      ((hsink.closed (by omega)).closed (by omega)).closed (by omega)⟩
  case logOpen => exact Int.natCast_pos.mpr (Nat.lt_of_lt_of_le (by omega) hlow)
  case pidOpen => exact Int.natCast_pos.mpr (Nat.lt_of_lt_of_le (by omega) hlow')
  case sinkClosed => rfl
  case deviceOpen | ready => omega
  case unopened =>
    intro j n _ hopen
    have hboth : Table.file (Table.opened .pid (t.opened .log)) n = some (.device j) :=
      Table.file_of_closed (Table.file_of_closed (Table.file_of_closed hopen))
    rw [Table.file_opened_eq_some_iff (by simp), Table.file_opened_eq_some_iff (by simp)] at hboth
    obtain ⟨k, hk⟩ := ht n _ hboth
    cases hk
  case zeroInUse => omega

def withDevice (i : ℕ) (p : Process) : Process :=
  { p with
    table := p.table.opened (.device i)
    entFileHandles := Function.update p.entFileHandles (i - 1) p.table.lowest
    deviceCounters := Function.update p.deviceCounters (i - 1) fun _ => some 0
    tty := configure host.constants (answers (.getAttributes i)).attributes
    settings := Function.update p.settings (i - 1)
      (some (configure host.constants (answers (.getAttributes i)).attributes))
    dtr := Function.update (Function.update p.dtr (i - 1) (some (decide (host.platform = .apple))))
      (i - 1) (some (decide (host.platform = .linux))) }

theorem effects_deviceStatements (i : ℕ) (p : Process) :
    effects host answers (deviceStatements i) p = withDevice host answers i p := rfl

variable {host answers}

theorem Orderly.withDevice {p : Process} (h : Orderly p) (i : ℕ) :
    Orderly (withDevice host answers i p) :=
  ⟨h.log.opened (by simp), h.pid.opened (by simp), h.sink.opened (by simp)⟩

/-- The statements for a device do not look at the handles of the other files. -/
theorem Serving.admissible {i : ℕ} {p : Process} (h : Serving host answers i p) (k : ℕ) :
    Admissible host answers (deviceStatements k) p := by
  have hopened : Owns (p.table.opened (.device k)) p.logFileHandle .log ∧
      Owns (p.table.opened (.device k)) p.pidFileHandle .pid ∧
      Owns (p.table.opened (.device k)) p.outFileHandle .sink :=
    ⟨h.orderly.log.opened (by simp), h.orderly.pid.opened (by simp), h.orderly.sink.opened (by simp)⟩
  obtain ⟨hlog, hpid, hsink⟩ := hopened
  exact ⟨h.orderly, trivial, ⟨hlog, hpid, hsink⟩, trivial, ⟨hlog, hpid, hsink⟩, trivial,
    ⟨hlog, hpid, hsink⟩, trivial, ⟨hlog, hpid, hsink⟩, trivial, trivial⟩

theorem Serving.withDevice {i : ℕ} {p : Process} (h : Serving host answers i p) :
    Serving host answers (i + 1) (withDevice host answers (i + 1) p) := by
  constructor
  case orderly => exact Orderly.withDevice h.orderly (i + 1)
  case logOpen => exact h.logOpen
  case pidOpen => exact h.pidOpen
  case sinkClosed => exact h.sinkClosed
  case deviceOpen =>
    intro j hj hle
    by_cases hnew : j = i + 1
    · subst hnew
      refine ⟨p.table.lowest, by simp [StartupDescriptors.withDevice], fun k => ?_⟩
      exact Table.file_opened_self_iff (fun n => h.unopened (i + 1) n (Nat.lt_succ_self i)) k
    · obtain ⟨n, hn, hfile⟩ := h.deviceOpen j hj (by omega)
      refine ⟨n, ?_, fun k => ?_⟩
      · have hne : j - 1 ≠ i + 1 - 1 := by omega
        rw [← hn]
        exact Function.update_of_ne hne _ _
      · rw [← hfile k]
        exact Table.file_opened_eq_some_iff (by simp [Ne.symm hnew]) p.table k
  case ready =>
    intro j hj hle
    by_cases hnew : j = i + 1
    · subst hnew
      constructor
      · exact Function.update_self _ _ _
      · exact Function.update_self _ _ _
      · intro b
        simp [StartupDescriptors.withDevice]
    · obtain ⟨hsettings, hdtr, hcounters⟩ := h.ready j hj (by omega)
      have hne : j - 1 ≠ i + 1 - 1 := by omega
      constructor
      · rw [← hsettings]
        exact Function.update_of_ne hne _ _
      · rw [← hdtr]
        exact (Function.update_of_ne hne _ _).trans (Function.update_of_ne hne _ _)
      · intro b
        rw [← hcounters b]
        exact congrFun (Function.update_of_ne hne _ _) b
  case unopened =>
    intro j n hj hopen
    have hfile : Table.file (p.table.opened (.device (i + 1))) n = some (.device j) := hopen
    rw [Table.file_opened_eq_some_iff (by simp; omega)] at hfile
    exact h.unopened j n (by omega) hfile
  case zeroInUse =>
    intro _
    exact Table.file_zero_opened_ne_none _ _

theorem Serving.devices {p : Process} (h : Serving host answers 0 p) (k : ℕ) :
    Admissible host answers ((List.range' 1 k).flatMap deviceStatements) p ∧
      Serving host answers k
        (effects host answers ((List.range' 1 k).flatMap deviceStatements) p) := by
  induction k with
  | zero => exact ⟨trivial, h⟩
  | succ k ih =>
    rw [List.range'_1_concat, List.flatMap_append, List.flatMap_singleton, effects_append,
      effects_deviceStatements, Nat.add_comm 1 k]
    exact ⟨admissible_append host answers ih.1 (ih.2.admissible (k + 1)), ih.2.withDevice⟩

/-! ### The output -/

def withSink (p : Process) : Process :=
  { p with table := p.table.opened .sink, outFileHandle := p.table.lowest }

private theorem effects_finish (p : Process) : effects host answers finish p = withSink p := rfl

/-- Since the first device has taken a standard descriptor, the handle of the output is not
zero. -/
theorem Serving.lowest_pos {i : ℕ} {p : Process} (h : Serving host answers i p) (hi : 1 ≤ i) :
    0 < p.table.lowest :=
  Table.lt_lowest fun n hn => by
    obtain rfl : n = 0 := by omega
    exact h.zeroInUse hi

theorem Serving.orderly_withSink {i : ℕ} {p : Process} (h : Serving host answers i p)
    (hi : 1 ≤ i) : Orderly (withSink p) :=
  ⟨h.orderly.log.opened (by simp), h.orderly.pid.opened (by simp),
    owns_opened (h.sinkClosed ▸ h.orderly.sink) (h.lowest_pos hi)⟩

theorem Serving.finish {i : ℕ} {p : Process} (h : Serving host answers i p) (hi : 1 ≤ i) :
    Admissible host answers finish p :=
  ⟨h.orderly, h.logOpen, h.orderly, h.sinkClosed, h.orderly_withSink hi, h.logOpen,
    h.orderly_withSink hi, h.logOpen, trivial⟩

theorem Serving.deviceOpen_withSink {i j : ℕ} {p : Process} (h : Serving host answers i p)
    (hj : 1 ≤ j) (hle : j ≤ i) : DeviceOpen (withSink p) j := by
  obtain ⟨n, hn, hfile⟩ := h.deviceOpen j hj hle
  exact ⟨n, hn, fun k => (Table.file_opened_eq_some_iff (by simp) p.table k).trans (hfile k)⟩

variable (host answers)

/-- The process in front of the output file, if nothing has ended it. -/
def served (t : Table File) : Process :=
  effects host answers (host.indices.flatMap deviceStatements) (daemonized t)

private theorem effects_program (t : Table File) :
    effects host answers (program host) (Process.init t) = withSink (served host answers t) := by
  rw [program, effects_append, effects_append, effects_daemonize, effects_finish, served]

theorem serving_served {t : Table File} (ht : Inherited t) (hstd : StandardInUse t) :
    Serving host answers host.devices.length (served host answers t) :=
  ((serving_daemonized host answers ht hstd).devices host.devices.length).2

theorem program_admissible {t : Table File} (ht : Inherited t) (hstd : StandardInUse t)
    (hdevices : host.devices ≠ []) : Admissible host answers (program host) (Process.init t) := by
  have hlen : 1 ≤ host.devices.length := List.length_pos_iff.mpr hdevices
  refine admissible_append host answers (admissible_append host answers
    (daemonize_admissible host answers ht hstd) ?_) ?_
  · rw [effects_daemonize]
    exact ((serving_daemonized host answers ht hstd).devices host.devices.length).1
  · rw [effects_append, effects_daemonize]
    exact (serving_served host answers ht hstd).finish hlen

theorem startUp_of_no_devices (hnone : host.devices = []) (p : Process) :
    startUp host answers p = perform host (answers .checkArguments) .checkArguments p := by
  have hfew : host.argc < 2 := by simp [StartHost.argc, hnone]
  have hprogram : program host = .checkArguments :: (program host).tail := rfl
  rw [startUp, hprogram, Outcome.fold_cons, perform, if_pos hfew]
  rfl

theorem startUp_clean {t : Table File} (ht : Inherited t) (hstd : StandardInUse t) :
    Outcome.Satisfies (fun _ => True) Clean (startUp host answers (Process.init t)) := by
  by_cases hdevices : host.devices = []
  · rw [startUp_of_no_devices host answers hdevices]
    exact perform_clean host _ (orderly_init ht) trivial
  · exact fold_clean host answers (program_admissible host answers ht hstd hdevices)

/-- However the calls of the system and the writes to the log turn out, an exit during the
start-up has closed the log, the PID file and the output, as far as they were open. -/
theorem startUp_exits_clean {t : Table File} (ht : Inherited t) (hstd : StandardInUse t)
    {status : ℤ} {closed : List ℤ} {q : Process}
    (h : startUp host answers (Process.init t) = .stopped (.exit status closed) q) (n : ℕ) :
    q.table.file n ≠ some .log ∧ q.table.file n ≠ some .pid ∧ q.table.file n ≠ some .sink := by
  have hclean := startUp_clean host answers ht hstd
  rw [h] at hclean
  cases hclean with
  | stopped hq => exact hq n

def oneDevice : StartHost where
  platform := .linux
  constants := ⟨0, 0, 0, 0, 0, 0, 0, 0, 0, 0, 0, 0⟩
  fileOutput := true
  program := "k7nvh_rng"
  devices := ["/dev/rngUSB0"]
  pid := 100
  frames := 10
  timestr := fun _ => "2015-01-01 00:00:00"
  writeError := fun _ => none

def terminal : Table File := [some (.inherited 0), some (.inherited 1), some (.inherited 2)]

theorem inherited_terminal : Inherited terminal := by
  intro n f h
  match n with
  | 0 | 1 | 2 =>
    cases h
    exact ⟨_, rfl⟩
  | n + 3 => cases h

theorem standardInUse_terminal : StandardInUse terminal := by
  intro n hn
  match n with
  | 0 | 1 | 2 => simp [terminal, Table.file]

/-- Everything succeeds but the lock, which another daemon holds. -/
def lockHeld (st : Statement) : Answer :=
  ⟨if st = .lockPidFile then some ⟨11, "Resource temporarily unavailable"⟩ else none, false,
    ⟨0, 0, 0, 0⟩⟩

theorem startUp_exits_clean_locked :
    ∃ closed q, startUp oneDevice lockHeld (Process.init terminal) = .stopped (.exit (-6) closed) q ∧
      ∀ n, q.table.file n ≠ some .log ∧ q.table.file n ≠ some .pid ∧ q.table.file n ≠ some .sink :=
  ⟨_, _, rfl, fun n =>
    startUp_exits_clean oneDevice lockHeld inherited_terminal standardInUse_terminal rfl n⟩

/-! ### When a standard descriptor is free -/

private theorem logMessage_ne_running {host : LogHost} {s : LogState} {e : SysError}
    (he : host.writeError s.writes = some e) (frames : ℕ) (message : String) (l : LogState) :
    logMessage host frames message s ≠ .running l := by
  cases frames with
  | zero => simp [logMessage]
  | succ frames =>
    rw [logMessage]
    split
    · simp
    · rw [he]
      dsimp only
      split
      · simp
      · cases logMessage host frames (logmessage e) ⟨s.writes + 1, s.log⟩ <;> simp

/-- The log has the number `k`, under which nothing can be written. -/
def LogLost (k : ℕ) (p : Process) : Prop :=
  p.logFileHandle = k ∧ (p.table.file k = none ∨ ∃ j, p.table.file k = some (.device j))

variable {host answers}

theorem LogLost.withDevice {k : ℕ} {p : Process} (h : LogLost k p) (i : ℕ) :
    LogLost k (withDevice host answers i p) := by
  refine ⟨h.1, ?_⟩
  have hfile : (StartupDescriptors.withDevice host answers i p).table.file k =
      if k = p.table.lowest then some (.device i) else p.table.file k := Table.file_opened _ _ k
  rw [hfile]
  split
  · exact .inr ⟨i, rfl⟩
  · exact h.2

theorem LogLost.devices {k : ℕ} {p : Process} (h : LogLost k p) (is : List ℕ) :
    LogLost k (effects host answers (is.flatMap deviceStatements) p) := by
  induction is generalizing p with
  | nil => exact h
  | cons i is ih =>
    rw [List.flatMap_cons, effects_append, effects_deviceStatements]
    exact ih (h.withDevice i)

theorem LogLost.log_ne_running {k : ℕ} {p : Process} (h : LogLost k p) (message : String)
    (q : Process) : log host message p ≠ .running q := by
  have hfile : p.fileOf p.logFileHandle = p.table.file k := by
    rw [Process.fileOf, h.1, if_pos (Int.natCast_nonneg k), Int.toNat_natCast]
  have hbad : (logHost host p).writeError p.log.writes = some badDescriptor := by
    rcases h.2 with hnone | ⟨j, hdevice⟩
    · simp [logHost, hfile, hnone, writeErrorOf]
    · simp [logHost, hfile, hdevice, writeErrorOf]
  intro hrun
  rw [log] at hrun
  split at hrun
  · rename_i l hlog
    exact logMessage_ne_running hbad host.frames message l hlog
  · cases hrun
  · cases hrun

/-- If one of the standard descriptors is free, the log takes the lowest of them, and loses it
with the standard descriptors. -/
theorem logLost_daemonized {t : Table File} {n : ℕ} (hn : n < 3) (hfree : t.file n = none) :
    LogLost t.lowest (daemonized t) := by
  have hlow : t.lowest < 3 := Nat.lt_of_le_of_lt (Table.lowest_le hfree) hn
  refine ⟨rfl, .inl ?_⟩
  have htable : (daemonized t).table =
      (((Table.opened .pid (t.opened .log)).closed 0).closed 1).closed 2 := rfl
  rw [htable]
  simp only [Table.file_closed]
  split_ifs
  · rfl
  · rfl
  · rfl
  · omega

private theorem announceSink_running {a : Answer} {p q : Process}
    (h : perform host a .announceSink p = .running q) :
    ∃ message, log host message p = .running q := by
  rw [perform, logFormatted] at h
  split at h
  · split at h
    · cases h
    · exact ⟨_, h⟩
  · exact ⟨_, h⟩

theorem startUp_split {t : Table File} {q : Process}
    (h : startUp host answers (Process.init t) = .running q) :
    ∃ l r, perform host (answers .announceSink) .announceSink
      ((served host answers t).withLog l) = .running r := by
  rw [startUp, program, Outcome.fold_append] at h
  cases hserved : Outcome.fold (fun st => perform host (answers st) st)
      (daemonize ++ host.indices.flatMap deviceStatements) (Process.init t) with
  | stopped why r =>
    rw [hserved] at h
    cases h
  | running r =>
    obtain ⟨l, rfl⟩ := fold_running host answers hserved
    rw [effects_append, effects_daemonize] at hserved
    rw [hserved, Outcome.andThen_running, finish, Outcome.fold_cons] at h
    cases hsink : perform host (answers .announceSink) .announceSink
        ((served host answers t).withLog l) with
    | running r => exact ⟨l, r, hsink⟩
    | stopped why r =>
      rw [← served, hsink] at h
      cases h

theorem standardInUse_of_running {t : Table File} {q : Process}
    (h : startUp host answers (Process.init t) = .running q) : StandardInUse t := by
  intro n hn hfree
  obtain ⟨l, r, hsink⟩ := startUp_split h
  obtain ⟨message, hlog⟩ := announceSink_running hsink
  have hlost : LogLost t.lowest (served host answers t) := (logLost_daemonized hn hfree).devices _
  exact LogLost.log_ne_running (p := (served host answers t).withLog l) hlost message r hlog

theorem devices_of_running {p q : Process} (h : startUp host answers p = .running q) :
    host.devices ≠ [] := by
  intro hnone
  rw [startUp_of_no_devices host answers hnone, perform,
    if_pos (by simp [StartHost.argc, hnone])] at h
  cases h

/-! ### When the loop is reached -/

/-- The call of a statement succeeds, and `fork` has returned in the child. -/
def Succeeds (a : Answer) : Statement → Prop
  | .checkArguments | .closeStandard => True
  | .announceStarting | .announceSink | .announceEstimation | .announceStarted => True
  | .fork => a.error = none ∧ a.inParent = false
  | _ => a.error = none

/-- The log can be written, and the texts of the daemon fit in their arrays. -/
structure LogWorks (host : StartHost) : Prop where
  writes : ∀ n, host.writeError n = none
  frames : 0 < host.frames
  times : ∀ n, (host.timestr n).utf8ByteSize < 30
  pid : (pidText host.pid).utf8ByteSize < 10

theorem failFormatted_ne_running (host : StartHost) (status : ℤ) (message : String)
    (p q : Process) :
    failFormatted host status message p ≠ .running q := by
  rw [failFormatted, logFormatted]
  split
  · simp
  · exact fail_ne_running host status message p q

theorem succeeds_of_running {a : Answer} {st : Statement} {p q : Process}
    (h : perform host a st p = .running q) : Succeeds a st := by
  obtain ⟨error, inParent, attributes⟩ := a
  cases error with
  | none =>
    cases st with
    | fork =>
      refine ⟨rfl, ?_⟩
      cases inParent with
      | false => rfl
      | true => cases h
    | _ => trivial
  | some e =>
    cases st with
    | checkArguments | closeStandard | announceStarting | announceSink | announceEstimation
    | announceStarted => trivial
    | fork | openLog => cases h
    | setsid | chdir | openPidFile | lockPidFile => exact absurd h (fail_ne_running _ _ _ _ _)
    | writePidFile =>
      rw [perform] at h
      split at h
      · cases h
      · exact absurd h (failFormatted_ne_running _ _ _ _ _)
    | openDevice i | getAttributes i | setAttributes i | assertDtr i | clearDtr i =>
      exact absurd h (failFormatted_ne_running _ _ _ _ _)
    | openSink =>
      rw [perform] at h
      dsimp only at h
      split at h
      · exact absurd h (failFormatted_ne_running _ _ _ _ _)
      · exact absurd h (failFormatted_ne_running _ _ _ _ _)

private theorem fold_succeeds {sts : List Statement} {p q : Process}
    (h : Outcome.fold (fun st => perform host (answers st) st) sts p = .running q) :
    ∀ st ∈ sts, Succeeds (answers st) st := by
  induction sts generalizing p with
  | nil => simp
  | cons st sts ih =>
    rw [Outcome.fold_cons] at h
    cases hst : perform host (answers st) st p with
    | stopped why r =>
      rw [hst] at h
      cases h
    | running r =>
      rw [hst] at h
      exact List.forall_mem_cons.mpr ⟨succeeds_of_running hst, ih h⟩

private theorem utf8ByteSize_logentry (host : LogHost) (n : ℕ) (message : String) :
    (logentry host n message).utf8ByteSize =
      (host.timestr n).utf8ByteSize + (toString host.pid).utf8ByteSize + message.utf8ByteSize +
        16 :=
  utf8ByteSize_entry (host.timestr n) (toString host.pid) message

private theorem utf8ByteSize_pidText (pid : ℕ) :
    (pidText pid).utf8ByteSize = (toString (pid : ℤ)).utf8ByteSize + 1 := by
  simp only [pidText, String.utf8ByteSize_append]
  rfl

theorem log_of_logWorks (hw : LogWorks host) {p : Process} (hp : Orderly p)
    (hlog : 0 < p.logFileHandle) {message : String} (hsize : message.utf8ByteSize ≤ 900) :
    ∃ l, log host message p = .running (p.withLog l) := by
  have hfile : p.fileOf p.logFileHandle = some .log := by
    rw [Process.fileOf, if_pos (by omega), (hp.log p.logFileHandle.toNat)]
    omega
  have hwrites : ∀ n, (logHost host p).writeError n = none := by
    intro n
    simp [logHost, hfile, writeErrorOf, hw.writes n]
  have hfits : HasRoom (logHost host p) message p.log.writes 0 := by
    refine ⟨?_, by omega⟩
    have htime : ((logHost host p).timestr (p.log.writes + 0)).utf8ByteSize < 30 := hw.times _
    have hpid : (toString (logHost host p).pid).utf8ByteSize + 1 < 10 :=
      utf8ByteSize_pidText host.pid ▸ hw.pid
    rw [nestedMessage, utf8ByteSize_logentry]
    omega
  have hfirst : FirstSuccess (logHost host p) message p.log.writes 0 := by
    refine ⟨hwrites _, by omega, fun j hj => ?_⟩
    obtain rfl : j = 0 := by omega
    exact hfits
  have hcall := logMessage_of_firstSuccess hfirst host.frames hw.frames
  rw [hwrites] at hcall
  exact ⟨_, by rw [log, hcall]⟩

theorem logFormatted_of_logWorks (hw : LogWorks host) {p : Process} (hp : Orderly p)
    (hlog : 0 < p.logFileHandle) {message : String} (hsize : message.utf8ByteSize ≤ 900) :
    ∃ l, logFormatted host message p = .running (p.withLog l) := by
  rw [logFormatted, if_neg (by omega)]
  exact log_of_logWorks hw hp hlog hsize

theorem perform_of_succeeds (hw : LogWorks host) (hdevices : host.devices ≠ []) {a : Answer}
    {st : Statement} {p : Process} (hp : Orderly p) (hprepared : Prepared st p)
    (hsucceeds : Succeeds a st) :
    ∃ l, perform host a st p = .running ((effect host a st p).withLog l) := by
  have hsame : ∀ q : Process, q = q.withLog q.log := fun q => rfl
  cases st with
  | checkArguments =>
    have hlen := List.length_pos_iff.mpr hdevices
    have hargc : ¬ host.argc < 2 := by
      rw [StartHost.argc]
      omega
    exact ⟨p.log, if_neg hargc⟩
  | fork =>
    obtain ⟨herror, hparent⟩ := hsucceeds
    exact ⟨p.log, by simp [perform, herror, hparent, effect, Process.withLog]⟩
  | announceStarting => exact log_of_logWorks hw hp hprepared (by decide)
  | announceSink =>
    rw [perform]
    split
    · exact logFormatted_of_logWorks hw hp hprepared (by decide)
    · exact log_of_logWorks hw hp hprepared (by decide)
  | announceEstimation => exact logFormatted_of_logWorks hw hp hprepared (by decide)
  | announceStarted => exact log_of_logWorks hw hp hprepared (by decide)
  | closeStandard => exact ⟨p.log, rfl⟩
  | writePidFile =>
    have herror : a.error = none := hsucceeds
    rw [perform, if_neg (Nat.not_le.mpr hw.pid), herror]
    exact ⟨p.log, rfl⟩
  | _ =>
    have herror : a.error = none := hsucceeds
    rw [perform, herror]
    exact ⟨p.log, rfl⟩

theorem fold_of_succeeds (hw : LogWorks host) (hdevices : host.devices ≠ [])
    {sts : List Statement} {p : Process} (h : Admissible host answers sts p)
    (hsucceeds : ∀ st ∈ sts, Succeeds (answers st) st) :
    ∃ q, Outcome.fold (fun st => perform host (answers st) st) sts p = .running q := by
  induction sts generalizing p with
  | nil => exact ⟨p, rfl⟩
  | cons st sts ih =>
    obtain ⟨hp, hprepared, hrest⟩ := h
    obtain ⟨hst, hsts⟩ := List.forall_mem_cons.mp hsucceeds
    obtain ⟨l, hrun⟩ := perform_of_succeeds hw hdevices hp hprepared hst
    rw [Outcome.fold_cons, hrun]
    exact ih (admissible_withLog host answers l hrest) hsts

theorem startUp_of_succeeds (hw : LogWorks host) (hdevices : host.devices ≠ []) {t : Table File}
    (ht : Inherited t) (hstd : StandardInUse t)
    (hsucceeds : ∀ st ∈ program host, Succeeds (answers st) st) :
    ∃ q, startUp host answers (Process.init t) = .running q :=
  fold_of_succeeds hw hdevices (program_admissible host answers ht hstd hdevices) hsucceeds

/-- The daemon gets to its main loop only if the three standard descriptors were in use when it
was started. It then has the log, the PID file and the output open under their handles, all of
them positive, and every device under a handle of its own, configured and with its counters at
zero. The DTR line of the devices is high on Linux and low on Apple systems. -/
theorem startUp_ready {t : Table File} (ht : Inherited t) {q : Process}
    (h : startUp host answers (Process.init t) = .running q) :
    StandardInUse t ∧ Orderly q ∧ 0 < q.logFileHandle ∧ 0 < q.pidFileHandle ∧ 0 < q.outFileHandle ∧
      ∀ j, 1 ≤ j → j ≤ host.devices.length →
        (∃ n : ℕ, q.entFileHandles (j - 1) = n ∧ ∀ k, q.table.file k = some (.device j) ↔ k = n) ∧
        q.settings (j - 1) =
          some (configure host.constants (answers (.getAttributes j)).attributes) ∧
        q.dtr (j - 1) = some (decide (host.platform = .linux)) ∧
        ∀ b, q.deviceCounters (j - 1) b = some 0 := by
  have hstd := standardInUse_of_running h
  have hlen : 1 ≤ host.devices.length := List.length_pos_iff.mpr (devices_of_running h)
  have hserving := serving_served host answers ht hstd
  obtain ⟨l, rfl⟩ := fold_running host answers h
  rw [effects_program]
  refine ⟨hstd, (hserving.orderly_withSink hlen).withLog l, hserving.logOpen, hserving.pidOpen,
    Int.natCast_pos.mpr (hserving.lowest_pos hlen), fun j hj hle => ?_⟩
  obtain ⟨hsettings, hdtr, hcounters⟩ := hserving.ready j hj hle
  exact ⟨hserving.deviceOpen_withSink hj hle, hsettings, hdtr, hcounters⟩

def allSucceed (_ : Statement) : Answer := ⟨none, false, ⟨0, 0, 0, 0⟩⟩

theorem logWorks_oneDevice : LogWorks oneDevice := by
  have htime : "2015-01-01 00:00:00".utf8ByteSize < 30 := by decide
  exact ⟨fun _ => rfl, by decide, fun _ => htime, by decide⟩

private theorem succeeds_allSucceed (st : Statement) : Succeeds (allSucceed st) st := by
  cases st with
  | fork => exact ⟨rfl, rfl⟩
  | _ => trivial

theorem startUp_oneDevice :
    ∃ q, startUp oneDevice allSucceed (Process.init terminal) = .running q :=
  startUp_of_succeeds logWorks_oneDevice (by decide) inherited_terminal standardInUse_terminal
    fun st _ => succeeds_allSucceed st

theorem startUp_ready_terminal :
    ∃ q, startUp oneDevice allSucceed (Process.init terminal) = .running q ∧
      StandardInUse terminal ∧ Orderly q ∧ 0 < q.logFileHandle ∧ 0 < q.pidFileHandle ∧
      0 < q.outFileHandle ∧ ∀ j, 1 ≤ j → j ≤ 1 →
        (∃ n : ℕ, q.entFileHandles (j - 1) = n ∧ ∀ k, q.table.file k = some (.device j) ↔ k = n) ∧
        q.settings (j - 1) = some (configure oneDevice.constants ⟨0, 0, 0, 0⟩) ∧
        q.dtr (j - 1) = some (decide (oneDevice.platform = .linux)) ∧
        ∀ b, q.deviceCounters (j - 1) b = some 0 := by
  obtain ⟨q, hq⟩ := startUp_oneDevice
  exact ⟨q, hq, startUp_ready inherited_terminal hq⟩

/-- As long as the log can be written, the daemon gets to its main loop exactly if it has been
given a device, the standard descriptors were in use and no call of the start-up fails. -/
theorem startUp_reaches_loop_iff (hw : LogWorks host) {t : Table File} (ht : Inherited t) :
    (∃ q, startUp host answers (Process.init t) = .running q) ↔
      host.devices ≠ [] ∧ StandardInUse t ∧ ∀ st ∈ program host, Succeeds (answers st) st := by
  constructor
  · rintro ⟨q, hq⟩
    exact ⟨devices_of_running hq, standardInUse_of_running hq, fold_succeeds hq⟩
  · rintro ⟨hdevices, hstd, hsucceeds⟩
    exact startUp_of_succeeds hw hdevices ht hstd hsucceeds

theorem startUp_reaches_loop_iff_oneDevice :
    LogWorks oneDevice ∧ Inherited terminal ∧
      ((∃ q, startUp oneDevice allSucceed (Process.init terminal) = .running q) ↔
        oneDevice.devices ≠ [] ∧ StandardInUse terminal ∧
          ∀ st ∈ program oneDevice, Succeeds (allSucceed st) st) :=
  ⟨logWorks_oneDevice, inherited_terminal,
    startUp_reaches_loop_iff logWorks_oneDevice inherited_terminal⟩

end K7nvhRng.StartupDescriptors
