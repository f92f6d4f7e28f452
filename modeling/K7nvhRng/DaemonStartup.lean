import K7nvhRng.DescriptorTable
import K7nvhRng.LogRecursion
import K7nvhRng.SerialSettings

/-!
# The start-up of the daemon

`main` in `software/k7nvh_rng.c` up to its loop: one statement for each system call, with the
loop over the devices unrolled. What the system answers to each call is arbitrary, and so is
what happens to the writes to the log. Descriptors are allocated as the system does it, so
that closing the standard ones makes their numbers available to the devices.
-/

namespace K7nvhRng.DaemonStartup
open CheckedArrays StoppableRuns DaemonLoop LogRecursion DescriptorTable SerialSettings

inductive File where
  | inherited (n : ℕ)
  | log
  | pid
  | device (i : ℕ)
  /-- the output file, or `/dev/random` in a build without `file_output` -/
  | sink
  deriving DecidableEq

inductive Platform where
  | apple | linux
  deriving DecidableEq

/-- What the build, the command line and the operating system fix for a start. -/
structure StartHost where
  platform : Platform
  constants : Constants
  fileOutput : Bool
  /-- `argv[0]` -/
  program : String
  /-- the other arguments -/
  devices : List String
  pid : ℕ
  frames : ℕ
  timestr : ℕ → String
  /-- The error met by the `n`-th write to the log file, if it fails. -/
  writeError : ℕ → Option SysError

def StartHost.argc (host : StartHost) : ℕ := host.devices.length + 1

/-- What the system answers to a call: the error if it fails, whether `fork` has returned in the
parent, and the attributes that `tcgetattr` finds. -/
structure Answer where
  error : Option SysError
  inParent : Bool
  attributes : Termios

/-- The variables of `main`, with the descriptors of the process. The last two fields record
what has been printed and what has been done to each device: the attributes set and the level
of its DTR line. -/
structure Process where
  table : Table File
  pidFileHandle : ℤ
  logFileHandle : ℤ
  outFileHandle : ℤ
  entFileHandles : ℕ → ℤ
  /-- `none` as long as a counter is not initialised -/
  deviceCounters : ℕ → Bool → Option ℕ
  tty : Termios
  log : LogState
  console : List String
  settings : ℕ → Option Termios
  dtr : ℕ → Option Bool

/-- The process when `main` is entered, with the descriptors that it has inherited. -/
def Process.init (table : Table File) : Process where
  table := table
  pidFileHandle := 0
  logFileHandle := 0
  outFileHandle := 0
  entFileHandles := fun _ => 0
  deviceCounters := fun _ _ => none
  tty := ⟨0, 0, 0, 0⟩
  log := ⟨0, []⟩
  console := []
  settings := fun _ => none
  dtr := fun _ => none

abbrev Start := Outcome LogStop Process

/-! ### Logging and exits -/

def badDescriptor : SysError := ⟨9, "Bad file descriptor"⟩

/-- The error of a write to a descriptor. The devices are opened for reading only. -/
def writeErrorOf (host : StartHost) (f : Option File) (n : ℕ) : Option SysError :=
  match f with
  | none | some (.device _) => some badDescriptor
  | _ => host.writeError n

def Process.fileOf (p : Process) (handle : ℤ) : Option File :=
  if 0 ≤ handle then p.table.file handle.toNat else none

def logHost (host : StartHost) (p : Process) : LogHost where
  pidFileHandle := p.pidFileHandle
  logFileHandle := p.logFileHandle
  outFileHandle := p.outFileHandle
  pid := host.pid
  timestr := host.timestr
  writeError := writeErrorOf host (p.fileOf p.logFileHandle)

def Process.close (p : Process) (closed : List ℤ) : Process :=
  { p with table := p.table.closedAll (closed.map Int.toNat) }

/-- The handles that `exit_cleanup` closes. -/
def Process.handles (p : Process) : List ℤ :=
  [p.pidFileHandle, p.logFileHandle, p.outFileHandle].filter (0 < ·)

def exitCleanup (host : StartHost) (value : ℤ) (p : Process) : Start :=
  .stopped (LogRecursion.exitCleanup (logHost host p) value) (p.close p.handles)

def Process.withLog (p : Process) (l : LogState) : Process := { p with log := l }

/-- `log_message(message)`. If it ends the process, it has closed the handles first. -/
def log (host : StartHost) (message : String) (p : Process) : Start :=
  match logMessage (logHost host p) host.frames message p.log with
  | .running l => .running (p.withLog l)
  | .stopped (.exit value closed) l => .stopped (.exit value closed) ((p.withLog l).close closed)
  | .stopped (.fault f) l => .stopped (.fault f) (p.withLog l)

/-- `sprintf` into the array `logmessage` of 1000 characters, then `log_message(logmessage)`. -/
def logFormatted (host : StartHost) (message : String) (p : Process) : Start :=
  if message.utf8ByteSize ≥ 1000 then .stopped (.fault (.badIndex 1000)) p
  else log host message p

def fail (host : StartHost) (status : ℤ) (message : String) (p : Process) : Start :=
  (log host message p).andThen (exitCleanup host status)

def failFormatted (host : StartHost) (status : ℤ) (message : String) (p : Process) : Start :=
  (logFormatted host message p).andThen (exitCleanup host status)

/-! ### The statements -/

inductive Statement where
  | checkArguments
  | fork
  | openLog
  | announceStarting
  | setsid
  | chdir
  | openPidFile
  | lockPidFile
  | writePidFile
  | closeStandard
  | openDevice (i : ℕ)
  | getAttributes (i : ℕ)
  | setAttributes (i : ℕ)
  | assertDtr (i : ℕ)
  | clearDtr (i : ℕ)
  | announceSink
  | openSink
  | announceEstimation
  | announceStarted
  deriving DecidableEq

def StartHost.argv (host : StartHost) (i : ℕ) : String := host.devices.getD (i - 1) ""

def pidText (pid : ℕ) : String := s!"{pid}\n"

def perform (host : StartHost) (a : Answer) : Statement → Process → Start
  | .checkArguments, p =>
    if host.argc < 2 then
      exitCleanup host (-7) { p with console := p.console ++ [
        s!"Please provide the tty device(s) as the argument(s). EX: {host.program} " ++
          "/dev/tty.usbSerial0\r\n"] }
    else .running p
  | .fork, p =>
    if a.error.isSome then exitCleanup host (-2) p
    else if a.inParent then exitCleanup host 0 p
    else .running p
  | .openLog, p =>
    match a.error with
    | some e => exitCleanup host (-1) { p with
        logFileHandle := -1
        console := p.console ++ [s!"<ERROR> Could not open log file. {e.text}\r\n"] }
    | none => .running { p with table := p.table.opened .log, logFileHandle := p.table.lowest }
  | .announceStarting, p => log host "<INFO> Starting entropy gathering daemon..." p
  | .setsid, p =>
    if a.error.isSome then fail host (-3) "<ERROR> Could not get new SID." p else .running p
  | .chdir, p =>
    if a.error.isSome then fail host (-4) "<ERROR> Could not change working directory." p
    else .running p
  | .openPidFile, p =>
    if a.error.isSome then
      fail host (-5) "<ERROR> PID file exists or could not be created." { p with pidFileHandle := -1 }
    else .running { p with table := p.table.opened .pid, pidFileHandle := p.table.lowest }
  | .lockPidFile, p =>
    if a.error.isSome then fail host (-6) "<ERROR> PID file could not be locked." p else .running p
  | .writePidFile, p =>
    -- `char str[10]` must hold the terminating zero as well
    if (pidText host.pid).utf8ByteSize ≥ 10 then .stopped (.fault (.badIndex 10)) p
    else match a.error with
    | some e => failFormatted host (-13)
        s!"<ERROR> Error writing to PID file. Error {e.errno}: {e.text}" p
    | none => .running p
  | .closeStandard, p => .running { p with table := ((p.table.closed 0).closed 1).closed 2 }
  | .openDevice i, p =>
    let p := { p with
      deviceCounters := Function.update p.deviceCounters (i - 1) fun _ => some 0 }
    match a.error with
    | some e =>
      let name := host.argv i
      failFormatted host (-8)
        s!"<ERROR> Could not open the tty device, {name}. Error {e.errno}: {e.text}"
        { p with entFileHandles := Function.update p.entFileHandles (i - 1) (-1) }
    | none => .running { p with
        table := p.table.opened (.device i)
        entFileHandles := Function.update p.entFileHandles (i - 1) p.table.lowest }
  | .getAttributes _, p =>
    match a.error with
    | some e => failFormatted host (-13)
        s!"<ERROR> Could not get the tty device attributes. Error {e.errno}: {e.text}" p
    | none => .running { p with tty := a.attributes }
  | .setAttributes i, p =>
    let p := { p with tty := configure host.constants p.tty }
    match a.error with
    | some e => failFormatted host (-14)
        s!"<ERROR> Could not set the tty device attributes. Error {e.errno}: {e.text}" p
    | none => .running { p with settings := Function.update p.settings (i - 1) (some p.tty) }
  | .assertDtr i, p =>
    match a.error with
    | some e => failFormatted host (-16)
        s!"<ERROR> Could not assert DTR. Error {e.errno}: {e.text}" p
    -- `TIOCSDTR` on Apple systems, but `TIOCMBIC` on Linux
    | none => .running { p with
        dtr := Function.update p.dtr (i - 1) (some (decide (host.platform = .apple))) }
  | .clearDtr i, p =>
    match a.error with
    | some e => failFormatted host (-17)
        s!"<ERROR> Could not clear DTR. Error {e.errno}: {e.text}" p
    -- `TIOCCDTR` on Apple systems, but `TIOCMBIS` on Linux
    | none => .running { p with
        dtr := Function.update p.dtr (i - 1) (some (decide (host.platform = .linux))) }
  | .announceSink, p =>
    if host.fileOutput then
      logFormatted host
        "<INFO> Saving generated entropy to /tmp/k7nvh_rng_out in lieu of kernel pool." p
    else log host "<INFO> File output disabled. Saving generated entropy to kernel pool." p
  | .openSink, p =>
    match a.error with
    | some e =>
      if host.fileOutput then
        failFormatted host (-11)
          s!"<ERROR> Could not open output file. Error {e.errno}: {e.text}"
          { p with outFileHandle := -1 }
      else
        failFormatted host (-18)
          s!"<ERROR> Could not open the /dev/random device. Error {e.errno}: {e.text}"
          { p with outFileHandle := -1 }
    | none => .running { p with table := p.table.opened .sink, outFileHandle := p.table.lowest }
  | .announceEstimation, p =>
    logFormatted host "<INFO> Next estimation of entropy in 60 seconds." p
  | .announceStarted, p => log host "<INFO> Entropy gathering daemon started." p

/-- The body of the loop over the devices. -/
def deviceStatements (i : ℕ) : List Statement :=
  [.openDevice i, .getAttributes i, .setAttributes i, .assertDtr i, .clearDtr i]

/-- The statements up to the closing of the standard descriptors. -/
def daemonize : List Statement :=
  [.checkArguments, .fork, .openLog, .announceStarting, .setsid, .chdir, .openPidFile, .lockPidFile,
    .writePidFile, .closeStandard]

/-- The statements behind the loop over the devices. -/
def finish : List Statement := [.announceSink, .openSink, .announceEstimation, .announceStarted]

def StartHost.indices (host : StartHost) : List ℕ := List.range' 1 (host.argc - 1)

def program (host : StartHost) : List Statement :=
  daemonize ++ host.indices.flatMap deviceStatements ++ finish

def startUp (host : StartHost) (answers : Statement → Answer) (p : Process) : Start :=
  Outcome.fold (fun st => perform host (answers st) st) (program host) p

/-! ### What a statement does when it does not end the process -/

/-- The change made by a statement whose call succeeds, apart from the log. -/
def effect (host : StartHost) (a : Answer) (st : Statement) (p : Process) : Process :=
  match st with
  | .openLog => { p with table := p.table.opened .log, logFileHandle := p.table.lowest }
  | .openPidFile => { p with table := p.table.opened .pid, pidFileHandle := p.table.lowest }
  | .closeStandard => { p with table := ((p.table.closed 0).closed 1).closed 2 }
  | .openDevice i => { p with
      table := p.table.opened (.device i)
      entFileHandles := Function.update p.entFileHandles (i - 1) p.table.lowest
      deviceCounters := Function.update p.deviceCounters (i - 1) fun _ => some 0 }
  | .getAttributes _ => { p with tty := a.attributes }
  | .setAttributes i => { p with
      tty := configure host.constants p.tty
      settings := Function.update p.settings (i - 1) (some (configure host.constants p.tty)) }
  | .assertDtr i => { p with
      dtr := Function.update p.dtr (i - 1) (some (decide (host.platform = .apple))) }
  | .clearDtr i => { p with
      dtr := Function.update p.dtr (i - 1) (some (decide (host.platform = .linux))) }
  | .openSink => { p with table := p.table.opened .sink, outFileHandle := p.table.lowest }
  | _ => p

theorem effect_withLog (host : StartHost) (a : Answer) (st : Statement) (p : Process)
    (l : LogState) : effect host a st (p.withLog l) = (effect host a st p).withLog l := by
  cases st <;> rfl

/-- The process in which a statement fails. Only the handle of an `open` that has failed is
other than before. -/
structure FailsIn (st : Statement) (p q : Process) : Prop where
  table : q.table = p.table
  logFileHandle : q.logFileHandle = p.logFileHandle ∨ st = .openLog ∧ q.logFileHandle = -1
  pidFileHandle : q.pidFileHandle = p.pidFileHandle ∨ st = .openPidFile ∧ q.pidFileHandle = -1
  outFileHandle : q.outFileHandle = p.outFileHandle ∨ st = .openSink ∧ q.outFileHandle = -1

theorem FailsIn.same (st : Statement) (p : Process) : FailsIn st p p :=
  ⟨rfl, .inl rfl, .inl rfl, .inl rfl⟩

inductive Performs (host : StartHost) (a : Answer) (st : Statement) (p : Process) : Start → Prop where
  | done : Performs host a st p (.running (effect host a st p))
  | logs (message : String) (hsame : effect host a st p = p) :
      Performs host a st p (log host message p)
  | exits (status : ℤ) {q : Process} (hq : FailsIn st p q) :
      Performs host a st p (exitCleanup host status q)
  | fails (status : ℤ) (message : String) {q : Process} (hq : FailsIn st p q) :
      Performs host a st p (fail host status message q)
  | overflows (i : ℕ) (q : Process) : Performs host a st p (.stopped (.fault (.badIndex i)) q)

theorem performs_logFormatted {host : StartHost} {a : Answer} {st : Statement} {p : Process}
    (message : String) (hsame : effect host a st p = p) :
    Performs host a st p (logFormatted host message p) := by
  rw [logFormatted]
  split
  · exact .overflows 1000 p
  · exact .logs message hsame

theorem performs_failFormatted {host : StartHost} {a : Answer} {st : Statement} {p q : Process}
    (status : ℤ) (message : String) (hq : FailsIn st p q) :
    Performs host a st p (failFormatted host status message q) := by
  rw [failFormatted, logFormatted]
  split
  · exact .overflows 1000 q
  · exact .fails status message hq

theorem performs (host : StartHost) (a : Answer) (st : Statement) (p : Process) :
    Performs host a st p (perform host a st p) := by
  have hsame := FailsIn.same st p
  cases st with
  | checkArguments =>
    rw [perform]
    split
    · exact .exits (-7) ⟨rfl, .inl rfl, .inl rfl, .inl rfl⟩
    · exact .done
  | fork =>
    rw [perform]
    split
    · exact .exits (-2) hsame
    · split
      · exact .exits 0 hsame
      · exact .done
  | openLog =>
    rw [perform]
    split
    · exact .exits (-1) ⟨rfl, .inr ⟨rfl, rfl⟩, .inl rfl, .inl rfl⟩
    · exact .done
  | announceStarting => exact .logs _ rfl
  | setsid | chdir | lockPidFile =>
    rw [perform]
    split
    · exact .fails _ _ hsame
    · exact .done
  | openPidFile =>
    rw [perform]
    split
    · exact .fails _ _ ⟨rfl, .inl rfl, .inr ⟨rfl, rfl⟩, .inl rfl⟩
    · exact .done
  | writePidFile =>
    rw [perform]
    split
    · exact .overflows 10 p
    · split
      · exact performs_failFormatted _ _ hsame
      · exact .done
  | closeStandard => exact .done
  | openDevice i | setAttributes i =>
    rw [perform]
    dsimp only
    split
    · exact performs_failFormatted _ _ ⟨rfl, .inl rfl, .inl rfl, .inl rfl⟩
    · exact .done
  | getAttributes i | assertDtr i | clearDtr i =>
    rw [perform]
    split
    · exact performs_failFormatted _ _ hsame
    · exact .done
  | announceSink =>
    rw [perform]
    split
    · exact performs_logFormatted _ rfl
    · exact .logs _ rfl
  | openSink =>
    rw [perform]
    split
    · split <;> exact performs_failFormatted _ _ ⟨rfl, .inl rfl, .inl rfl, .inr ⟨rfl, rfl⟩⟩
    · exact .done
  | announceEstimation => exact performs_logFormatted _ rfl
  | announceStarted => exact .logs _ rfl

theorem exitCleanup_ne_running (host : StartHost) (value : ℤ) (p q : Process) :
    exitCleanup host value p ≠ .running q := by
  simp [exitCleanup]

theorem fail_ne_running (host : StartHost) (status : ℤ) (message : String) (p q : Process) :
    fail host status message p ≠ .running q := by
  rw [fail]
  cases log host message p with
  | running r => exact exitCleanup_ne_running host status r q
  | stopped why r => simp

private theorem log_running {host : StartHost} {message : String} {p q : Process}
    (h : log host message p = .running q) : ∃ l, q = p.withLog l := by
  rw [log] at h
  split at h
  · cases h
    exact ⟨_, rfl⟩
  · cases h
  · cases h

theorem perform_running {host : StartHost} {a : Answer} {st : Statement} {p q : Process}
    (h : perform host a st p = .running q) : ∃ l, q = (effect host a st p).withLog l := by
  have hp := performs host a st p
  generalize perform host a st p = o at hp h
  cases hp with
  | done =>
    cases h
    exact ⟨(effect host a st p).log, rfl⟩
  | logs message hsame =>
    rw [hsame]
    exact log_running h
  | exits status hq => exact absurd h (exitCleanup_ne_running host status _ q)
  | fails status message hq => exact absurd h (fail_ne_running host status message _ q)
  | overflows i r => cases h

/-! ### Exits leave no file open -/

/-- The file is open under the handle and under no other descriptor, or not at all if the handle
is not positive. -/
def Owns (t : Table File) (handle : ℤ) (f : File) : Prop :=
  ∀ n : ℕ, t.file n = some f ↔ 0 < handle ∧ handle = n

theorem Owns.opened {t : Table File} {handle : ℤ} {f g : File} (h : Owns t handle f) (hne : g ≠ f) :
    Owns (t.opened g) handle f := fun n =>
  (Table.file_opened_eq_some_iff hne t n).trans (h n)

theorem owns_opened {t : Table File} {f : File} (h : Owns t 0 f) (hpos : 0 < t.lowest) :
    Owns (t.opened f) t.lowest f := by
  have hnew : ∀ n, t.file n ≠ some f := fun n hn => absurd ((h n).mp hn).1 (Int.lt_irrefl 0)
  intro n
  rw [Table.file_opened_self_iff hnew]
  omega

theorem Owns.closed {t : Table File} {handle : ℤ} {f : File} (h : Owns t handle f) {k : ℕ}
    (hne : ¬(0 < handle ∧ handle = k)) : Owns (t.closed k) handle f := by
  intro n
  rw [Table.file_closed]
  split
  · rename_i hn
    rw [hn]
    exact iff_of_false (by simp) hne
  · exact h n

structure Orderly (p : Process) : Prop where
  log : Owns p.table p.logFileHandle .log
  pid : Owns p.table p.pidFileHandle .pid
  sink : Owns p.table p.outFileHandle .sink

/-- An exit has closed the log, the PID file and the output. -/
def Clean (why : LogStop) (p : Process) : Prop :=
  match why with
  | .exit _ _ =>
    ∀ n, p.table.file n ≠ some .log ∧ p.table.file n ≠ some .pid ∧ p.table.file n ≠ some .sink
  | .fault _ => True

theorem Owns.not_open_after_close {p : Process} {handle : ℤ} {f : File}
    (h : Owns p.table handle f) (hmem : handle ∈ [p.pidFileHandle, p.logFileHandle, p.outFileHandle])
    (n : ℕ) : (p.close p.handles).table.file n ≠ some f := by
  intro hopen
  have hfile : (p.close p.handles).table.file n =
      if n ∈ p.handles.map Int.toNat then none else p.table.file n := Table.file_closedAll _ _ n
  rw [hfile] at hopen
  split at hopen
  · cases hopen
  · rename_i hclosed
    obtain ⟨hpos, rfl⟩ := (h n).mp hopen
    apply hclosed
    rw [List.mem_map]
    exact ⟨n, List.mem_filter.mpr ⟨hmem, by simpa using hpos⟩, Int.toNat_natCast n⟩

theorem Orderly.close_clean {p : Process} (h : Orderly p) (value : ℤ) (closed : List ℤ) :
    Clean (.exit value closed) (p.close p.handles) := fun n =>
  ⟨h.log.not_open_after_close (by simp) n, h.pid.not_open_after_close (by simp) n,
    h.sink.not_open_after_close (by simp) n⟩

theorem Orderly.withLog {p : Process} (h : Orderly p) (l : LogState) : Orderly (p.withLog l) :=
  ⟨h.log, h.pid, h.sink⟩

theorem logMessage_exit {host : LogHost} {frames : ℕ} {message : String} {s t : LogState} {v : ℤ}
    {closed : List ℤ} (h : logMessage host frames message s = .stopped (.exit v closed) t) :
    .exit v closed = LogRecursion.exitCleanup host (-12) := by
  induction frames generalizing message s t with
  | zero => cases h
  | succ frames ih =>
    rw [logMessage] at h
    split at h
    · cases h
    · split at h
      · cases h
      · split at h
        · cases h
        · rename_i e _ _
          cases hrec : logMessage host frames (logmessage e) ⟨s.writes + 1, s.log⟩ with
          | running u =>
            rw [hrec] at h
            cases h
            rfl
          | stopped why u =>
            rw [hrec] at h
            cases h
            exact ih hrec

theorem log_clean (host : StartHost) (message : String) {p : Process} (hp : Orderly p) :
    Outcome.Satisfies (fun q => Orderly q) Clean (log host message p) := by
  rw [log]
  split
  · exact .running (hp.withLog _)
  · rename_i value closed l hlog
    have hexit := logMessage_exit hlog
    have hclosed : closed = p.handles := by
      cases hexit
      rfl
    subst hclosed
    exact .stopped ((hp.withLog l).close_clean value p.handles)
  · exact .stopped trivial

/-- A handle is assigned once, and nothing is announced before there is a log. -/
def Prepared (st : Statement) (p : Process) : Prop :=
  match st with
  | .openLog => p.logFileHandle = 0
  | .openPidFile => p.pidFileHandle = 0
  | .openSink => p.outFileHandle = 0
  | .announceStarting | .announceSink | .announceEstimation | .announceStarted =>
    0 < p.logFileHandle
  | _ => True

theorem Owns.failed {t : Table File} {f : File} (h : Owns t 0 f) : Owns t (-1) f := by
  intro n
  rw [h n]
  omega

theorem FailsIn.orderly {st : Statement} {p q : Process} (h : FailsIn st p q) (hp : Orderly p)
    (hprepared : Prepared st p) : Orderly q := by
  obtain ⟨htable, hlog, hpid, hsink⟩ := h
  refine ⟨?_, ?_, ?_⟩
  · rw [htable]
    rcases hlog with hlog | ⟨rfl, hlog⟩
    · exact hlog ▸ hp.log
    · have hzero : p.logFileHandle = 0 := hprepared
      exact hlog ▸ (hzero ▸ hp.log).failed
  · rw [htable]
    rcases hpid with hpid | ⟨rfl, hpid⟩
    · exact hpid ▸ hp.pid
    · have hzero : p.pidFileHandle = 0 := hprepared
      exact hpid ▸ (hzero ▸ hp.pid).failed
  · rw [htable]
    rcases hsink with hsink | ⟨rfl, hsink⟩
    · exact hsink ▸ hp.sink
    · have hzero : p.outFileHandle = 0 := hprepared
      exact hsink ▸ (hzero ▸ hp.sink).failed

theorem perform_clean (host : StartHost) (a : Answer) {st : Statement} {p : Process}
    (hp : Orderly p) (hprepared : Prepared st p) :
    Outcome.Satisfies (fun _ => True) Clean (perform host a st p) := by
  have hperforms := performs host a st p
  generalize perform host a st p = o at hperforms
  cases hperforms with
  | done => exact .running trivial
  | logs message hsame =>
    have hlog := log_clean host message hp
    generalize log host message p = o' at hlog
    cases hlog with
    | running _ => exact .running trivial
    | stopped h => exact .stopped h
  | exits status hq => exact .stopped ((hq.orderly hp hprepared).close_clean status _)
  | fails status message hq =>
    exact (log_clean host message (hq.orderly hp hprepared)).andThen fun r hr =>
      .stopped (hr.close_clean status _)
  | overflows i r => exact .stopped trivial

/-! ### Whole programs -/

section Programs
variable (host : StartHost) (answers : Statement → Answer)

def effects (sts : List Statement) (p : Process) : Process :=
  sts.foldl (fun p st => effect host (answers st) st p) p

/-- Every statement finds its handles in order. -/
def Admissible : List Statement → Process → Prop
  | [], _ => True
  | st :: sts, p => Orderly p ∧ Prepared st p ∧ Admissible sts (effect host (answers st) st p)

private theorem effects_withLog (sts : List Statement) (p : Process) (l : LogState) :
    effects host answers sts (p.withLog l) = (effects host answers sts p).withLog l := by
  induction sts generalizing p with
  | nil => rfl
  | cons st sts ih =>
    simp only [effects, List.foldl_cons] at ih ⊢
    rw [effect_withLog, ih]

theorem admissible_withLog {sts : List Statement} {p : Process} (l : LogState)
    (h : Admissible host answers sts p) : Admissible host answers sts (p.withLog l) := by
  induction sts generalizing p with
  | nil => trivial
  | cons st sts ih =>
    obtain ⟨hp, hprepared, hrest⟩ := h
    refine ⟨hp.withLog l, ?_, ?_⟩
    · cases st <;> exact hprepared
    · rw [effect_withLog]
      exact ih hrest

theorem effects_append (sts sts' : List Statement) (p : Process) :
    effects host answers (sts ++ sts') p = effects host answers sts' (effects host answers sts p) :=
  List.foldl_append

theorem admissible_append {sts sts' : List Statement} {p : Process}
    (h : Admissible host answers sts p)
    (h' : Admissible host answers sts' (effects host answers sts p)) :
    Admissible host answers (sts ++ sts') p := by
  induction sts generalizing p with
  | nil => exact h'
  | cons st sts ih => exact ⟨h.1, h.2.1, ih h.2.2 h'⟩

/-- A program that has not ended the process has had its effects. -/
theorem fold_running {sts : List Statement} {p q : Process}
    (h : Outcome.fold (fun st => perform host (answers st) st) sts p = .running q) :
    ∃ l, q = (effects host answers sts p).withLog l := by
  induction sts generalizing p with
  | nil =>
    obtain rfl : p = q := by simpa using h
    exact ⟨p.log, rfl⟩
  | cons st sts ih =>
    rw [Outcome.fold_cons] at h
    cases hst : perform host (answers st) st p with
    | stopped why r =>
      rw [hst] at h
      cases h
    | running r =>
      obtain ⟨l, rfl⟩ := perform_running hst
      rw [hst] at h
      obtain ⟨l', rfl⟩ := ih h
      refine ⟨l', ?_⟩
      rw [effects_withLog]
      rfl

theorem fold_clean {sts : List Statement} {p : Process} (h : Admissible host answers sts p) :
    Outcome.Satisfies (fun _ => True) Clean
      (Outcome.fold (fun st => perform host (answers st) st) sts p) := by
  induction sts generalizing p with
  | nil => exact .running trivial
  | cons st sts ih =>
    obtain ⟨hp, hprepared, hrest⟩ := h
    have hst := perform_clean host (answers st) hp hprepared
    rw [Outcome.fold_cons]
    cases hrun : perform host (answers st) st p with
    | stopped why r =>
      rw [hrun] at hst
      cases hst with
      | stopped hclean => exact .stopped hclean
    | running r =>
      obtain ⟨l, rfl⟩ := perform_running hrun
      exact ih (admissible_withLog host answers l hrest)

end Programs

end K7nvhRng.DaemonStartup
