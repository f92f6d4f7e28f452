import K7nvhRng.DaemonLoop

/-!
# `log_message` on a log file that cannot be written

When its `write` fails, `log_message` composes an error message, calls itself to log it
and only then ends the process. Whether this ends depends on the later writes. The texts
are composed by `sprintf` in arrays of fixed size, which is checked.
-/

namespace K7nvhRng.LogRecursion
open CheckedArrays StoppableRuns DaemonLoop

/-- What the operating system fixes for the log. The calls of `log_message` are numbered, and
so are their writes: each call makes one. -/
structure LogHost where
  pidFileHandle : ℤ
  logFileHandle : ℤ
  /-- `outFileHandle`, or `rndFileHandle` in the builds without `file_output`. -/
  outFileHandle : ℤ
  pid : ℤ
  /-- The time of the `n`-th call as `strftime` prints it. -/
  timestr : ℕ → String
  /-- The error met by the `n`-th write, if it fails. -/
  writeError : ℕ → Option SysError

structure LogState where
  writes : ℕ
  log : List String

/-- Why the process ends: an exit, with the handles closed before it, or a fault. -/
inductive LogStop where
  | exit (status : ℤ) (closed : List ℤ)
  | fault (f : Fault)

def exitCleanup (host : LogHost) (value : ℤ) : LogStop :=
  .exit value ([host.pidFileHandle, host.logFileHandle, host.outFileHandle].filter (0 < ·))

/-- The text that `log_message` writes, in an array of 1024 characters. -/
def logentry (host : LogHost) (n : ℕ) (message : String) : String :=
  let timestr := host.timestr n
  s!"{timestr} K7NVH_RNG[{host.pid}]: {message}\r\n"

theorem utf8ByteSize_entry (timestr pid message : String) :
    (s!"{timestr} K7NVH_RNG[{pid}]: {message}\r\n").utf8ByteSize =
      timestr.utf8ByteSize + pid.utf8ByteSize + message.utf8ByteSize + 16 := by
  have h₁ : " K7NVH_RNG[".utf8ByteSize = 11 := rfl
  have h₂ : "]: ".utf8ByteSize = 3 := rfl
  have h₃ : "\r\n".utf8ByteSize = 2 := rfl
  have htext : ∀ s : String, toString s = s := fun s => rfl
  simp only [String.utf8ByteSize_append, htext, h₁, h₂, h₃]
  omega

/-- The text composed after a failed write, in the array `logmessage` of 1000 characters. -/
def logmessage (e : SysError) : String :=
  s!"<ERROR> Error writing to log file. Error {e.errno}: {e.text}"

/-- `log_message(message)` with the given number of stack frames. -/
def logMessage (host : LogHost) : (frames : ℕ) → String → LogState → Outcome LogStop LogState
  | 0, _, s => .stopped (.fault .stackOverflow) s
  | frames + 1, message, s =>
    if (logentry host s.writes message).utf8ByteSize ≥ 1024 then
      .stopped (.fault (.badIndex 1024)) s
    else
      match host.writeError s.writes with
      | none => .running ⟨s.writes + 1, s.log ++ [logentry host s.writes message]⟩
      | some e =>
        if (logmessage e).utf8ByteSize ≥ 1000 then
          .stopped (.fault (.badIndex 1000)) ⟨s.writes + 1, s.log⟩
        else
          -- the message is logged first, and the exit waits for that call to return
          (logMessage host frames (logmessage e) ⟨s.writes + 1, s.log⟩).andThen fun s =>
            .stopped (exitCleanup host (-12)) s

/-- On a stack that is deep enough the call makes finitely many writes. It returns if the first of
them succeeded, and else ends the process with status -12. -/
def Completes (host : LogHost) (message : String) (s : LogState) : Prop :=
  ∃ depth t, ∀ frames ≥ depth, logMessage host frames message s =
    match host.writeError s.writes with
    | none => .running t
    | some _ => .stopped (exitCleanup host (-12)) t

/-- The call ends in the same way on a stack with the given number of frames. -/
def CompletesWithin (host : LogHost) (frames : ℕ) (message : String) (s : LogState) : Prop :=
  ∃ t, logMessage host frames message s =
    match host.writeError s.writes with
    | none => .running t
    | some _ => .stopped (exitCleanup host (-12)) t

/-- The message that the `j`-th nested call logs, when the writes are numbered from `n`. -/
def nestedMessage (host : LogHost) (message : String) (n : ℕ) : ℕ → String
  | 0 => message
  | j + 1 => ((host.writeError (n + j)).map logmessage).getD ""

/-- The texts composed up to the `j`-th nested write fit in their arrays. -/
def HasRoom (host : LogHost) (message : String) (n j : ℕ) : Prop :=
  (logentry host (n + j) (nestedMessage host message n j)).utf8ByteSize < 1024 ∧
    (0 < j → (nestedMessage host message n j).utf8ByteSize < 1000)

/-- The `k`-th nested write is the first that succeeds, and all texts up to it fit. -/
structure FirstSuccess (host : LogHost) (message : String) (n k : ℕ) : Prop where
  success : host.writeError (n + k) = none
  failures : ∀ j < k, host.writeError (n + j) ≠ none
  room : ∀ j ≤ k, HasRoom host message n j

theorem nestedMessage_shift {host : LogHost} (message : String) {n : ℕ} {e : SysError}
    (he : host.writeError n = some e) (j : ℕ) :
    nestedMessage host (logmessage e) (n + 1) j = nestedMessage host message n (j + 1) := by
  cases j with
  | zero => simp [nestedMessage, he]
  | succ j => rw [nestedMessage, nestedMessage, show n + 1 + j = n + (j + 1) by omega]

theorem hasRoom_shift {host : LogHost} {message : String} {n : ℕ} {e : SysError}
    (he : host.writeError n = some e) (hfits : (logmessage e).utf8ByteSize < 1000) (j : ℕ) :
    HasRoom host (logmessage e) (n + 1) j ↔ HasRoom host message n (j + 1) := by
  have hmessage := nestedMessage_shift message he j
  rw [HasRoom, HasRoom, hmessage, show n + 1 + j = n + (j + 1) by omega]
  refine and_congr_right fun _ => ⟨fun h _ => ?_, fun h _ => h (by omega)⟩
  cases j with
  | zero => rwa [← hmessage]
  | succ j => exact h (by omega)

theorem firstSuccess_shift {host : LogHost} {message : String} {n k : ℕ} {e : SysError}
    (he : host.writeError n = some e) (hfits : (logmessage e).utf8ByteSize < 1000)
    (hroom : HasRoom host message n 0) :
    FirstSuccess host (logmessage e) (n + 1) k ↔ FirstSuccess host message n (k + 1) := by
  have hnum : ∀ j, n + 1 + j = n + (j + 1) := fun j => by omega
  constructor
  · rintro ⟨hsucc, hfail, hrooms⟩
    refine ⟨by rw [← hnum, hsucc], fun j hj => ?_, fun j hj => ?_⟩
    · cases j with
      | zero => simp [he]
      | succ j => rw [← hnum]; exact hfail j (by omega)
    · cases j with
      | zero => exact hroom
      | succ j => exact (hasRoom_shift he hfits j).mp (hrooms j (by omega))
  · rintro ⟨hsucc, hfail, hrooms⟩
    refine ⟨by rw [hnum, hsucc], fun j hj => ?_, fun j hj => ?_⟩
    · rw [hnum]
      exact hfail (j + 1) (by omega)
    · exact (hasRoom_shift he hfits j).mpr (hrooms (j + 1) (by omega))

theorem logMessage_failed {host : LogHost} {message : String} {s : LogState} {e : SysError}
    (he : host.writeError s.writes = some e) (hfits : (logmessage e).utf8ByteSize < 1000)
    (hroom : HasRoom host message s.writes 0) (frames : ℕ) :
    logMessage host (frames + 1) message s =
      (logMessage host frames (logmessage e) ⟨s.writes + 1, s.log⟩).andThen fun s =>
        .stopped (exitCleanup host (-12)) s := by
  have hentry : ¬(logentry host s.writes message).utf8ByteSize ≥ 1024 := Nat.not_le.mpr hroom.1
  have hmessage : ¬(logmessage e).utf8ByteSize ≥ 1000 := Nat.not_le.mpr hfits
  simp only [logMessage, if_neg hentry, he, if_neg hmessage]

def afterSuccess (host : LogHost) (message : String) (s : LogState) (k : ℕ) : LogState :=
  ⟨s.writes + k + 1,
    s.log ++ [logentry host (s.writes + k) (nestedMessage host message s.writes k)]⟩

/-- Once a write succeeds, every call of the recursion ends. -/
theorem logMessage_of_firstSuccess {host : LogHost} {message : String} {s : LogState} {k : ℕ}
    (h : FirstSuccess host message s.writes k) (frames : ℕ) (hframes : k < frames) :
    logMessage host frames message s =
      match host.writeError s.writes with
      | none => .running (afterSuccess host message s k)
      | some _ => .stopped (exitCleanup host (-12)) (afterSuccess host message s k) := by
  induction k generalizing message s frames with
  | zero =>
    obtain ⟨frames, rfl⟩ : ∃ n, frames = n + 1 := ⟨frames - 1, by omega⟩
    have hsucc : host.writeError s.writes = none := h.success
    have hentry : ¬(logentry host s.writes message).utf8ByteSize ≥ 1024 :=
      Nat.not_le.mpr (h.room 0 (Nat.le_refl 0)).1
    simp only [logMessage, if_neg hentry, hsucc]
    rfl
  | succ k ih =>
    obtain ⟨frames, rfl⟩ : ∃ n, frames = n + 1 := ⟨frames - 1, by omega⟩
    obtain ⟨e, he⟩ := Option.ne_none_iff_exists'.mp (h.failures 0 (by omega))
    rw [Nat.add_zero] at he
    have hroom := h.room 0 (by omega)
    have hfits : (logmessage e).utf8ByteSize < 1000 := by
      have hone := (h.room 1 (by omega)).2 (by omega)
      rwa [← nestedMessage_shift message he 0] at hone
    have hrec := ih (s := ⟨s.writes + 1, s.log⟩)
      ((firstSuccess_shift he hfits hroom).mpr h) frames (by omega)
    have hafter : afterSuccess host (logmessage e) ⟨s.writes + 1, s.log⟩ k =
        afterSuccess host message s (k + 1) := by
      simp only [afterSuccess, nestedMessage_shift message he k,
        show s.writes + 1 + k = s.writes + (k + 1) by omega]
    rw [logMessage_failed he hfits hroom, hrec, he, hafter]
    cases host.writeError (s.writes + 1) <;> rfl

theorem exists_firstSuccess {host : LogHost} (frames : ℕ) (message : String) (s : LogState)
    (h : ∀ f t, logMessage host frames message s ≠ .stopped (.fault f) t) :
    ∃ k < frames, FirstSuccess host message s.writes k := by
  induction frames generalizing message s with
  | zero => exact absurd rfl (h .stackOverflow s)
  | succ frames ih =>
    by_cases hentry : (logentry host s.writes message).utf8ByteSize ≥ 1024
    · simp only [logMessage, if_pos hentry] at h
      exact absurd rfl (h _ _)
    have hroom : HasRoom host message s.writes 0 := ⟨Nat.lt_of_not_le hentry, by omega⟩
    cases he : host.writeError s.writes with
    | none =>
      refine ⟨0, Nat.succ_pos frames, he, by omega, fun j hj => ?_⟩
      obtain rfl : j = 0 := by omega
      exact hroom
    | some e =>
      by_cases hfits : (logmessage e).utf8ByteSize < 1000
      · rw [logMessage_failed he hfits hroom] at h
        obtain ⟨k, hlt, hk⟩ := ih (logmessage e) ⟨s.writes + 1, s.log⟩ (by
          intro f t hfault
          rw [hfault] at h
          exact h f t rfl)
        exact ⟨k + 1, Nat.succ_lt_succ hlt, (firstSuccess_shift he hfits hroom).mp hk⟩
      · simp only [logMessage, if_neg hentry, he, if_pos (Nat.not_lt.mp hfits)] at h
        exact absurd rfl (h _ _)

theorem completesWithin_iff (host : LogHost) (frames : ℕ) (message : String) (s : LogState) :
    CompletesWithin host frames message s ↔ ∃ k < frames, FirstSuccess host message s.writes k := by
  constructor
  · rintro ⟨t, hend⟩
    refine exists_firstSuccess frames message s fun f t' hfault => ?_
    rw [hfault] at hend
    cases hw : host.writeError s.writes <;> rw [hw] at hend <;> cases hend
  · rintro ⟨k, hlt, hk⟩
    exact ⟨afterSuccess host message s k, logMessage_of_firstSuccess hk frames hlt⟩

/-- Logging completes, on a stack that is deep enough, exactly when some write of the sequence
succeeds and the texts composed up to it fit in their arrays. On a given stack this must be a
write whose number is smaller than the number of frames. -/
theorem log_completes_iff (host : LogHost) (message : String) (s : LogState) :
    (Completes host message s ↔ ∃ k, FirstSuccess host message s.writes k) ∧
    ∀ frames, CompletesWithin host frames message s ↔
      ∃ k < frames, FirstSuccess host message s.writes k := by
  refine ⟨⟨?_, ?_⟩, fun frames => completesWithin_iff host frames message s⟩
  · rintro ⟨depth, t, hcomplete⟩
    obtain ⟨k, -, hk⟩ :=
      (completesWithin_iff host depth message s).mp ⟨t, hcomplete depth (Nat.le_refl depth)⟩
    exact ⟨k, hk⟩
  · rintro ⟨k, hk⟩
    exact ⟨k + 1, afterSuccess host message s k, fun frames hframes =>
      logMessage_of_firstSuccess hk frames hframes⟩

/-- While all writes fail the recursion uses up every stack. -/
theorem logMessage_of_failures {host : LogHost} (message : String) (s : LogState)
    (hfail : ∀ j, host.writeError (s.writes + j) ≠ none)
    (hroom : ∀ j, HasRoom host message s.writes j) (frames : ℕ) :
    logMessage host frames message s =
      .stopped (.fault .stackOverflow) ⟨s.writes + frames, s.log⟩ := by
  induction frames generalizing message s with
  | zero => rfl
  | succ frames ih =>
    obtain ⟨e, he⟩ := Option.ne_none_iff_exists'.mp (hfail 0)
    rw [Nat.add_zero] at he
    have hfits : (logmessage e).utf8ByteSize < 1000 := by
      have hone := (hroom 1).2 (by omega)
      rwa [← nestedMessage_shift message he 0] at hone
    have hrec := ih (logmessage e) ⟨s.writes + 1, s.log⟩
      (fun j => by
        rw [show s.writes + 1 + j = s.writes + (j + 1) by omega]
        exact hfail (j + 1))
      (fun j => (hasRoom_shift he hfits j).mpr (hroom (j + 1)))
    rw [logMessage_failed he hfits (hroom 0), hrec, Outcome.andThen_stopped,
      show s.writes + 1 + frames = s.writes + (frames + 1) by omega]

def noSpace : SysError := ⟨28, "No space left on device"⟩

def fullDisk : LogHost where
  pidFileHandle := 4
  logFileHandle := 3
  outFileHandle := 5
  pid := 100
  timestr := fun _ => "2015-01-01 00:00:00"
  writeError := fun _ => some noSpace

/-- On a full disk no stack is deep enough for the first message of the daemon. -/
theorem fullDisk_not_completes :
    ¬Completes fullDisk "<INFO> Starting entropy gathering daemon..." ⟨0, []⟩ ∧
      ∀ frames, logMessage fullDisk frames "<INFO> Starting entropy gathering daemon..." ⟨0, []⟩ =
        .stopped (.fault .stackOverflow) ⟨frames, []⟩ := by
  have hentry : (logentry fullDisk 0 (logmessage noSpace)).utf8ByteSize < 1024 := by decide
  have hmessage : (logmessage noSpace).utf8ByteSize < 1000 := by decide
  have hroom : ∀ j, HasRoom fullDisk "<INFO> Starting entropy gathering daemon..." 0 j := by
    intro j
    cases j with
    | zero => exact ⟨by decide, by omega⟩
    | succ j => exact ⟨hentry, fun _ => hmessage⟩
  have hover := logMessage_of_failures _ ⟨0, []⟩ (fun j => by simp [fullDisk]) hroom
  simp only [Nat.zero_add] at hover
  refine ⟨?_, hover⟩
  rintro ⟨depth, t, hcomplete⟩
  have hend := hcomplete depth (Nat.le_refl depth)
  rw [hover] at hend
  cases hend

end K7nvhRng.LogRecursion
