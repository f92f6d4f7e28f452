import K7nvhRng.LogRecursion
import Mathlib.Algebra.GroupWithZero.Nat

/-!
# The log when signals arrive

`main` composes most of its messages in the global array `logmessage` and passes that to
`log_message`, and `signal_handler` calls `log_message` as well, at any point of `main`, of
`log_message` and of a handler that is already running. The machine below executes the
statements of `log_message` one by one, on a stack of handlers above `main`. The array and the
result of `localtime` are shared by all of them; the arrays `timestr` and `logentry` belong to
each call. A write that succeeds may leave out the end of an entry, which is not noticed.
-/

namespace K7nvhRng.SignalLogging
open CheckedArrays AmlsArrays StoppableRuns DaemonLoop LogRecursion

inductive Signal where
  | alrm | hup | int | term
  /-- any other signal, with its `strsignal` text -/
  | other (description : String)
  deriving DecidableEq

def registered : List Signal := [.alrm, .hup, .int, .term]

/-- Where a line of the log comes from. A call whose write has failed goes on as `failure`. -/
inductive Origin where
  | main
  | handler (s : Signal)
  | failure
  deriving DecidableEq

/-- A message to be logged: composed in `logmessage` first, or passed as a literal. -/
structure Item where
  text : String
  formatted : Bool

/-- The statement that comes next for a message. -/
inductive Phase where
  /-- `sprintf(logmessage, ...)`, unless the message is a literal -/
  | compose
  /-- `time` and `localtime` -/
  | readClock
  /-- `strftime(timestr, ...)` -/
  | printTime
  /-- `sprintf(logentry, ...)` -/
  | fillEntry
  /-- `write(logFileHandle, ...)` -/
  | writeEntry
  deriving DecidableEq

/-- `main` or a handler, with the arrays of its call of `log_message`. -/
structure Frame where
  origin : Origin
  /-- what is still to be logged, the first of it in progress -/
  items : List Item
  phase : Phase
  timestr : String
  logentry : String
  /-- the status passed to `exit_cleanup` behind the messages, if it is called -/
  exit : Option ℤ

def Frame.start (origin : Origin) (items : List Item) (exit : Option ℤ) : Frame :=
  ⟨origin, items, .compose, "", "", exit⟩

structure Shared where
  logmessage : String
  /-- the `struct tm` of `localtime`, as it is printed -/
  tm : String
  testEnt : Bool
  log : List (Origin × List Byte)

/-- The handlers that are running, the last one first, above `main`. -/
structure Machine where
  shared : Shared
  main : Frame
  handlers : List Frame

/-- What a statement meets: the time, and the error of a write that fails or the number of bytes
that a write leaves out. -/
structure Answer where
  time : String
  write : Except SysError ℕ

def entryText (host : LogHost) (timestr message : String) : String :=
  s!"{timestr} K7NVH_RNG[{host.pid}]: {message}\r\n"

def cut (entry : String) (missing : ℕ) : List Byte :=
  (bytesOf entry).take (entry.utf8ByteSize - missing)

@[simp] theorem cut_zero (entry : String) : cut entry 0 = bytesOf entry := by
  rw [cut, Nat.sub_zero, ← length_bytesOf, List.take_length]

def Item.read (i : Item) (s : Shared) : String := if i.formatted then s.logmessage else i.text

theorem Item.read_eq (i : Item) {s : Shared} (h : i.formatted = true → s.logmessage = i.text) :
    i.read s = i.text := by
  rw [Item.read]
  split
  · rename_i hformatted
    exact h hformatted
  · rfl

/-- One statement of a frame. -/
def advance (host : LogHost) (a : Answer) (f : Frame) (s : Shared) :
    Outcome LogStop (Frame × Shared) :=
  match f.items with
  | [] =>
    match f.exit with
    | some value => .stopped (exitCleanup host value) (f, s)
    | none => .running (f, s)
  | i :: rest =>
    match f.phase with
    | .compose =>
      if i.formatted then
        if i.text.utf8ByteSize ≥ 1000 then .stopped (.fault (.badIndex 1000)) (f, s)
        else .running ({ f with phase := .readClock }, { s with logmessage := i.text })
      else .running ({ f with phase := .readClock }, s)
    | .readClock => .running ({ f with phase := .printTime }, { s with tm := a.time })
    | .printTime => .running ({ f with phase := .fillEntry, timestr := s.tm }, s)
    | .fillEntry =>
      if (entryText host f.timestr (i.read s)).utf8ByteSize ≥ 1024 then
        .stopped (.fault (.badIndex 1024)) (f, s)
      else
        .running ({ f with phase := .writeEntry, logentry := entryText host f.timestr (i.read s) }, s)
    | .writeEntry =>
      match a.write with
      | .ok missing => .running ({ f with items := rest, phase := .compose },
          { s with log := s.log ++ [(f.origin, cut f.logentry missing)] })
      | .error e => .running (Frame.start .failure [⟨logmessage e, true⟩] (some (-12)), s)

/-- One statement of what runs on top of the stack. A handler without a message left returns. -/
def step (host : LogHost) (a : Answer) (m : Machine) : Outcome LogStop Machine :=
  match m.handlers with
  | [] => (advance host a m.main m.shared).map fun r => ⟨r.2, r.1, []⟩
  | f :: below =>
    if f.items = [] ∧ f.exit = none then .running { m with handlers := below }
    else (advance host a f m.shared).map fun r => ⟨r.2, m.main, r.1 :: below⟩

def Machine.push (f : Frame) (m : Machine) : Machine := { m with handlers := f :: m.handlers }

/-- The message that `signal_handler` logs. There is none for `SIGALRM`. -/
def notice : Signal → Option Item
  | .alrm => none
  | .hup => some ⟨"<NOTICE> Received SIGHUP signal.", false⟩
  | .int | .term => some ⟨"<NOTICE> Received SIGTERM. Exiting.", false⟩
  | .other description => some ⟨s!"<WARNING> Unhandled signal {description}", true⟩

/-- `signal_handler(sig)` up to its message. -/
def handle (sig : Signal) (m : Machine) : Machine :=
  match sig with
  | .alrm => { m with shared := { m.shared with testEnt := true } }
  | .hup | .other _ => m.push (.start (.handler sig) (notice sig).toList none)
  | .int | .term => m.push (.start (.handler sig) (notice sig).toList (some 0))

/-- A statement is executed, or a signal is handled whose handler has been installed. -/
inductive Event where
  | statement (a : Answer)
  | signal (sig : Signal) (installed : sig ∈ registered)

def happen (host : LogHost) : Event → Machine → Outcome LogStop Machine
  | .statement a, m => step host a m
  | .signal sig _, m => .running (handle sig m)

def Machine.init (items : List Item) : Machine := ⟨⟨"", "", false, []⟩, .start .main items none, []⟩

def run (host : LogHost) (items : List Item) (events : List Event) : Outcome LogStop Machine :=
  Outcome.fold (happen host) events (Machine.init items)

def linesOf (o : Origin) (s : Shared) : List (List Byte) :=
  (s.log.filter fun l => l.1 = o).map Prod.snd

def answersOf (events : List Event) : List Answer :=
  events.filterMap fun
    | .statement a => some a
    | .signal _ _ => none

/-! ### What a statement can do -/

/-- The text is the entry of the message, with a time that the clock has shown. This need not be
the time of the message itself: `localtime` of a handler may have replaced it. -/
def EntryOf (host : LogHost) (answers : List Answer) (i : Item) (entry : String) : Prop :=
  ∃ a ∈ answers, entry = entryText host a.time i.text

/-- The line is the entry of the message, up to what the write has left out. -/
def IsLine (host : LogHost) (answers : List Answer) (i : Item) (line : List Byte) : Prop :=
  ∃ entry, EntryOf host answers i entry ∧
    ∃ a ∈ answers, ∃ missing, a.write = .ok missing ∧ line = cut entry missing

def Shown (answers : List Answer) (time : String) : Prop := ∃ a ∈ answers, a.time = time

/-- The frame will log the message it is at: the array still holds what has been composed in
it, the time is one that has been read, and an entry that has been filled is that of the
message. -/
def Ready (host : LogHost) (answers : List Answer) (s : Shared) (f : Frame) : Prop :=
  match f.items with
  | [] => True
  | i :: _ =>
    match f.phase with
    | .compose => True
    | .readClock => i.formatted = true → s.logmessage = i.text
    | .printTime => (i.formatted = true → s.logmessage = i.text) ∧ Shown answers s.tm
    | .fillEntry => (i.formatted = true → s.logmessage = i.text) ∧ Shown answers f.timestr
    | .writeEntry => EntryOf host answers i f.logentry

theorem ready_start (host : LogHost) (answers : List Answer) (s : Shared) (o : Origin)
    (items : List Item) (exit : Option ℤ) : Ready host answers s (.start o items exit) := by
  cases items <;> trivial

/-- What others do in between: they leave the array alone, and may read the clock. -/
structure Spares (answers : List Answer) (s s' : Shared) : Prop where
  logmessage : s'.logmessage = s.logmessage
  tm : s'.tm = s.tm ∨ Shown answers s'.tm

theorem Ready.of_spares {host : LogHost} {answers : List Answer} {s s' : Shared} {f : Frame}
    (h : Ready host answers s f) (hs : Spares answers s s') : Ready host answers s' f := by
  have htm : Shown answers s.tm → Shown answers s'.tm := fun hshown =>
    hs.tm.elim (fun heq => heq ▸ hshown) id
  unfold Ready at h ⊢
  rw [hs.logmessage]
  split
  · trivial
  · next heq =>
    rw [heq] at h
    dsimp only at h
    split
    · trivial
    · next hphase =>
      rw [hphase] at h
      exact h
    · next hphase =>
      rw [hphase] at h
      exact ⟨h.1, htm h.2⟩
    · next hphase =>
      rw [hphase] at h
      exact h
    · next hphase =>
      rw [hphase] at h
      exact h

/-- A message that a line of this origin may carry. -/
def Allowed (answers : List Answer) : Origin → Item → Prop
  | .main, _ => True
  | .handler sig, i => notice sig = some i
  | .failure, i => ∃ a ∈ answers, ∃ e, a.write = .error e ∧ i = ⟨logmessage e, true⟩

section Advances
variable (host : LogHost) (answers : List Answer)

/-- Everything that a statement of a frame can do when it does not end the process. -/
inductive Advances (f : Frame) (s : Shared) : Frame → Shared → Prop where
  | idle (hitems : f.items = []) (hexit : f.exit = none) : Advances f s f s
  | composes {i : Item} {rest : List Item} (hitems : f.items = i :: rest)
      (hformatted : i.formatted = true) {f' : Frame}
      (hready : Ready host answers { s with logmessage := i.text } f')
      (hsame : f'.origin = f.origin ∧ f'.items = f.items ∧ f'.exit = f.exit) :
      Advances f s f' { s with logmessage := i.text }
  | prepares {f' : Frame} {s' : Shared} (hready : Ready host answers s' f')
      (hsame : f'.origin = f.origin ∧ f'.items = f.items ∧ f'.exit = f.exit)
      (hspares : Spares answers s s') (hlog : s'.log = s.log) : Advances f s f' s'
  | logs {i : Item} {rest : List Item} (hitems : f.items = i :: rest) {line : List Byte}
      (hline : IsLine host answers i line) {f' : Frame}
      (hready : Ready host answers { s with log := s.log ++ [(f.origin, line)] } f')
      (hsame : f'.origin = f.origin ∧ f'.items = rest ∧ f'.exit = f.exit) :
      Advances f s f' { s with log := s.log ++ [(f.origin, line)] }
  | fails (e : SysError) (he : Allowed answers .failure ⟨logmessage e, true⟩) :
      Advances f s (.start .failure [⟨logmessage e, true⟩] (some (-12))) s

variable {host answers} {a : Answer} {f : Frame} {s : Shared}

theorem advance_cases (ha : a ∈ answers) {f' : Frame} {s' : Shared}
    (hready : Ready host answers s f) (h : advance host a f s = .running (f', s')) :
    Advances host answers f s f' s' := by
  obtain ⟨origin, items, phase, timestr, entry, exit⟩ := f
  cases items with
  | nil =>
    cases exit with
    | none =>
      cases h
      exact .idle rfl rfl
    | some value => cases h
  | cons i rest =>
    cases phase with
    | compose =>
      by_cases hformatted : i.formatted = true
      · by_cases hfits : i.text.utf8ByteSize ≥ 1000
        · simp [advance, hformatted, hfits] at h
        · simp only [advance, hformatted, hfits, if_true, if_false] at h
          cases h
          exact .composes rfl hformatted (fun _ => rfl) ⟨rfl, rfl, rfl⟩
      · simp only [advance, hformatted, Bool.false_eq_true, if_false] at h
        cases h
        exact .prepares (fun h => absurd h hformatted) ⟨rfl, rfl, rfl⟩ ⟨rfl, .inl rfl⟩ rfl
    | readClock =>
      cases h
      exact .prepares ⟨hready, a, ha, rfl⟩ ⟨rfl, rfl, rfl⟩ ⟨rfl, .inr ⟨a, ha, rfl⟩⟩ rfl
    | printTime =>
      cases h
      exact .prepares hready ⟨rfl, rfl, rfl⟩ ⟨rfl, .inl rfl⟩ rfl
    | fillEntry =>
      have hread : i.read s = i.text := i.read_eq hready.1
      obtain ⟨b, hb, hshown⟩ := hready.2
      simp only [advance, hread] at h
      split at h
      · cases h
      · cases h
        exact .prepares ⟨b, hb, congrArg (entryText host · i.text) hshown.symm⟩ ⟨rfl, rfl, rfl⟩
          ⟨rfl, .inl rfl⟩ rfl
    | writeEntry =>
      cases hwrite : a.write with
      | ok missing =>
        simp only [advance, hwrite] at h
        cases h
        refine .logs rfl ⟨entry, hready, a, ha, missing, hwrite, rfl⟩ ?_ ⟨rfl, rfl, rfl⟩
        cases rest <;> trivial
      | error e =>
        simp only [advance, hwrite] at h
        cases h
        exact .fails e ⟨a, ha, e, hwrite, rfl⟩

theorem advance_stopped {r : Frame × Shared} {why : LogStop}
    (h : advance host a f s = .stopped why r) : r = (f, s) := by
  obtain ⟨origin, items, phase, timestr, entry, exit⟩ := f
  obtain ⟨time, write⟩ := a
  cases items with
  | nil => cases exit <;> cases h; rfl
  | cons i rest =>
    cases phase <;> simp only [advance] at h
    · split at h
      · split at h <;> cases h
        rfl
      · cases h
    · cases h
    · cases h
    · split at h <;> cases h
      rfl
    · cases write <;> cases h

end Advances

theorem step_main (host : LogHost) (a : Answer) (s : Shared) (main : Frame) :
    step host a ⟨s, main, []⟩ = (advance host a main s).map fun r => ⟨r.2, r.1, []⟩ := rfl

theorem step_return (host : LogHost) (a : Answer) (s : Shared) (main : Frame) {f : Frame}
    (below : List Frame) (hdone : f.items = [] ∧ f.exit = none) :
    step host a ⟨s, main, f :: below⟩ = .running ⟨s, main, below⟩ :=
  if_pos hdone

theorem step_handler (host : LogHost) (a : Answer) (s : Shared) (main : Frame) {f : Frame}
    (below : List Frame) (hbusy : ¬(f.items = [] ∧ f.exit = none)) :
    step host a ⟨s, main, f :: below⟩ =
      (advance host a f s).map fun r => ⟨r.2, main, r.1 :: below⟩ :=
  if_neg hbusy

theorem linesOf_append (o o' : Origin) (s : Shared) (line : List Byte) :
    linesOf o { s with log := s.log ++ [(o', line)] } =
      linesOf o s ++ if o' = o then [line] else [] := by
  by_cases h : o' = o <;> simp [linesOf, h]

/-! ### Without signals -/

def call (host : LogHost) (n : ℕ) : List Answer :=
  List.replicate 5 ⟨host.timestr n, (host.writeError n).elim (.ok 0) .error⟩

theorem entryText_timestr (host : LogHost) (n : ℕ) (message : String) :
    entryText host (host.timestr n) message = logentry host n message := rfl

/-- What the statements of a call leave in the shared variables, apart from the log. -/
def Shared.after (s : Shared) (i : Item) (time : String) : Shared :=
  { s with logmessage := if i.formatted then i.text else s.logmessage, tm := time }

theorem fold_call (host : LogHost) (n : ℕ) {i : Item} (rest : List Item) (o : Origin)
    (timestr entry : String) (exit : Option ℤ) (s : Shared)
    (hfits : i.formatted = true → i.text.utf8ByteSize < 1000)
    (hentry : (logentry host n i.text).utf8ByteSize < 1024) :
    Outcome.fold (step host) (call host n) ⟨s, ⟨o, i :: rest, .compose, timestr, entry, exit⟩, []⟩ =
      match host.writeError n with
      | none => .running
          ⟨{ s.after i (host.timestr n) with log := s.log ++ [(o, bytesOf (logentry host n i.text))] },
            ⟨o, rest, .compose, host.timestr n, logentry host n i.text, exit⟩, []⟩
      | some e => .running
          ⟨s.after i (host.timestr n), .start .failure [⟨logmessage e, true⟩] (some (-12)), []⟩ := by
  obtain ⟨text, formatted⟩ := i
  have hentry' : ¬1024 ≤ (logentry host n text).utf8ByteSize := Nat.not_le.mpr hentry
  cases formatted with
  | false =>
    cases he : host.writeError n <;>
      simp [call, List.replicate, step, advance, Outcome.map, Item.read, Shared.after,
        hentry', he, entryText_timestr]
  | true =>
    have hfits' : ¬1000 ≤ text.utf8ByteSize := Nat.not_le.mpr (hfits rfl)
    cases he : host.writeError n <;>
      simp [call, List.replicate, step, advance, Outcome.map, Item.read, Shared.after,
        hfits', hentry', he, entryText_timestr]

/-- The log holds these entries, wherever they come from. -/
def Shared.Holds (s : Shared) (log : List String) : Prop := s.log.map Prod.snd = log.map bytesOf

/-- A call of `log_message` that nothing interrupts returns if the function does, and leaves the
same log. -/
theorem call_returns {host : LogHost} {frames n : ℕ} {i : Item} {s : Shared} {log : List String}
    {t : LogState} (hlog : s.Holds log) (h : logMessage host frames i.text ⟨n, log⟩ = .running t)
    (hfits : i.formatted = true → i.text.utf8ByteSize < 1000) (rest : List Item) (o : Origin)
    (timestr entry : String) (exit : Option ℤ) :
    ∃ (s' : Shared) (f : Frame), Outcome.fold (step host) (call host n)
        ⟨s, ⟨o, i :: rest, .compose, timestr, entry, exit⟩, []⟩ = .running ⟨s', f, []⟩ ∧
      f.items = rest ∧ f.exit = exit ∧ s'.Holds t.log := by
  cases frames with
  | zero => cases h
  | succ frames =>
    rw [logMessage] at h
    split at h
    · cases h
    · rename_i hentry
      have hcall := fold_call host n rest o timestr entry exit s hfits (Nat.lt_of_not_le hentry)
      cases he : host.writeError n with
      | none =>
        rw [he] at h hcall
        cases h
        refine ⟨_, _, hcall, rfl, rfl, ?_⟩
        rw [Shared.Holds, List.map_append, List.map_append, ← hlog]
        rfl
      | some e =>
        rw [he] at h
        dsimp only at h
        split at h
        · cases h
        · generalize logMessage host frames (logmessage e) ⟨n + 1, log⟩ = r at h
          cases r <;> cases h

theorem call_exits {host : LogHost} {frames n : ℕ} {i : Item} {s : Shared} {log : List String}
    {t : LogState} {v : ℤ} {closed : List ℤ} (hlog : s.Holds log)
    (h : logMessage host frames i.text ⟨n, log⟩ = .stopped (.exit v closed) t)
    (hfits : i.formatted = true → i.text.utf8ByteSize < 1000) (rest : List Item) (o : Origin)
    (timestr entry : String) (exit : Option ℤ) :
    ∃ (answers : List Answer) (m : Machine),
      Outcome.fold (step host) answers ⟨s, ⟨o, i :: rest, .compose, timestr, entry, exit⟩, []⟩ =
          .stopped (.exit v closed) m ∧
        m.shared.Holds t.log := by
  induction frames generalizing n i s rest o timestr entry exit with
  | zero => cases h
  | succ frames ih =>
    rw [logMessage] at h
    split at h
    · cases h
    · rename_i hentry
      have hcall := fold_call host n rest o timestr entry exit s hfits (Nat.lt_of_not_le hentry)
      cases he : host.writeError n with
      | none =>
        rw [he] at h
        cases h
      | some e =>
        rw [he] at h hcall
        dsimp only at h
        split at h
        · cases h
        · rename_i hmessage
          have hfits' : (⟨logmessage e, true⟩ : Item).formatted = true →
            (logmessage e).utf8ByteSize < 1000 := fun _ => Nat.lt_of_not_le hmessage
          have hlog' : (s.after i (host.timestr n)).Holds log := hlog
          cases hnested : logMessage host frames (logmessage e) ⟨n + 1, log⟩ with
          | running t' =>
            -- the nested call returns, and the exit behind it is next
            rw [hnested] at h
            cases h
            obtain ⟨s', f, hreturns, hitems, hexit, hlines⟩ :=
              call_returns (i := ⟨logmessage e, true⟩) hlog' hnested hfits' [] .failure "" ""
                (some (-12))
            refine ⟨call host n ++ call host (n + 1) ++ [⟨"", .ok 0⟩], ⟨s', f, []⟩, ?_, hlines⟩
            rw [Outcome.fold_append, Outcome.fold_append, hcall, Outcome.andThen_running, Frame.start,
              hreturns, Outcome.andThen_running, Outcome.fold_singleton, step_main, advance, hitems]
            dsimp only
            rw [hexit]
            rfl
          | stopped why t' =>
            rw [hnested] at h
            cases h
            obtain ⟨answers, m, hexits, hlines⟩ :=
              ih (i := ⟨logmessage e, true⟩) hlog' hnested hfits' [] .failure "" "" (some (-12))
            refine ⟨call host n ++ answers, m, ?_, hlines⟩
            rw [Outcome.fold_append, hcall, Outcome.andThen_running]
            exact hexits

/-! ### No message is lost or altered -/

section Keeps
variable (host : LogHost) (answers : List Answer)

/-- The frames that can still run will log what they are at. A handler that returns uses
literals only, so that it leaves the array to the frames below; nothing is known about what is
below a frame that ends in an exit. -/
def Intact (s : Shared) (main : Frame) : List Frame → Prop
  | [] => Ready host answers s main
  | f :: below => Ready host answers s f ∧ f.origin ≠ .main ∧
      (f.exit = none → (∀ i ∈ f.items, i.formatted = false) ∧ Intact s main below)

/-- The messages of `main` are in the log one after the other, up to the one it is at, and every
line is that of a message that its origin may log. -/
structure Logged (items : List Item) (m : Machine) : Prop where
  main : ∃ done, done <+: items ∧
    List.Forall₂ (IsLine host answers) done (linesOf .main m.shared) ∧
    (m.main.origin = .main → done ++ m.main.items = items)
  all : ∀ l ∈ m.shared.log, ∃ i, Allowed answers l.1 i ∧ IsLine host answers i l.2

structure Keeps (items : List Item) (m : Machine) : Prop where
  intact : Intact host answers m.shared m.main m.handlers
  allowed : ∀ f ∈ m.main :: m.handlers, ∀ i ∈ f.items, Allowed answers f.origin i
  logged : Logged host answers items m

variable {host answers} {items : List Item}

theorem keeps_init : Keeps host answers items (Machine.init items) where
  intact := ready_start host answers _ .main items none
  allowed := by
    intro f hf i _
    rw [List.mem_singleton.mp hf]
    trivial
  logged := ⟨⟨[], List.nil_prefix, .nil, fun _ => rfl⟩, by simp [Machine.init]⟩

theorem Intact.of_spares {s s' : Shared} {main : Frame} {handlers : List Frame}
    (h : Intact host answers s main handlers) (hs : Spares answers s s') :
    Intact host answers s' main handlers := by
  induction handlers with
  | nil => exact Ready.of_spares h hs
  | cons f below ih =>
    obtain ⟨hready, horigin, hlive⟩ := h
    exact ⟨hready.of_spares hs, horigin, fun hexit => ⟨(hlive hexit).1, ih (hlive hexit).2⟩⟩

theorem Logged.congr {m m' : Machine} (h : Logged host answers items m)
    (hlog : m'.shared.log = m.shared.log)
    (hmain : m'.main.origin = .main → m.main.origin = .main ∧ m'.main.items = m.main.items) :
    Logged host answers items m' := by
  obtain ⟨⟨done, hdone, hentries, hrest⟩, hall⟩ := h
  refine ⟨⟨done, hdone, ?_, fun horigin => ?_⟩, hlog ▸ hall⟩
  · rwa [linesOf, hlog]
  · obtain ⟨horigin', hitems⟩ := hmain horigin
    rw [hitems]
    exact hrest horigin'

theorem Logged.append {m m' : Machine} (h : Logged host answers items m) {o : Origin}
    {line : List Byte} {i : Item} (ho : o ≠ .main) (hi : Allowed answers o i)
    (hline : IsLine host answers i line) (hlog : m'.shared.log = m.shared.log ++ [(o, line)])
    (hmain : m'.main.origin = .main → m.main.origin = .main ∧ m'.main.items = m.main.items) :
    Logged host answers items m' := by
  obtain ⟨⟨done, hdone, hentries, hrest⟩, hall⟩ := h
  refine ⟨⟨done, hdone, ?_, fun horigin => ?_⟩, ?_⟩
  · have hlines : linesOf .main m'.shared = linesOf .main m.shared := by
      simp [linesOf, hlog, ho]
    rwa [hlines]
  · obtain ⟨horigin', hitems⟩ := hmain horigin
    rw [hitems]
    exact hrest horigin'
  · rw [hlog]
    exact List.forall_mem_append.mpr ⟨hall, List.forall_mem_singleton.mpr ⟨i, hi, hline⟩⟩

theorem Logged.of_mem_linesOf {m : Machine} (h : Logged host answers items m) {o : Origin}
    {line : List Byte} (hline : line ∈ linesOf o m.shared) :
    ∃ i, Allowed answers o i ∧ IsLine host answers i line := by
  obtain ⟨⟨o', line'⟩, hmem, rfl⟩ := List.mem_map.mp hline
  obtain ⟨hlog, horigin⟩ := List.mem_filter.mp hmem
  obtain rfl : o' = o := by simpa using horigin
  exact h.all _ hlog

theorem Keeps.advance_main {s s' : Shared} {f f' : Frame}
    (h : Keeps host answers items ⟨s, f, []⟩) (ha : Advances host answers f s f' s') :
    Keeps host answers items ⟨s', f', []⟩ := by
  have hallowed := List.forall_mem_singleton.mp h.allowed
  cases ha with
  | idle hitems hexit => exact h
  | composes hitems hformatted hready hsame =>
    refine ⟨hready, List.forall_mem_singleton.mpr ?_,
      h.logged.congr rfl fun horigin => ⟨hsame.1 ▸ horigin, hsame.2.1⟩⟩
    rwa [hsame.1, hsame.2.1]
  | prepares hready hsame hspares hlog =>
    refine ⟨hready, List.forall_mem_singleton.mpr ?_,
      h.logged.congr hlog fun horigin => ⟨hsame.1 ▸ horigin, hsame.2.1⟩⟩
    rwa [hsame.1, hsame.2.1]
  | @logs i rest hitems line hline _ hready hsame =>
    rw [hitems] at hallowed
    obtain ⟨hi, hrest⟩ := List.forall_mem_cons.mp hallowed
    refine ⟨hready, List.forall_mem_singleton.mpr ?_, ?_⟩
    · rwa [hsame.1, hsame.2.1]
    · by_cases horigin : f.origin = .main
      · obtain ⟨⟨done, -, hentries, hold⟩, hall⟩ := h.logged
        have hitems' : (done ++ [i]) ++ rest = items := by
          have hold' : done ++ f.items = items := hold horigin
          rw [List.append_assoc, List.singleton_append, ← hitems, hold']
        refine ⟨⟨done ++ [i], ⟨rest, hitems'⟩, ?_, fun _ => ?_⟩, ?_⟩
        · rw [linesOf_append, if_pos horigin]
          exact List.rel_append hentries (.cons hline .nil)
        · rw [hsame.2.1]
          exact hitems'
        · exact List.forall_mem_append.mpr ⟨hall, List.forall_mem_singleton.mpr ⟨i, hi, hline⟩⟩
      · exact h.logged.append horigin hi hline rfl fun hmain => absurd (hsame.1 ▸ hmain) horigin
  | fails e he =>
    refine ⟨ready_start _ _ _ _ _ _, List.forall_mem_singleton.mpr ?_,
      h.logged.congr rfl fun horigin => ?_⟩
    · exact List.forall_mem_singleton.mpr he
    · cases horigin

theorem Keeps.advance_handler {s s' : Shared} {main f f' : Frame} {below : List Frame}
    (h : Keeps host answers items ⟨s, main, f :: below⟩) (ha : Advances host answers f s f' s') :
    Keeps host answers items ⟨s', main, f' :: below⟩ := by
  obtain ⟨hready, horigin, hlive⟩ := h.intact
  obtain ⟨hmain, hothers⟩ := List.forall_mem_cons.mp h.allowed
  obtain ⟨hf, hbelow⟩ := List.forall_mem_cons.mp hothers
  have hallowed : (∀ i ∈ f'.items, Allowed answers f'.origin i) → ∀ g ∈ main :: f' :: below,
      ∀ i ∈ g.items, Allowed answers g.origin i := fun hf' =>
    List.forall_mem_cons.mpr ⟨hmain, List.forall_mem_cons.mpr ⟨hf', hbelow⟩⟩
  cases ha with
  | idle hitems hexit => exact h
  | @composes i rest hitems hformatted _ hready' hsame =>
    refine ⟨⟨hready', hsame.1 ▸ horigin, fun hexit => ?_⟩, hallowed ?_,
      h.logged.congr rfl fun hm => ⟨hm, rfl⟩⟩
    · -- only a frame that ends in an exit composes a message
      have hliteral := (hlive (hsame.2.2 ▸ hexit)).1 i (hitems ▸ List.mem_cons_self)
      rw [hformatted] at hliteral
      cases hliteral
    · rwa [hsame.1, hsame.2.1]
  | prepares hready' hsame hspares hlog =>
    refine ⟨⟨hready', hsame.1 ▸ horigin, fun hexit => ?_⟩, hallowed ?_,
      h.logged.congr hlog fun hm => ⟨hm, rfl⟩⟩
    · obtain ⟨hliteral, hintact⟩ := hlive (hsame.2.2 ▸ hexit)
      exact ⟨hsame.2.1 ▸ hliteral, hintact.of_spares hspares⟩
    · rwa [hsame.1, hsame.2.1]
  | @logs i rest hitems line hline _ hready' hsame =>
    rw [hitems] at hf hlive
    obtain ⟨hi, hrest⟩ := List.forall_mem_cons.mp hf
    refine ⟨⟨hready', hsame.1 ▸ horigin, fun hexit => ?_⟩, hallowed ?_,
      h.logged.append horigin hi hline rfl fun hm => ⟨hm, rfl⟩⟩
    · obtain ⟨hliteral, hintact⟩ := hlive (hsame.2.2 ▸ hexit)
      rw [hsame.2.1]
      exact ⟨(List.forall_mem_cons.mp hliteral).2, hintact.of_spares ⟨rfl, .inl rfl⟩⟩
    · rwa [hsame.1, hsame.2.1]
  | fails e he =>
    refine ⟨⟨ready_start _ _ _ _ _ _, by simp [Frame.start], fun hexit => ?_⟩,
      hallowed (List.forall_mem_singleton.mpr he), h.logged.congr rfl fun hm => ⟨hm, rfl⟩⟩
    cases hexit

theorem Keeps.step {m : Machine} (h : Keeps host answers items m) {a : Answer} (ha : a ∈ answers) :
    Outcome.Satisfies (Keeps host answers items) (fun _ m => Logged host answers items m)
      (step host a m) := by
  obtain ⟨s, main, handlers⟩ := m
  cases handlers with
  | nil =>
    rw [step_main]
    cases hadvance : advance host a main s with
    | running r => exact .running (h.advance_main (advance_cases ha h.intact hadvance))
    | stopped why r =>
      rw [advance_stopped hadvance]
      exact .stopped h.logged
  | cons f below =>
    by_cases hdone : f.items = [] ∧ f.exit = none
    · rw [step_return host a s main below hdone]
      obtain ⟨hmain, hothers⟩ := List.forall_mem_cons.mp h.allowed
      exact .running ⟨(h.intact.2.2 hdone.2).2,
        List.forall_mem_cons.mpr ⟨hmain, (List.forall_mem_cons.mp hothers).2⟩,
        h.logged.congr rfl fun hm => ⟨hm, rfl⟩⟩
    · rw [step_handler host a s main below hdone]
      cases hadvance : advance host a f s with
      | running r => exact .running (h.advance_handler (advance_cases ha h.intact.1 hadvance))
      | stopped why r =>
        rw [advance_stopped hadvance]
        exact .stopped (h.logged.congr rfl fun hm => ⟨hm, rfl⟩)

/-- A handler is started. If it will return, its message is a literal. -/
theorem Keeps.push {m : Machine} (h : Keeps host answers items m) {sig : Signal} {exit : Option ℤ}
    (hliteral : exit = none → ∀ i ∈ notice sig, i.formatted = false) :
    Keeps host answers items (m.push (.start (.handler sig) (notice sig).toList exit)) := by
  obtain ⟨hmain, hothers⟩ := List.forall_mem_cons.mp h.allowed
  refine ⟨⟨ready_start _ _ _ _ _ _, by simp [Frame.start], fun hexit => ⟨?_, h.intact⟩⟩,
    List.forall_mem_cons.mpr ⟨hmain, List.forall_mem_cons.mpr ⟨?_, hothers⟩⟩,
    h.logged.congr rfl fun hm => ⟨hm, rfl⟩⟩
  · exact fun i hi => hliteral hexit i (Option.mem_toList.mp hi)
  · exact fun i hi => Option.mem_toList.mp hi

theorem Keeps.handle {m : Machine} (h : Keeps host answers items m) {sig : Signal}
    (hsig : sig ∈ registered) : Keeps host answers items (handle sig m) := by
  cases sig with
  | alrm => exact ⟨h.intact.of_spares ⟨rfl, .inl rfl⟩, h.allowed, h.logged.congr rfl fun hm => ⟨hm, rfl⟩⟩
  | hup => exact h.push fun _ i hi => by cases hi; rfl
  | int | term => exact h.push fun hexit => by cases hexit
  | other description => simp [registered] at hsig

theorem Keeps.event {m : Machine} (h : Keeps host answers items m) {e : Event}
    (he : ∀ a ∈ answersOf [e], a ∈ answers) :
    Outcome.Satisfies (Keeps host answers items) (fun _ m => Logged host answers items m)
      (happen host e m) := by
  cases e with
  | statement a => exact h.step (he a (by simp [answersOf]))
  | signal sig installed => exact .running (h.handle installed)

end Keeps

private theorem mem_answersOf {e : Event} {events : List Event} (he : e ∈ events) {a : Answer}
    (ha : a ∈ answersOf [e]) : a ∈ answersOf events := by
  cases e with
  | statement b =>
    rw [List.mem_singleton.mp ha]
    exact List.mem_filterMap.mpr ⟨_, he, rfl⟩
  | signal sig installed => cases ha

theorem keeps_run (host : LogHost) (items : List Item) (events : List Event) :
    Outcome.Satisfies (Keeps host (answersOf events) items)
      (fun _ m => Logged host (answersOf events) items m) (run host items events) :=
  Outcome.Satisfies.fold (fun _ he _ hm => hm.event fun _ ha => mem_answersOf he ha) keeps_init

def Phase.rank : Phase → ℕ
  | .compose => 0
  | .readClock => 1
  | .printTime => 2
  | .fillEntry => 3
  | .writeEntry => 4

def Frame.remaining (f : Frame) : ℕ := 5 * f.items.length - f.phase.rank

/-- The statements that are left, the returns of the handlers included. -/
def Machine.remaining (m : Machine) : ℕ :=
  m.main.remaining + (m.handlers.map fun f => f.remaining + 1).sum

theorem Frame.items_of_remaining {f : Frame} (h : f.remaining = 0) : f.items = [] := by
  have hrank : f.phase.rank ≤ 4 := by cases f.phase <;> decide
  rw [Frame.remaining] at h
  exact List.eq_nil_of_length_eq_zero (by omega)

theorem Frame.remaining_of_rank {f f' : Frame} (hne : f.items ≠ []) (hitems : f'.items = f.items)
    (hrank : f'.phase.rank = f.phase.rank + 1) : f'.remaining + 1 = f.remaining := by
  have hpos : 0 < f.items.length := List.length_pos_iff.mpr hne
  have hle : f'.phase.rank ≤ 4 := by cases f'.phase <;> decide
  rw [Frame.remaining, Frame.remaining, hitems]
  omega

/-- The write succeeds and leaves nothing out, and the time fits in its array. -/
structure Answer.Works (a : Answer) : Prop where
  write : a.write = .ok 0
  time : a.time.utf8ByteSize < 30

/-- The frame returns, and its texts fit in their arrays. -/
structure Brief (f : Frame) : Prop where
  exit : f.exit = none
  timestr : f.timestr.utf8ByteSize < 30
  items : ∀ i ∈ f.items, i.text.utf8ByteSize ≤ 900

private theorem utf8ByteSize_entryText (host : LogHost) (timestr message : String) :
    (entryText host timestr message).utf8ByteSize =
      timestr.utf8ByteSize + (toString host.pid).utf8ByteSize + message.utf8ByteSize + 16 :=
  utf8ByteSize_entry timestr (toString host.pid) message

/-- What a frame has logged and has still to log, under its own name. -/
def owed (o : Origin) (f : Frame) (s : Shared) : ℕ :=
  (linesOf o s).length + if f.origin = o then f.items.length else 0

/-- Nothing but `SIGALRM` and `SIGHUP` has been handled, the latter `hups` times, and no write
has failed. -/
structure Calm (hups : ℕ) (m : Machine) : Prop where
  clock : m.shared.tm.utf8ByteSize < 30
  main : Brief m.main ∧ m.main.origin = .main
  handlers : ∀ f ∈ m.handlers, Brief f ∧ f.origin = .handler .hup
  notices : (linesOf (.handler .hup) m.shared).length +
    (m.handlers.map fun f => f.items.length).sum = hups

/-- The events that leave the daemon running: signals other than those that end it, and
statements whose writes succeed. -/
def Event.Harmless : Event → Prop
  | .statement a => a.Works
  | .signal sig _ => sig = .alrm ∨ sig = .hup

def Event.isHup : Event → Bool
  | .statement _ => false
  | .signal sig _ => sig = .hup

section Calm
variable {host : LogHost} (hpid : (toString host.pid).utf8ByteSize < 10) {answers : List Answer}
  {items : List Item}
include hpid

theorem advance_of_brief {a : Answer} (ha : a.Works) {f : Frame} {s : Shared}
    (hready : Ready host answers s f) (hf : Brief f) (hclock : s.tm.utf8ByteSize < 30)
    (hitems : f.items ≠ []) :
    ∃ f' s', advance host a f s = .running (f', s') ∧ Brief f' ∧ f'.origin = f.origin ∧
      s'.tm.utf8ByteSize < 30 ∧ f'.remaining + 1 = f.remaining ∧
      ∀ o, owed o f' s' = owed o f s := by
  obtain ⟨origin, items, phase, timestr, entry, exit⟩ := f
  obtain ⟨time, write⟩ := a
  obtain ⟨hexit, htime, hsizes⟩ := hf
  cases items with
  | nil => exact absurd rfl hitems
  | cons i rest =>
    have hsize : i.text.utf8ByteSize ≤ 900 := hsizes i List.mem_cons_self
    cases phase with
    | compose =>
      by_cases hformatted : i.formatted = true
      · have hfits : ¬i.text.utf8ByteSize ≥ 1000 := by omega
        have hadvance : advance host ⟨time, write⟩ ⟨origin, i :: rest, .compose, timestr, entry, exit⟩ s =
            .running (⟨origin, i :: rest, .readClock, timestr, entry, exit⟩,
              { s with logmessage := i.text }) := by
          simp only [advance, hformatted, hfits, if_true, if_false]
        exact ⟨_, _, hadvance, ⟨hexit, htime, hsizes⟩, rfl, hclock,
          Frame.remaining_of_rank hitems rfl rfl, fun o => rfl⟩
      · have hadvance : advance host ⟨time, write⟩ ⟨origin, i :: rest, .compose, timestr, entry, exit⟩ s =
            .running (⟨origin, i :: rest, .readClock, timestr, entry, exit⟩, s) := by
          simp only [advance, hformatted, Bool.false_eq_true, if_false]
        exact ⟨_, _, hadvance, ⟨hexit, htime, hsizes⟩, rfl, hclock,
          Frame.remaining_of_rank hitems rfl rfl, fun o => rfl⟩
    | readClock =>
      exact ⟨_, _, rfl, ⟨hexit, htime, hsizes⟩, rfl, ha.time,
        Frame.remaining_of_rank hitems rfl rfl, fun o => rfl⟩
    | printTime =>
      exact ⟨_, _, rfl, ⟨hexit, hclock, hsizes⟩, rfl, hclock,
        Frame.remaining_of_rank hitems rfl rfl, fun o => rfl⟩
    | fillEntry =>
      have hread : i.read s = i.text := i.read_eq hready.1
      have hfits : ¬(entryText host timestr (i.read s)).utf8ByteSize ≥ 1024 := by
        dsimp only at htime
        rw [utf8ByteSize_entryText, hread]
        omega
      exact ⟨_, _, if_neg hfits, ⟨hexit, htime, hsizes⟩, rfl, hclock,
        Frame.remaining_of_rank hitems rfl rfl, fun o => rfl⟩
    | writeEntry =>
      obtain rfl : write = .ok 0 := ha.write
      refine ⟨_, _, rfl, ⟨hexit, htime, fun j hj => hsizes j (List.mem_cons_of_mem i hj)⟩, rfl, hclock,
        ?_, fun o => ?_⟩
      · simp only [Frame.remaining, Phase.rank, List.length_cons]
        omega
      · rw [owed, owed, linesOf_append]
        by_cases ho : origin = o
        · simp [ho]
          omega
        · simp [ho]

theorem Calm.step {a : Answer} (ha : a.Works) {hups : ℕ} {m : Machine}
    (hk : Keeps host answers items m) (h : Calm hups m) :
    ∃ m', step host a m = .running m' ∧ Calm hups m' ∧ m'.remaining = m.remaining - 1 := by
  obtain ⟨s, main, handlers⟩ := m
  obtain ⟨hclock, ⟨hmain, horigin⟩, hhandlers, hnotices⟩ := h
  dsimp only at hclock hmain horigin hhandlers hnotices
  cases handlers with
  | nil =>
    by_cases hitems : main.items = []
    · have hidle : advance host a main s = .running (main, s) := by
        simp only [advance, hitems, hmain.exit]
      refine ⟨⟨s, main, []⟩, by rw [step_main, hidle]; rfl, ⟨hclock, ⟨hmain, horigin⟩, hhandlers,
        hnotices⟩, ?_⟩
      simp [Machine.remaining, Frame.remaining, hitems]
    · obtain ⟨f', s', hadvance, hbrief, hsame, hclock', hremaining, howed⟩ :=
        advance_of_brief (f := main) hpid ha hk.intact hmain hclock hitems
      refine ⟨⟨s', f', []⟩, by rw [step_main, hadvance]; rfl,
        ⟨hclock', ⟨hbrief, hsame.trans horigin⟩, by simp, ?_⟩, ?_⟩
      · have hlines := howed (.handler .hup)
        simp only [owed, hsame, horigin, reduceCtorEq, if_false] at hlines
        rw [← hnotices]
        simpa using hlines
      · simp only [Machine.remaining, List.map_nil, List.sum_nil]
        omega
  | cons f below =>
    obtain ⟨⟨hbrief, hhup⟩, hbelow⟩ := List.forall_mem_cons.mp hhandlers
    by_cases hitems : f.items = []
    · refine ⟨⟨s, main, below⟩, step_return host a s main below ⟨hitems, hbrief.exit⟩,
        ⟨hclock, ⟨hmain, horigin⟩, hbelow, ?_⟩, ?_⟩
      · rw [← hnotices]
        simp [hitems]
      · simp only [Machine.remaining, Frame.remaining, List.map_cons, List.sum_cons, hitems,
          List.length_nil]
        omega
    · obtain ⟨f', s', hadvance, hbrief', hsame, hclock', hremaining, howed⟩ :=
        advance_of_brief hpid ha hk.intact.1 hbrief hclock hitems
      refine ⟨⟨s', main, f' :: below⟩, ?_, ⟨hclock', ⟨hmain, horigin⟩,
        List.forall_mem_cons.mpr ⟨⟨hbrief', hsame.trans hhup⟩, hbelow⟩, ?_⟩, ?_⟩
      · rw [step_handler host a s main below fun hdone => hitems hdone.1, hadvance]
        rfl
      · have hlines := howed (.handler .hup)
        simp only [owed, hsame, hhup, if_true] at hlines
        rw [← hnotices]
        simp only [List.map_cons, List.sum_cons]
        omega
      · simp only [Machine.remaining, List.map_cons, List.sum_cons]
        omega

theorem Calm.event {e : Event} (he : e.Harmless) (ha : ∀ a ∈ answersOf [e], a ∈ answers)
    {hups : ℕ} {m : Machine} (hk : Keeps host answers items m) (h : Calm hups m) :
    ∃ m', happen host e m = .running m' ∧ Keeps host answers items m' ∧
      Calm (hups + [e].countP Event.isHup) m' ∧
      m'.remaining ≤ m.remaining + 6 * [e].countP Event.isHup := by
  have hkeeps := hk.event ha
  cases e with
  | statement a =>
    obtain ⟨m', hstep, hcalm, hremaining⟩ := h.step hpid he hk
    rw [happen, hstep] at hkeeps
    cases hkeeps with
    | running hkeeps => exact ⟨m', hstep, hkeeps, hcalm, by omega⟩
  | signal sig installed =>
    refine ⟨handle sig m, rfl, hk.handle installed, ?_⟩
    rcases he with rfl | rfl
    · exact ⟨⟨h.clock, h.main, h.handlers, h.notices⟩, Nat.le_refl _⟩
    · have hnotice : Brief (.start (.handler .hup) (notice .hup).toList none) :=
        ⟨rfl, by decide, by simp [Frame.start, notice]; decide⟩
      refine ⟨⟨h.clock, h.main, List.forall_mem_cons.mpr ⟨⟨hnotice, rfl⟩, h.handlers⟩, ?_⟩, ?_⟩
      · have hold := h.notices
        simp only [handle, Machine.push, Frame.start, notice, Option.toList_some, List.map_cons,
          List.sum_cons, List.length_singleton, Event.isHup, List.countP_singleton, decide_true,
          if_true]
        omega
      · simp only [handle, Machine.push, Machine.remaining, Frame.start, Frame.remaining, Phase.rank,
          notice, Option.toList_some, List.map_cons, List.sum_cons, List.length_singleton,
          Event.isHup, List.countP_singleton, decide_true, if_true]
        omega

theorem Calm.fold {events : List Event} (hevents : ∀ e ∈ events, e.Harmless)
    (ha : ∀ a ∈ answersOf events, a ∈ answers) {hups : ℕ} {m : Machine}
    (hk : Keeps host answers items m) (h : Calm hups m) :
    ∃ m', Outcome.fold (happen host) events m = .running m' ∧ Keeps host answers items m' ∧
      Calm (hups + events.countP Event.isHup) m' ∧
      m'.remaining ≤ m.remaining + 6 * events.countP Event.isHup := by
  induction events generalizing hups m with
  | nil => exact ⟨m, rfl, hk, h, Nat.le_refl _⟩
  | cons e events ih =>
    obtain ⟨he, hrest⟩ := List.forall_mem_cons.mp hevents
    have happend : answersOf (e :: events) = answersOf [e] ++ answersOf events := by
      rw [answersOf, ← List.singleton_append, List.filterMap_append]
      rfl
    rw [happend] at ha
    obtain ⟨hfirst, hlater⟩ := List.forall_mem_append.mp ha
    obtain ⟨m₁, hstep, hk₁, h₁, hle₁⟩ := h.event hpid he hfirst hk
    obtain ⟨m', hfold, hk', h', hle'⟩ := ih hrest hlater hk₁ h₁
    have hcount : (e :: events).countP Event.isHup =
        [e].countP Event.isHup + events.countP Event.isHup := by
      rw [← List.countP_append, List.singleton_append]
    rw [Nat.add_assoc, ← hcount] at h'
    refine ⟨m', ?_, hk', h', by omega⟩
    rw [Outcome.fold_cons, hstep, Outcome.andThen_running, hfold]

/-- Enough statements bring everything to its end. -/
theorem Calm.finish {more : List Answer} (hmore : ∀ a ∈ more, a.Works ∧ a ∈ answers) {hups : ℕ}
    {m : Machine} (hk : Keeps host answers items m) (h : Calm hups m)
    (henough : m.remaining ≤ more.length) :
    ∃ m', Outcome.fold (happen host) (more.map .statement) m = .running m' ∧
      Keeps host answers items m' ∧ Calm hups m' ∧ m'.remaining = 0 := by
  induction more generalizing m with
  | nil => exact ⟨m, rfl, hk, h, Nat.le_zero.mp henough⟩
  | cons a more ih =>
    obtain ⟨ha, hrest⟩ := List.forall_mem_cons.mp hmore
    obtain ⟨m₁, hstep, h₁, hremaining⟩ := h.step hpid ha.1 hk
    have hk₁ := hk.step ha.2
    rw [hstep] at hk₁
    cases hk₁ with
    | running hk₁ =>
      rw [List.length_cons] at henough
      obtain ⟨m', hfold, hm'⟩ := ih hrest hk₁ h₁ (by omega)
      refine ⟨m', ?_, hm'⟩
      rw [List.map_cons, Outcome.fold_cons, SignalLogging.happen, hstep, Outcome.andThen_running, hfold]

end Calm

theorem Machine.done_of_remaining {m : Machine} (h : m.remaining = 0) :
    m.main.items = [] ∧ m.handlers = [] := by
  obtain ⟨s, main, handlers⟩ := m
  simp only [Machine.remaining, Nat.add_eq_zero_iff] at h
  refine ⟨Frame.items_of_remaining h.1, ?_⟩
  cases handlers with
  | nil => rfl
  | cons f below =>
    have hsum := h.2
    simp only [List.map_cons, List.sum_cons] at hsum
    omega

private theorem calm_init {items : List Item} (hitems : ∀ i ∈ items, i.text.utf8ByteSize ≤ 900) :
    Calm 0 (Machine.init items) where
  clock := (by decide : "".utf8ByteSize < 30)
  main := ⟨⟨rfl, (by decide : "".utf8ByteSize < 30), hitems⟩, rfl⟩
  handlers := by simp [Machine.init]
  notices := rfl

/-- The line is the whole entry of the message, with a time that the clock has shown. -/
def IsWholeLine (host : LogHost) (answers : List Answer) (i : Item) (line : List Byte) : Prop :=
  ∃ a ∈ answers, line = bytesOf (entryText host a.time i.text)

theorem IsLine.whole {host : LogHost} {answers : List Answer} (hworks : ∀ a ∈ answers, a.Works)
    {i : Item} {line : List Byte} (h : IsLine host answers i line) :
    IsWholeLine host answers i line := by
  obtain ⟨_, ⟨a, ha, rfl⟩, b, hb, missing, hwrite, rfl⟩ := h
  rw [(hworks b hb).write] at hwrite
  cases hwrite
  exact ⟨a, ha, cut_zero _⟩

private theorem forall₂_replicate {α β : Type} {R : α → β → Prop} {a : α} {l : List β}
    (h : ∀ b ∈ l, R a b) : List.Forall₂ R (List.replicate l.length a) l := by
  induction l with
  | nil => exact .nil
  | cons b l ih => exact .cons (h b List.mem_cons_self) (ih fun c hc => h c (List.mem_cons_of_mem b hc))

def announcement : Item := ⟨"<INFO> Next estimation of entropy in 60 seconds.", true⟩

def noon : Answer := ⟨"2015-01-01 12:00:00", .ok 0⟩

/-- `main` is interrupted when it has composed its message and not yet logged it. -/
def hangup : List Event := [.statement noon, .signal .hup (by decide)]

theorem works_noon : noon.Works := ⟨rfl, by decide⟩

end K7nvhRng.SignalLogging
