import K7nvhRng.DecimalText
import K7nvhRng.StartupDescriptors
import Mathlib.Tactic.IntervalCases

/-!
# Several daemons on one machine

Any number of daemons is started, and their statements are interleaved in any order; each of
them can be killed at any moment. They meet in the PID file and in its lock. As `lockf` has it,
the lock belongs to a process and is gone as soon as that process ends or closes a descriptor
of the file. The daemon closes the standard descriptors while it holds the lock.
-/

namespace K7nvhRng.SingleInstance
open StoppableRuns DecimalText DaemonLoop DescriptorTable DaemonStartup StartupDescriptors

/-- Where a process is: in front of the statement with the given number, or gone. Behind its last
statement it is in the main loop. -/
inductive Stage where
  | running (pc : ℕ) (p : Process)
  | ended

/-- The daemons that are started, with the descriptors that each of them inherits and what the
system answers to it. -/
structure System (ι : Type) where
  hosts : ι → StartHost
  tables : ι → Table File
  answers : ι → Statement → Answer
  /-- how many characters the write to the PID file writes, at most -/
  written : ι → ℕ

structure Machine (ι : Type) where
  stage : ι → Stage
  lock : Option ι
  pidFile : List Char

inductive Event (ι : Type) where
  /-- the process performs its next statement -/
  | statement (i : ι)
  /-- the process is killed, or leaves the main loop -/
  | dies (i : ι)
  deriving DecidableEq

section Model
variable {ι : Type} [DecidableEq ι]

def Machine.init (sys : System ι) (pidFile : List Char) : Machine ι where
  stage := fun i => .running 0 (Process.init (sys.tables i))
  lock := none
  pidFile := pidFile

def tryAgain : SysError := ⟨11, "Resource temporarily unavailable"⟩

/-- The answer to a process. The lock is refused as long as another process holds it. -/
def answerTo (sys : System ι) (m : Machine ι) (i : ι) (st : Statement) : Answer :=
  let a := sys.answers i st
  if st = .lockPidFile ∧ m.lock ≠ none ∧ m.lock ≠ some i then
    ⟨some (a.error.getD tryAgain), a.inParent, a.attributes⟩
  else a

def Machine.unlock (m : Machine ι) (i : ι) : Option ι := if m.lock = some i then none else m.lock

def Machine.leave (m : Machine ι) (i : ι) : Machine ι where
  stage := Function.update m.stage i .ended
  lock := m.unlock i
  pidFile := m.pidFile

/-- Between the two states a descriptor of the PID file has been closed. -/
def closesPid (p q : Process) : Bool :=
  (List.range p.table.length).any fun n =>
    p.table.file n = some .pid && q.table.file n ≠ some .pid

def Machine.lockAfter (m : Machine ι) (i : ι) (st : Statement) (p q : Process) : Option ι :=
  if st = .lockPidFile then some i
  else if closesPid p q then m.unlock i
  else m.lock

/-- What the process has to write to the PID file, as far as it gets. -/
def System.text (sys : System ι) (i : ι) : List Char :=
  (pidText (sys.hosts i).pid).toList.take (sys.written i)

/-- The file is not truncated when it is opened: what is written replaces its beginning. -/
def Machine.pidFileAfter (sys : System ι) (m : Machine ι) (i : ι) (st : Statement) : List Char :=
  if st = .writePidFile then sys.text i ++ m.pidFile.drop (sys.text i).length else m.pidFile

def Machine.advance (sys : System ι) (m : Machine ι) (i : ι) (pc : ℕ) (st : Statement)
    (p q : Process) : Machine ι where
  stage := Function.update m.stage i (.running (pc + 1) q)
  lock := m.lockAfter i st p q
  pidFile := m.pidFileAfter sys i st

def statement (sys : System ι) (m : Machine ι) (i : ι) (pc : ℕ) (p : Process) : Machine ι :=
  match (program (sys.hosts i))[pc]? with
  | none => m
  | some st =>
    match perform (sys.hosts i) (answerTo sys m i st) st p with
    | .running q => m.advance sys i pc st p q
    | .stopped _ _ => m.leave i

def step (sys : System ι) (m : Machine ι) : Event ι → Machine ι
  | .statement i =>
    match m.stage i with
    | .running pc p => statement sys m i pc p
    | .ended => m
  | .dies i => m.leave i

def Event.process : Event ι → ι
  | .statement i => i
  | .dies i => i

def run (sys : System ι) (m : Machine ι) (events : List (Event ι)) : Machine ι :=
  events.foldl (step sys) m

def Machine.InLoop (sys : System ι) (m : Machine ι) (i : ι) : Prop :=
  ∃ p, m.stage i = .running (program (sys.hosts i)).length p

end Model

/-! ### What an event can do -/

section Steps
variable {ι : Type} [DecidableEq ι] {sys : System ι} {m : Machine ι}

theorem stage_leave_self (m : Machine ι) (i : ι) : (m.leave i).stage i = .ended :=
  Function.update_self _ _ _

theorem stage_leave_of_ne {i j : ι} (hne : j ≠ i) : (m.leave i).stage j = m.stage j :=
  Function.update_of_ne hne _ _

theorem stage_advance_self (i : ι) (pc : ℕ) (st : Statement) (p q : Process) :
    (m.advance sys i pc st p q).stage i = .running (pc + 1) q :=
  Function.update_self _ _ _

theorem stage_advance_of_ne {i j : ι} (hne : j ≠ i) (pc : ℕ) (st : Statement) (p q : Process) :
    (m.advance sys i pc st p q).stage j = m.stage j :=
  Function.update_of_ne hne _ _

/-- Everything that an event can do. A process that goes on has been answered as the system
answers it when no other process is there. -/
inductive Steps (sys : System ι) (m : Machine ι) : Machine ι → Prop where
  | idle : Steps sys m m
  | leaves (i : ι) : Steps sys m (m.leave i)
  | advances {i : ι} {pc : ℕ} {st : Statement} {p q : Process} (hstage : m.stage i = .running pc p)
      (hst : (program (sys.hosts i))[pc]? = some st)
      (hperform : perform (sys.hosts i) (sys.answers i st) st p = .running q)
      (hfree : st = .lockPidFile → m.lock = none ∨ m.lock = some i) :
      Steps sys m (m.advance sys i pc st p q)

private theorem answerTo_running {i : ι} {st : Statement} {p q : Process}
    (h : perform (sys.hosts i) (answerTo sys m i st) st p = .running q) :
    answerTo sys m i st = sys.answers i st ∧
      (st = .lockPidFile → m.lock = none ∨ m.lock = some i) := by
  by_cases hrefused : st = .lockPidFile ∧ m.lock ≠ none ∧ m.lock ≠ some i
  · have hsucceeds := succeeds_of_running h
    rw [answerTo, if_pos hrefused, hrefused.1] at hsucceeds
    cases hsucceeds
  · refine ⟨if_neg hrefused, fun hst => ?_⟩
    by_contra hheld
    rw [not_or] at hheld
    exact hrefused ⟨hst, hheld⟩

private theorem steps (sys : System ι) (m : Machine ι) (e : Event ι) :
    Steps sys m (step sys m e) := by
  cases e with
  | dies i => exact .leaves i
  | statement i =>
    rw [step]
    cases hstage : m.stage i with
    | ended => exact .idle
    | running pc p =>
      dsimp only
      rw [statement]
      cases hst : (program (sys.hosts i))[pc]? with
      | none => exact .idle
      | some st =>
        dsimp only
        cases hperform : perform (sys.hosts i) (answerTo sys m i st) st p with
        | stopped why q => exact .leaves i
        | running q =>
          obtain ⟨hanswer, hfree⟩ := answerTo_running hperform
          rw [hanswer] at hperform
          exact .advances hstage hst hperform hfree

theorem unlock_of_ne {i j : ι} (hne : m.lock = some j) (hij : j ≠ i) : m.unlock i = some j := by
  rw [Machine.unlock, hne, if_neg (by simpa using hij)]

theorem lock_of_unlock {i j : ι} (h : m.unlock i = some j) : m.lock = some j ∧ j ≠ i := by
  rw [Machine.unlock] at h
  split at h
  · cases h
  · rename_i hlock
    refine ⟨h, ?_⟩
    rintro rfl
    exact hlock h

theorem lock_of_lockAfter {i j : ι} {st : Statement} {p q : Process} (hst : st ≠ .lockPidFile)
    (h : m.lockAfter i st p q = some j) : m.lock = some j := by
  rw [Machine.lockAfter, if_neg hst] at h
  split at h
  · exact (lock_of_unlock h).1
  · exact h

private theorem lockAfter_of_ne {i j : ι} {st : Statement} {p q : Process} (hj : m.lock = some j)
    (hij : j ≠ i) (hfree : st = .lockPidFile → m.lock = none ∨ m.lock = some i) :
    m.lockAfter i st p q = some j := by
  have hst : st ≠ .lockPidFile := by
    intro hst
    rcases hfree hst with hnone | hown
    · rw [hj] at hnone
      cases hnone
    · rw [hj] at hown
      exact hij (Option.some.inj hown)
  rw [Machine.lockAfter, if_neg hst]
  split
  · exact unlock_of_ne hj hij
  · exact hj

end Steps

/-! ### The statements around the lock -/

private theorem mem_devices {host : StartHost} {st : Statement}
    (h : st ∈ host.indices.flatMap deviceStatements ++ finish) :
    st ≠ .lockPidFile ∧ st ≠ .writePidFile ∧ st ≠ .closeStandard := by
  rcases List.mem_append.mp h with hdevice | hfinish
  · obtain ⟨i, -, hi⟩ := List.mem_flatMap.mp hdevice
    simp only [deviceStatements, List.mem_cons, List.not_mem_nil, or_false] at hi
    rcases hi with rfl | rfl | rfl | rfl | rfl <;> simp
  · simp only [finish, List.mem_cons, List.not_mem_nil, or_false] at hfinish
    rcases hfinish with rfl | rfl | rfl | rfl <;> simp

/-- The lock is taken by the statement number 7, the file is written by the next one, and then
the standard descriptors are closed. -/
theorem position {host : StartHost} {pc : ℕ} {st : Statement}
    (h : (program host)[pc]? = some st) :
    (st = .lockPidFile ↔ pc = 7) ∧ (st = .writePidFile ↔ pc = 8) ∧
      (st = .closeStandard ↔ pc = 9) := by
  rw [program, List.append_assoc] at h
  by_cases hpc : pc < 10
  · rw [List.getElem?_append_left hpc] at h
    interval_cases pc <;> cases h <;> simp
  · rw [List.getElem?_append_right (Nat.le_of_not_lt hpc)] at h
    obtain ⟨hlock, hwrite, hclose⟩ := mem_devices (List.mem_of_getElem? h)
    exact ⟨iff_of_false hlock (by omega), iff_of_false hwrite (by omega),
      iff_of_false hclose (by omega)⟩

theorem closesPid_eq_false {p q : Process}
    (h : ∀ n, p.table.file n = some .pid → q.table.file n = some .pid) : closesPid p q = false := by
  rw [closesPid, List.any_eq_false]
  intro n _
  simpa using h n

private theorem file_effect {host : StartHost} {a : Answer} {st : Statement} {p : Process} {n : ℕ}
    (hst : st ≠ .closeStandard) (h : p.table.file n = some .pid) :
    (effect host a st p).table.file n = some .pid := by
  cases st with
  | closeStandard => exact absurd rfl hst
  | openLog | openPidFile | openDevice i | openSink => exact Table.file_opened_of_some h
  | _ => exact h

private theorem closesPid_perform {host : StartHost} {a : Answer} {st : Statement} {p q : Process}
    (hst : st ≠ .closeStandard) (h : perform host a st p = .running q) :
    closesPid p q = false := by
  obtain ⟨l, rfl⟩ := perform_running h
  exact closesPid_eq_false fun n hn => file_effect hst hn

/-- If the standard descriptors were in use at the start, the PID file is not among those that
are closed. -/
theorem closesPid_closeStandard {host : StartHost} {answers : Statement → Answer} {t : Table File}
    {p q : Process} (ht : Inherited t) (hstd : StandardInUse t)
    (hp : Outcome.fold (fun st => perform host (answers st) st) ((program host).take 9)
      (Process.init t) = .running p)
    (h : perform host (answers .closeStandard) .closeStandard p = .running q) :
    closesPid p q = false := by
  obtain ⟨l, rfl⟩ := fold_running host answers hp
  obtain ⟨l', rfl⟩ := perform_running h
  apply closesPid_eq_false
  intro n hn
  have howns := (orderly_withPidFile ht hstd).pid n
  have hhandle : (withPidFile (withLogFile (Process.init t))).pidFileHandle =
      (t.opened .log).lowest := rfl
  have hlow := lowest_withLogFile hstd
  have hfile : (withPidFile (withLogFile (Process.init t))).table.file n = some .pid := hn
  have hge : 3 ≤ n := by
    obtain ⟨-, heq⟩ := howns.mp hfile
    omega
  have hclosed : (((((withPidFile (withLogFile (Process.init t))).table.closed 0).closed 1).closed
      2).file n) = some .pid := by
    rw [Table.file_closed, if_neg (by omega), Table.file_closed, if_neg (by omega),
      Table.file_closed, if_neg (by omega)]
    exact hfile
  exact hclosed

/-! ### The invariant -/

structure Consistent {ι : Type} (sys : System ι) (m : Machine ι) : Prop where
  /-- Every process has done what it does when it is alone. -/
  follows : ∀ i pc p, m.stage i = .running pc p →
    Outcome.fold (fun st => perform (sys.hosts i) (sys.answers i st) st)
      ((program (sys.hosts i)).take pc) (Process.init (sys.tables i)) = .running p
  /-- The lock outlives the closing of the standard descriptors if these were in use and none of
  them is the PID file. -/
  locked : ∀ i pc p, m.stage i = .running pc p → 8 ≤ pc →
    pc < 10 ∨ Inherited (sys.tables i) ∧ StandardInUse (sys.tables i) → m.lock = some i
  alive : ∀ i, m.lock = some i → ∃ pc p, m.stage i = .running pc p ∧ 8 ≤ pc
  named : ∀ i pc p, m.stage i = .running pc p → 9 ≤ pc → m.lock = some i →
    sys.text i <+: m.pidFile

section Invariant
variable {ι : Type} {sys : System ι} {m : Machine ι}

theorem consistent_init (sys : System ι) (pidFile : List Char) :
    Consistent sys (Machine.init sys pidFile) := by
  constructor
  case follows =>
    intro i pc p h
    cases h
    rfl
  case locked | named =>
    intro i pc p h hpc
    cases h
    omega
  case alive =>
    intro i h
    cases h

section Leave
variable [DecidableEq ι]

theorem stage_leave {i j : ι} {pc : ℕ} {p : Process}
    (h : (m.leave i).stage j = .running pc p) : j ≠ i ∧ m.stage j = .running pc p := by
  by_cases hj : j = i
  · subst hj
    rw [stage_leave_self] at h
    cases h
  · rw [stage_leave_of_ne hj] at h
    exact ⟨hj, h⟩

theorem Consistent.leave (h : Consistent sys m) (i : ι) : Consistent sys (m.leave i) := by
  constructor
  case follows =>
    intro j pc p hj
    exact h.follows j pc p (stage_leave hj).2
  case locked =>
    intro j pc p hj hpc hstd
    obtain ⟨hne, hstage⟩ := stage_leave hj
    exact unlock_of_ne (h.locked j pc p hstage hpc hstd) hne
  case alive =>
    intro j hj
    obtain ⟨hlock, hne⟩ := lock_of_unlock hj
    obtain ⟨pc, p, hstage, hpc⟩ := h.alive j hlock
    exact ⟨pc, p, (stage_leave_of_ne hne).trans hstage, hpc⟩
  case named =>
    intro j pc p hj hpc hlock
    exact h.named j pc p (stage_leave hj).2 hpc (lock_of_unlock hlock).1

end Leave

section Advance
variable {i : ι} {pc : ℕ} {st : Statement} {p q : Process} (hstage : m.stage i = .running pc p)
  (hst : (program (sys.hosts i))[pc]? = some st)
  (hperform : perform (sys.hosts i) (sys.answers i st) st p = .running q)
  (hfree : st = .lockPidFile → m.lock = none ∨ m.lock = some i)
include hstage hst hperform

theorem Consistent.follows_advance (h : Consistent sys m) :
    Outcome.fold (fun st => perform (sys.hosts i) (sys.answers i st) st)
      ((program (sys.hosts i)).take (pc + 1)) (Process.init (sys.tables i)) = .running q := by
  rw [List.take_add_one, hst, Option.toList_some, Outcome.fold_append, h.follows i pc p hstage,
    Outcome.andThen_running, Outcome.fold_cons, hperform]
  rfl

variable [DecidableEq ι]

theorem Consistent.locked_advance (h : Consistent sys m) (hpc : 8 ≤ pc + 1)
    (hstd : pc + 1 < 10 ∨ Inherited (sys.tables i) ∧ StandardInUse (sys.tables i)) :
    m.lockAfter i st p q = some i := by
  obtain ⟨hlock, -, hclose⟩ := position hst
  rw [Machine.lockAfter]
  split
  · rfl
  · rename_i hne
    have hpc' : pc ≠ 7 := fun h7 => hne (hlock.mpr h7)
    have hheld : m.lock = some i :=
      h.locked i pc p hstage (by omega) (hstd.imp (fun hlt => by omega) id)
    have hkeeps : closesPid p q = false := by
      by_cases hcloses : st = .closeStandard
      · obtain rfl : pc = 9 := hclose.mp hcloses
        subst hcloses
        obtain ⟨hinherited, hinUse⟩ := hstd.resolve_left (by omega)
        exact closesPid_closeStandard hinherited hinUse (h.follows i 9 p hstage) hperform
      · exact closesPid_perform hcloses hperform
    rw [hkeeps]
    exact hheld

include hfree in
theorem Consistent.advance (h : Consistent sys m) :
    Consistent sys (m.advance sys i pc st p q) := by
  obtain ⟨hlock, hwrite, -⟩ := position hst
  constructor
  case follows =>
    intro j pc' p' hj
    by_cases hji : j = i
    · subst hji
      rw [stage_advance_self] at hj
      cases hj
      exact h.follows_advance hstage hst hperform
    · rw [stage_advance_of_ne hji] at hj
      exact h.follows j pc' p' hj
  case locked =>
    intro j pc' p' hj hpc hstd
    by_cases hji : j = i
    · subst hji
      rw [stage_advance_self] at hj
      cases hj
      exact h.locked_advance hstage hst hperform hpc hstd
    · rw [stage_advance_of_ne hji] at hj
      exact lockAfter_of_ne (h.locked j pc' p' hj hpc hstd) hji hfree
  case alive =>
    intro j hj
    by_cases hji : j = i
    · subst hji
      refine ⟨pc + 1, q, stage_advance_self _ _ _ _ _, ?_⟩
      by_cases hlocks : st = .lockPidFile
      · have hseven := hlock.mp hlocks
        omega
      · obtain ⟨pc', p', hstage', hpc'⟩ := h.alive j (lock_of_lockAfter hlocks hj)
        rw [hstage] at hstage'
        cases hstage'
        omega
    · have hlocks : st ≠ .lockPidFile := by
        intro hlocks
        have hown : m.lockAfter i st p q = some i := if_pos hlocks
        exact hji (Option.some.inj (hj.symm.trans hown))
      obtain ⟨pc', p', hstage', hpc'⟩ := h.alive j (lock_of_lockAfter hlocks hj)
      exact ⟨pc', p', (stage_advance_of_ne hji _ _ _ _).trans hstage', hpc'⟩
  case named =>
    intro j pc' p' hj hpc hheld
    have hfile : (m.advance sys i pc st p q).pidFile = m.pidFileAfter sys i st := rfl
    rw [hfile, Machine.pidFileAfter]
    by_cases hji : j = i
    · subst hji
      rw [stage_advance_self] at hj
      cases hj
      split
      · exact List.prefix_append _ _
      · rename_i hne
        have hpc' : pc ≠ 8 := fun h8 => hne (hwrite.mpr h8)
        have hlocks : st ≠ .lockPidFile := fun hlocks => by
          have hseven := hlock.mp hlocks
          omega
        exact h.named j pc p hstage (by omega) (lock_of_lockAfter hlocks hheld)
    · have hlocks : st ≠ .lockPidFile := by
        intro hlocks
        have hown : m.lockAfter i st p q = some i := if_pos hlocks
        exact hji (Option.some.inj (hheld.symm.trans hown))
      have hlock' := lock_of_lockAfter hlocks hheld
      rw [stage_advance_of_ne hji] at hj
      rw [if_neg]
      · exact h.named j pc' p' hj hpc hlock'
      · -- a process that writes holds the lock itself
        intro hwrites
        have height := hwrite.mp hwrites
        have hown := h.locked i pc p hstage (by omega) (.inl (by omega))
        rw [hlock'] at hown
        exact hji (Option.some.inj hown)

end Advance

variable [DecidableEq ι]

theorem Consistent.step (h : Consistent sys m) (e : Event ι) : Consistent sys (step sys m e) := by
  have hsteps := steps sys m e
  generalize SingleInstance.step sys m e = m' at hsteps
  cases hsteps with
  | idle => exact h
  | leaves i => exact h.leave i
  | advances hstage hst hperform hfree => exact h.advance hstage hst hperform hfree

theorem Consistent.run (h : Consistent sys m) (events : List (Event ι)) :
    Consistent sys (run sys m events) := by
  induction events generalizing m with
  | nil => exact h
  | cons e events ih => exact ih (h.step e)

omit [DecidableEq ι] in
/-- A process in the main loop has the lock, if it has not inherited the PID file. -/
theorem Consistent.lock_of_inLoop (h : Consistent sys m) {i : ι}
    (hinherited : Inherited (sys.tables i)) (hi : m.InLoop sys i) : m.lock = some i := by
  obtain ⟨p, hstage⟩ := hi
  have hfollows := h.follows i _ p hstage
  rw [List.take_length] at hfollows
  have hlen : 8 ≤ (program (sys.hosts i)).length := by
    simp [program, daemonize]
  exact h.locked i _ p hstage hlen (.inr ⟨hinherited, standardInUse_of_running hfollows⟩)

end Invariant

/-! ### A daemon whose lock is free -/

section Undisturbed
variable {ι : Type} [DecidableEq ι] {sys : System ι} {m : Machine ι}

/-- While these events happen, no other process gets behind its lock, and the process is not
killed. -/
def Undisturbed (sys : System ι) (i : ι) : Machine ι → List (Event ι) → Prop
  | _, [] => True
  | m, e :: events => (∀ j ≠ i, ∀ pc p, m.stage j = .running pc p → pc < 8) ∧ e ≠ .dies i ∧
      Undisturbed sys i (step sys m e) events

theorem run_append (sys : System ι) (m : Machine ι) (events events' : List (Event ι)) :
    run sys m (events ++ events') = run sys (run sys m events) events' :=
  List.foldl_append

theorem step_of_free {i : ι} {pc : ℕ} {st : Statement} {p q : Process}
    (hfree : m.lock = none ∨ m.lock = some i) (hstage : m.stage i = .running pc p)
    (hst : (program (sys.hosts i))[pc]? = some st)
    (hperform : perform (sys.hosts i) (sys.answers i st) st p = .running q) :
    step sys m (.statement i) = m.advance sys i pc st p q := by
  have hanswer : answerTo sys m i st = sys.answers i st := by
    apply if_neg
    rintro ⟨-, hsome, hother⟩
    exact hfree.elim hsome hother
  rw [step, hstage]
  dsimp only
  rw [statement, hst]
  dsimp only
  rw [hanswer, hperform]

theorem Consistent.free (h : Consistent sys m) {i : ι}
    (hothers : ∀ j ≠ i, ∀ pc p, m.stage j = .running pc p → pc < 8) :
    m.lock = none ∨ m.lock = some i := by
  cases hlock : m.lock with
  | none => exact .inl rfl
  | some j =>
    obtain ⟨pc, p, hj, hpc⟩ := h.alive j hlock
    by_cases hji : j = i
    · exact .inr (congrArg some hji)
    · have hlt := hothers j hji pc p hj
      omega

private theorem perform_of_startUp {host : StartHost} {answers : Statement → Answer}
    {p₀ p q : Process} {pc : ℕ} {st : Statement} (hstart : startUp host answers p₀ = .running q)
    (hp : Outcome.fold (fun st => perform host (answers st) st) ((program host).take pc) p₀ =
      .running p) (hst : (program host)[pc]? = some st) :
    ∃ r, perform host (answers st) st p = .running r := by
  obtain ⟨hlt, hget⟩ := List.getElem?_eq_some_iff.mp hst
  rw [startUp, ← List.take_append_drop pc (program host), Outcome.fold_append, hp,
    Outcome.andThen_running, List.drop_eq_getElem_cons hlt, hget, Outcome.fold_cons] at hstart
  cases hperform : perform host (answers st) st p with
  | running r => exact ⟨r, rfl⟩
  | stopped why r =>
    rw [hperform] at hstart
    cases hstart

theorem stage_step_of_ne {i : ι} {e : Event ι} (hne : e.process ≠ i) :
    (step sys m e).stage i = m.stage i := by
  cases e with
  | dies j => exact stage_leave_of_ne (Ne.symm hne)
  | statement j =>
    rw [step]
    split
    · rw [statement]
      split
      · rfl
      · split
        · exact stage_advance_of_ne (Ne.symm hne) _ _ _ _
        · exact stage_leave_of_ne (Ne.symm hne)
    · rfl

theorem stage_run_of_ne {i : ι} {events : List (Event ι)} (hne : ∀ e ∈ events, e.process ≠ i) :
    (run sys m events).stage i = m.stage i := by
  induction events generalizing m with
  | nil => rfl
  | cons e events ih =>
    obtain ⟨he, hevents⟩ := List.forall_mem_cons.mp hne
    exact (ih hevents).trans (stage_step_of_ne he)

/-- The process performs its statements one after the other, whatever the others do. -/
theorem stage_run_undisturbed {i : ι} {q : Process} {events : List (Event ι)}
    (hstart : startUp (sys.hosts i) (sys.answers i) (Process.init (sys.tables i)) = .running q)
    (h : Consistent sys m) (hquiet : Undisturbed sys i m events) {pc : ℕ} {p : Process}
    (hstage : m.stage i = .running pc p) (hpc : pc ≤ (program (sys.hosts i)).length) :
    ∃ p', (run sys m events).stage i =
      .running (min (pc + events.count (.statement i)) (program (sys.hosts i)).length) p' := by
  induction events generalizing m pc p with
  | nil => exact ⟨p, by rwa [List.count_nil, Nat.add_zero, Nat.min_eq_left hpc]⟩
  | cons e events ih =>
    obtain ⟨hothers, halive, hrest⟩ := hquiet
    by_cases he : e.process = i
    · obtain rfl : e = .statement i := by
        cases e with
        | statement j => exact congrArg Event.statement he
        | dies j => exact absurd (congrArg Event.dies he) halive
      cases hst : (program (sys.hosts i))[pc]? with
      | none =>
        -- it is in its loop already
        have hidle : step sys m (.statement i) = m := by
          rw [step, hstage]
          dsimp only
          rw [statement, hst]
        have hlen := List.getElem?_eq_none_iff.mp hst
        rw [hidle] at hrest
        obtain ⟨p', hp'⟩ := ih h hrest hstage hpc
        refine ⟨p', ?_⟩
        rw [show run sys m (.statement i :: events) = run sys m events from
          congrArg (fun m => run sys m events) hidle, hp', Nat.min_eq_right (by omega),
          Nat.min_eq_right (by omega)]
      | some st =>
        obtain ⟨r, hperform⟩ := perform_of_startUp hstart (h.follows i pc p hstage) hst
        have hstep := step_of_free (h.free hothers) hstage hst hperform
        have hlt := (List.getElem?_eq_some_iff.mp hst).1
        obtain ⟨p', hp'⟩ := ih (h.step _) hrest
          (by rw [hstep, stage_advance_self]) (Nat.succ_le_of_lt hlt)
        refine ⟨p', ?_⟩
        rw [List.count_cons_self, Nat.add_comm _ 1, ← Nat.add_assoc]
        exact hp'
    · obtain ⟨p', hp'⟩ := ih (h.step e) hrest ((stage_step_of_ne he).trans hstage) hpc
      refine ⟨p', ?_⟩
      rw [List.count_cons_of_ne]
      · exact hp'
      · rintro rfl
        exact he rfl

theorem inLoop_run_undisturbed {i : ι} {q : Process} {events : List (Event ι)}
    (hstart : startUp (sys.hosts i) (sys.answers i) (Process.init (sys.tables i)) = .running q)
    (h : Consistent sys m) (hquiet : Undisturbed sys i m events)
    (hstage : m.stage i = .running 0 (Process.init (sys.tables i)))
    (henough : (program (sys.hosts i)).length ≤ events.count (.statement i)) :
    (run sys m events).InLoop sys i := by
  obtain ⟨p, hp⟩ := stage_run_undisturbed hstart h hquiet hstage (Nat.zero_le _)
  rw [Nat.zero_add, Nat.min_eq_right henough] at hp
  exact ⟨p, hp⟩

theorem undisturbed_replicate {i : ι}
    (hothers : ∀ j ≠ i, ∀ pc p, m.stage j = .running pc p → pc < 8) (n : ℕ) :
    Undisturbed sys i m (List.replicate n (.statement i)) := by
  induction n generalizing m with
  | zero => trivial
  | succ n ih =>
    refine ⟨hothers, by simp, ih fun j hj pc p hstage => hothers j hj pc p ?_⟩
    rwa [stage_step_of_ne (Ne.symm hj)] at hstage

private theorem inLoop_run_of_ne {i : ι} {events : List (Event ι)}
    (hne : ∀ e ∈ events, e.process ≠ i) (h : m.InLoop sys i) : (run sys m events).InLoop sys i := by
  obtain ⟨p, hp⟩ := h
  exact ⟨p, (stage_run_of_ne hne).trans hp⟩

end Undisturbed

/-! ### Results -/

section Results
variable {ι : Type} [DecidableEq ι] {sys : System ι} {pidFile : List Char} {events : List (Event ι)}

theorem consistent_run (sys : System ι) (pidFile : List Char) (events : List (Event ι)) :
    Consistent sys (run sys (Machine.init sys pidFile) events) :=
  (consistent_init sys pidFile).run events

def twoDaemons : System Bool where
  hosts := fun i => if i then oneDevice else { oneDevice with pid := 200 }
  tables := fun _ => terminal
  answers := fun _ => allSucceed
  written := fun _ => 10

/-- The second daemon overtakes the first one in front of the lock. -/
def race : List (Event Bool) :=
  List.replicate 7 (.statement false) ++
    List.replicate (program (twoDaemons.hosts true)).length (.statement true) ++ [.statement false]

theorem startUp_twoDaemons : ∃ q, startUp (twoDaemons.hosts true) (twoDaemons.answers true)
    (Process.init (twoDaemons.tables true)) = .running q := startUp_oneDevice

theorem inLoop_race :
    (run twoDaemons (Machine.init twoDaemons "2000\n".toList) race).InLoop twoDaemons true := by
  obtain ⟨q, hq⟩ := startUp_twoDaemons
  have hothers : ∀ j ≠ true, ∀ pc p, (run twoDaemons (Machine.init twoDaemons "2000\n".toList)
      (List.replicate 7 (.statement false))).stage j = .running pc p → pc < 8 := by
    intro j hj pc p hstage
    obtain rfl : j = false := Bool.eq_false_iff.mpr hj
    cases hstage
    decide
  have hloop := inLoop_run_undisturbed hq (consistent_run twoDaemons _ _)
    (undisturbed_replicate hothers _) (stage_run_of_ne (by decide))
    (by rw [List.count_replicate_self])
  rw [race, run_append, run_append]
  exact inLoop_run_of_ne (by decide) hloop

/-- However many daemons are started and in whatever order they are scheduled, of two that have
inherited no descriptor of the daemon's files at most one is in its main loop. -/
theorem at_most_one_daemon {i j : ι} (hinherited : Inherited (sys.tables i))
    (hinherited' : Inherited (sys.tables j))
    (hi : (run sys (Machine.init sys pidFile) events).InLoop sys i) (hne : j ≠ i) :
    ¬(run sys (Machine.init sys pidFile) events).InLoop sys j := by
  intro hj
  have hconsistent := consistent_run sys pidFile events
  have hlock := hconsistent.lock_of_inLoop hinherited hi
  rw [hconsistent.lock_of_inLoop hinherited' hj] at hlock
  exact hne (Option.some.inj hlock)

theorem at_most_one_daemon_race :
    (run twoDaemons (Machine.init twoDaemons "2000\n".toList) race).InLoop twoDaemons true ∧
      ¬(run twoDaemons (Machine.init twoDaemons "2000\n".toList) race).InLoop twoDaemons false :=
  ⟨inLoop_race, at_most_one_daemon inherited_terminal inherited_terminal inLoop_race (by decide)⟩

private theorem toList_pidText (pid : ℕ) :
    (pidText pid).toList = Nat.toDigits 10 pid ++ ['\n'] := by
  have hdigits : (toString pid).toList = Nat.toDigits 10 pid := Nat.toList_repr
  rw [pidText, String.toList_append, hdigits]
  rfl

private theorem takeWhile_pidText (pid : ℕ) (rest : List Char) :
    ((pidText pid).toList ++ rest).takeWhile (· ≠ '\n') = Nat.toDigits 10 pid := by
  rw [toList_pidText, List.append_assoc, List.singleton_append, takeWhile_toDigits (by decide)]

/-- When a daemon is in its main loop that has inherited no descriptor of the daemon's files, the
first line of the PID file is its process identifier, whatever was in the file and whichever
daemons have written to it. -/
theorem pidFile_names_daemon {i : ι} (hinherited : Inherited (sys.tables i))
    (hi : (run sys (Machine.init sys pidFile) events).InLoop sys i)
    (hwritten : (pidText (sys.hosts i).pid).toList.length ≤ sys.written i) :
    (run sys (Machine.init sys pidFile) events).pidFile.takeWhile (· ≠ '\n') =
      (toString (sys.hosts i).pid).toList := by
  have hconsistent := consistent_run sys pidFile events
  have hlock := hconsistent.lock_of_inLoop hinherited hi
  obtain ⟨p, hstage⟩ := hi
  have hlen : 9 ≤ (program (sys.hosts i)).length := by simp [program, daemonize]
  obtain ⟨rest, hrest⟩ := hconsistent.named i _ p hstage hlen hlock
  rw [System.text, List.take_of_length_le hwritten] at hrest
  rw [← hrest, takeWhile_pidText]
  exact Nat.toList_repr.symm

theorem pidFile_names_daemon_race :
    (run twoDaemons (Machine.init twoDaemons "2000\n".toList) race).pidFile.takeWhile (· ≠ '\n') =
      "100".toList := by
  have hpid : (toString (twoDaemons.hosts true).pid).toList = "100".toList := Nat.toList_repr
  rw [← hpid]
  exact pidFile_names_daemon inherited_terminal inLoop_race (by decide)

/-- Daemons that have ended, in whatever way, do not keep a new one from its main loop, and
neither do daemons in front of their lock, which may go on while the new one starts: it gets
there unless another daemon is between its lock and its end. -/
theorem daemon_restarts {i : ι} {q : Process} (hnew : ∀ e ∈ events, e.process ≠ i)
    {later : List (Event ι)}
    (hquiet : Undisturbed sys i (run sys (Machine.init sys pidFile) events) later)
    (henough : (program (sys.hosts i)).length ≤ later.count (.statement i))
    (hstart : startUp (sys.hosts i) (sys.answers i) (Process.init (sys.tables i)) = .running q) :
    (run sys (Machine.init sys pidFile) (events ++ later)).InLoop sys i := by
  rw [run_append]
  exact inLoop_run_undisturbed hstart (consistent_run sys pidFile events) hquiet
    (stage_run_of_ne hnew) henough

/-- The first daemon is killed behind its lock. -/
def killed : List (Event Bool) := List.replicate 9 (.statement false) ++ [.dies false]

theorem daemon_restarts_killed :
    (run twoDaemons (Machine.init twoDaemons []) (killed ++
      List.replicate (program (twoDaemons.hosts true)).length (.statement true))).InLoop
        twoDaemons true := by
  obtain ⟨q, hq⟩ := startUp_twoDaemons
  have hended : (run twoDaemons (Machine.init twoDaemons []) killed).stage false = .ended := by
    rw [killed, run_append]
    exact stage_leave_self _ _
  refine daemon_restarts (by decide) (undisturbed_replicate (fun j hj pc p hstage => ?_) _)
    (by rw [List.count_replicate_self]) hq
  obtain rfl : j = false := Bool.eq_false_iff.mpr hj
  rw [hended] at hstage
  cases hstage

end Results

end K7nvhRng.SingleInstance
