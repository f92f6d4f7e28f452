import K7nvhRng.WhiteningBuffer

/-!
# The alarm and the statistics tick

`main` and the handler of `SIGALRM` share the one-shot alarm and the flag `test_ent`. The
machine below runs `main` from the set-up of the alarm on, one label for each statement
that touches the alarm or the flag; the statements between them are grouped, since a
signal within a group can as well be handled in front of it. A signal may be handled at
every label, provided that the alarm is armed.
-/

namespace K7nvhRng.AlarmInterleaving
open StoppableRuns DaemonLoop WhiteningBuffer

variable {devices : ℕ}

inductive Label (devices : ℕ) where
  /-- `alarm(ent_est_interval)` in front of the loop -/
  | startAlarm
  /-- the log lines between the alarm and the loop -/
  | announce
  /-- the head of the loop, with the check of `test_ent` -/
  | head
  /-- the statistics, up to the entropy count of the kernel -/
  | report
  /-- `alarm(ent_est_interval)` at the end of the tick -/
  | rearm
  /-- `test_ent = 0` -/
  | clearTestEnt
  /-- the reset of `ent_count`, `num_zeros` and `num_ones` -/
  | clearCounts
  /-- the pass over the devices, with those not yet visited, and `usleep` behind it -/
  | poll (rest : List (Fin devices))
  deriving DecidableEq

structure Machine (devices : ℕ) where
  label : Label devices
  armed : Bool
  testEnt : Bool
  daemon : State devices

def Machine.init (devices : ℕ) : Machine devices := ⟨.startAlarm, false, false, State.init devices⟩

/-- `signal_handler(SIGALRM)`, when the alarm goes off. -/
def Machine.handleAlarm (m : Machine devices) : Machine devices :=
  { m with armed := false, testEnt := true }

/-- The part of the tick in front of `alarm`. -/
def report (host : Host) (rndcount : Except SysError ℤ) (s : State devices) : Run devices :=
  let entry : Report devices := ⟨s.numZeros, s.numOnes, s.entCount, s.deviceCounters⟩
  let s := { s with reports := s.reports ++ [entry], deviceCounters := fun _ _ => 0 }
  match host.sink, rndcount with
  | .linuxRandom, .error e =>
    .stopped (.exit (-20) s!"Could not read the entropy count. Error {e.errno}: {e.text}") s
  | _, _ => .running s

def clearCounts (s : State devices) : State devices :=
  { s with entCount := 0, numZeros := 0, numOnes := 0 }

structure Input where
  rndcount : Except SysError ℤ
  poll : Poll

def statement (host : Host) (input : Input) : Machine devices → Outcome Stop (Machine devices)
  | ⟨.startAlarm, _, testEnt, s⟩ => .running ⟨.announce, true, testEnt, s⟩
  | ⟨.announce, armed, testEnt, s⟩ => .running ⟨.head, armed, testEnt, s⟩
  | ⟨.head, armed, testEnt, s⟩ =>
    .running ⟨if testEnt then .report else .poll (List.finRange devices), armed, testEnt, s⟩
  | ⟨.report, armed, testEnt, s⟩ =>
    (report host input.rndcount s).map fun s => ⟨.rearm, armed, testEnt, s⟩
  | ⟨.rearm, _, testEnt, s⟩ => .running ⟨.clearTestEnt, true, testEnt, s⟩
  | ⟨.clearTestEnt, armed, _, s⟩ => .running ⟨.clearCounts, armed, false, s⟩
  | ⟨.clearCounts, armed, testEnt, s⟩ =>
    .running ⟨.poll (List.finRange devices), armed, testEnt, clearCounts s⟩
  | ⟨.poll (i :: rest), armed, testEnt, s⟩ =>
    (readDevice host i input.poll s).map fun s => ⟨.poll rest, armed, testEnt, s⟩
  | ⟨.poll [], armed, testEnt, s⟩ => .running ⟨.head, armed, testEnt, s⟩

/-- The machines reached from `start`, with the labels at which the alarm has gone off. -/
def Reaches (host : Host) (start : Machine devices) : List (Label devices) → Machine devices → Prop :=
  Outcome.Interrupted (statement host) (fun m => m.armed = true) Machine.handleAlarm Machine.label
    start

/-! ### The machine runs the loop of the daemon -/

theorem tick_eq (host : Host) (rndcount : Except SysError ℤ) (s : State devices) :
    tick host rndcount s =
      (report host rndcount s).andThen fun s => .running (clearCounts s) := by
  unfold tick report
  cases host.sink <;> cases rndcount <;> rfl

/-- What has been done of the current iteration, given the iterations before it. -/
def Within (host : Host) (m : Machine devices) : Prop :=
  match m.label with
  | .startAlarm | .announce | .head | .report => ∃ its, mainLoop host its = .running m.daemon
  | .rearm | .clearTestEnt | .clearCounts => ∃ its s rndcount, mainLoop host its = .running s ∧
      report host rndcount s = .running m.daemon
  | .poll rest => ∃ (its : List (Iteration devices)) (s : State devices) (it : Iteration devices)
      (done : List (Fin devices)), mainLoop host its = .running s ∧
      done ++ rest = List.finRange devices ∧
      (if it.testEnt then tick host it.rndcount s else .running s).andThen
        (Outcome.fold (fun i => readDevice host i (it.polls i)) done) = .running m.daemon

private theorem mainLoop_concat {host : Host} {its : List (Iteration devices)}
    {it : Iteration devices} {s t : State devices} (hits : mainLoop host its = .running s)
    (hit : iterate host it s = .running t) : mainLoop host (its ++ [it]) = .running t := by
  rw [mainLoop] at hits
  rw [mainLoop, Outcome.fold_append, hits, Outcome.andThen_running, Outcome.fold_singleton, hit]

private theorem pass_concat {host : Host} {it : Iteration devices} {done rest : List (Fin devices)}
    {i : Fin devices} {o : Run devices} {s t : State devices}
    (hrest : done ++ i :: rest = List.finRange devices)
    (hdone : o.andThen (Outcome.fold (fun i => readDevice host i (it.polls i)) done) = .running s)
    (p : Poll) (hread : readDevice host i p s = .running t) :
    o.andThen (Outcome.fold (fun j => readDevice host j (Function.update it.polls i p j))
      (done ++ [i])) = .running t := by
  have hnodup : (done ++ i :: rest).Nodup := hrest ▸ List.nodup_finRange devices
  have hnew : i ∉ done := fun hi => (List.nodup_append.mp hnodup).2.2 i hi i (by simp) rfl
  have hsame : Outcome.fold (fun j => readDevice host j (Function.update it.polls i p j)) done =
      Outcome.fold (fun j => readDevice host j (it.polls j)) done := by
    apply Outcome.fold_congr
    intro j hj
    have hne : j ≠ i := by
      rintro rfl
      exact hnew hj
    rw [Function.update_of_ne hne]
  have happend : ∀ u, Outcome.fold (fun j => readDevice host j (Function.update it.polls i p j))
      (done ++ [i]) u = (Outcome.fold (fun j => readDevice host j (it.polls j)) done u).andThen
        (readDevice host i p) := by
    intro u
    rw [Outcome.fold_append, hsame]
    congr 1
    funext v
    rw [Outcome.fold_singleton, Function.update_self]
  simp only [funext happend, ← Outcome.andThen_assoc]
  rw [hdone, Outcome.andThen_running, hread]

private theorem statement_within {host : Host} {input : Input} {m m' : Machine devices}
    (h : Within host m) (hstep : statement host input m = .running m') : Within host m' := by
  obtain ⟨label, armed, testEnt, s⟩ := m
  cases label with
  | startAlarm | announce | rearm | clearTestEnt =>
    cases hstep
    exact h
  | head =>
    obtain ⟨its, hits⟩ := h
    cases hstep
    cases testEnt with
    | true => exact ⟨its, hits⟩
    | false => exact ⟨its, s, ⟨false, .ok 0, fun _ => input.poll⟩, [], hits, rfl, rfl⟩
  | report =>
    obtain ⟨its, hits⟩ := h
    obtain ⟨t, hreport, rfl⟩ := Outcome.map_eq_running_iff.mp hstep
    exact ⟨its, s, input.rndcount, hits, hreport⟩
  | clearCounts =>
    obtain ⟨its, s₀, rndcount, hits, hreport⟩ := h
    cases hstep
    refine ⟨its, s₀, ⟨true, rndcount, fun _ => input.poll⟩, [], hits, rfl, ?_⟩
    dsimp only at hreport ⊢
    rw [if_pos rfl, tick_eq, hreport]
    rfl
  | poll rest =>
    obtain ⟨its, s₀, it, done, hits, hrest, hdone⟩ := h
    cases rest with
    | nil =>
      cases hstep
      rw [List.append_nil] at hrest
      rw [hrest] at hdone
      exact ⟨its ++ [it], mainLoop_concat hits hdone⟩
    | cons i rest =>
      obtain ⟨t, hread, rfl⟩ := Outcome.map_eq_running_iff.mp hstep
      refine ⟨its, s₀, { it with polls := Function.update it.polls i input.poll }, done ++ [i],
        hits, by simpa using hrest, pass_concat hrest hdone input.poll hread⟩

/-- At the head of the loop, the daemon is in a state that its loop reaches when it is told in
which iterations the tick is due. -/
theorem reaches_mainLoop {host : Host} {fired : List (Label devices)} {m : Machine devices}
    (h : Reaches host (Machine.init devices) fired m) (hhead : m.label = .head) :
    ∃ its, mainLoop host its = .running m.daemon := by
  have hwithin : Within host m := Outcome.Interrupted.invariant (I := fun _ m => Within host m) h
    ⟨[], rfl⟩ (fun _ _ _ _ hm hstep => statement_within hm hstep) (fun _ _ hm _ => hm)
  rw [Within, hhead] at hwithin
  exact hwithin

/-! ### When the alarm is lost -/

/-- Whether another tick will come is decided by the signals that were handled between `alarm`
and `test_ent = 0`. -/
def Kept (fired : List (Label devices)) (m : Machine devices) : Prop :=
  match m.label with
  | .startAlarm | .report | .rearm => Label.clearTestEnt ∉ fired
  | .clearTestEnt => m.armed = true ↔ Label.clearTestEnt ∉ fired
  | .announce | .head | .clearCounts | .poll _ =>
    (m.armed = true ∨ m.testEnt = true) ↔ Label.clearTestEnt ∉ fired

private theorem statement_kept {host : Host} {input : Input} {fired : List (Label devices)}
    {m m' : Machine devices} (h : Kept fired m) (hstep : statement host input m = .running m') :
    Kept fired m' := by
  obtain ⟨label, armed, testEnt, s⟩ := m
  cases label with
  | startAlarm | rearm =>
    cases hstep
    simpa [Kept] using h
  | announce | clearCounts =>
    cases hstep
    exact h
  | head =>
    cases hstep
    cases testEnt with
    | true => simpa [Kept] using h
    | false => exact h
  | report =>
    obtain ⟨t, -, rfl⟩ := Outcome.map_eq_running_iff.mp hstep
    exact h
  | clearTestEnt =>
    cases hstep
    simpa [Kept] using h
  | poll rest =>
    cases rest with
    | nil =>
      cases hstep
      exact h
    | cons i rest =>
      obtain ⟨t, -, rfl⟩ := Outcome.map_eq_running_iff.mp hstep
      exact h

private theorem handleAlarm_kept {fired : List (Label devices)} {m : Machine devices}
    (h : Kept fired m) (harmed : m.armed = true) :
    Kept (fired ++ [m.label]) m.handleAlarm := by
  obtain ⟨label, armed, testEnt, s⟩ := m
  cases harmed
  cases label with
  | clearTestEnt => simp [Kept, Machine.handleAlarm]
  | _ => simpa [Kept, Machine.handleAlarm] using h

/-- At the head of the loop the alarm is armed or a tick is due, unless the alarm has gone off
between `alarm` and `test_ent = 0`. -/
theorem alarm_kept_iff {host : Host} {fired : List (Label devices)} {m : Machine devices}
    (h : Reaches host (Machine.init devices) fired m) (hhead : m.label = .head) :
    (m.armed = true ∨ m.testEnt = true) ↔ Label.clearTestEnt ∉ fired := by
  have hkept : Kept fired m := Outcome.Interrupted.invariant (I := Kept) h
    (by simp [Kept, Machine.init]) (fun _ _ _ _ hm hstep => statement_kept hm hstep)
    (fun _ _ hm harmed => handleAlarm_kept hm harmed)
  rw [Kept, hhead] at hkept
  exact hkept

def idle : Input := ⟨.ok 0, ⟨0, ⟨0, Vector.replicate 128 0#8, ⟨0, ""⟩⟩⟩⟩

def reported : State 1 := { State.init 1 with reports := [⟨0, 0, 0, fun _ _ => 0⟩] }

theorem reaches_rearmed :
    Reaches fileHost (Machine.init 1) [.head] ⟨.clearTestEnt, true, true, reported⟩ := by
  have hfirst : Reaches fileHost (Machine.init 1) [] ⟨.head, true, false, State.init 1⟩ :=
    .step idle (.step idle .start rfl) rfl
  have hdue : Reaches fileHost (Machine.init 1) [.head] ⟨.head, false, true, State.init 1⟩ :=
    .signal hfirst rfl
  have hreport : Reaches fileHost (Machine.init 1) [.head] ⟨.rearm, false, true, reported⟩ :=
    .step idle (.step idle hdue rfl) rfl
  exact .step idle hreport rfl

theorem reaches_head {fired : List (Label 1)} {armed testEnt : Bool}
    (h : Reaches fileHost (Machine.init 1) fired ⟨.clearTestEnt, armed, testEnt, reported⟩) :
    Reaches fileHost (Machine.init 1) fired ⟨.head, armed, false, reported⟩ :=
  .step idle (.step idle (.step idle (.step idle h rfl) rfl) rfl) rfl

/-- After a tick that no signal has interrupted, the alarm is armed. -/
theorem alarm_kept_iff_uninterrupted : ∃ (fired : List (Label 1)) (m : Machine 1),
    Reaches fileHost (Machine.init 1) fired m ∧ m.label = .head ∧ m.armed = true ∧
      ((m.armed = true ∨ m.testEnt = true) ↔ Label.clearTestEnt ∉ fired) :=
  ⟨_, _, reaches_head reaches_rearmed, rfl, rfl, alarm_kept_iff (reaches_head reaches_rearmed) rfl⟩

/-- When the alarm goes off again before `test_ent` is cleared, it is not armed at the head of
the loop, and no tick is due. -/
theorem alarm_not_kept : ∃ (fired : List (Label 1)) (m : Machine 1),
    Reaches fileHost (Machine.init 1) fired m ∧ m.label = .head ∧
      ¬(m.armed = true ∨ m.testEnt = true) := by
  have hagain : Reaches fileHost (Machine.init 1) [.head, .clearTestEnt]
      ⟨.clearTestEnt, false, true, reported⟩ := .signal reaches_rearmed rfl
  exact ⟨_, _, reaches_head hagain, rfl, by simp⟩

/-- The alarm has gone off for the last time. -/
def Lost (m : Machine devices) : Prop :=
  m.armed = false ∧ m.testEnt = false ∧ (m.label = .head ∨ ∃ rest, m.label = .poll rest)

private theorem statement_lost {host : Host} {input : Input} {m m' : Machine devices} (h : Lost m)
    (hstep : statement host input m = .running m') : Lost m' := by
  obtain ⟨label, armed, testEnt, s⟩ := m
  obtain ⟨harmed, htest, hlabel⟩ := h
  dsimp only at harmed htest hlabel
  subst harmed htest
  rcases hlabel with rfl | ⟨rest, rfl⟩
  · cases hstep
    exact ⟨rfl, rfl, .inr ⟨_, rfl⟩⟩
  · cases rest with
    | nil =>
      cases hstep
      exact ⟨rfl, rfl, .inl rfl⟩
    | cons i rest =>
      obtain ⟨t, -, rfl⟩ := Outcome.map_eq_running_iff.mp hstep
      exact ⟨rfl, rfl, .inr ⟨rest, rfl⟩⟩

/-- From a head of the loop without an alarm and without a tick due, statistics are never
reported again. -/
theorem no_report_after_lost {host : Host} {m m' : Machine devices} {fired : List (Label devices)}
    (hm : m.label = .head) (hlost : ¬(m.armed = true ∨ m.testEnt = true))
    (h : Reaches host m fired m') : m'.label ≠ .report := by
  rw [not_or, Bool.not_eq_true, Bool.not_eq_true] at hlost
  have hlost' : Lost m' := Outcome.Interrupted.invariant (I := fun _ m => Lost m) h
    ⟨hlost.1, hlost.2, .inl hm⟩ (fun _ _ _ _ hs hstep => statement_lost hs hstep)
    (fun _ s hs harmed => absurd harmed (by simp [hs.1]))
  rcases hlost'.2.2 with hl | ⟨rest, hl⟩ <;> simp [hl]

end K7nvhRng.AlarmInterleaving
