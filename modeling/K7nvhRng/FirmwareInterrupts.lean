import K7nvhRng.FirmwareLeds
import Mathlib.Algebra.Ring.Parity

/-!
# The firmware interrupted by USB events

LUFA calls the handlers of USB events from an interrupt, at any point of the main loop and with
further interrupts blocked. The main loop toggles the LEDs by reading `PORTD` and writing it
back; what a handler writes in between is overwritten. The loop is executed statement by
statement here. Every interleaving has the effect of a sequence of whole iterations and events,
from which exactly the events that were handled between such a read and its write are missing.
-/

namespace K7nvhRng.FirmwareInterrupts
open AmlsArrays StoppableRuns FirmwareLeds

inductive UsbEvent where
  | connect
  | disconnect
  deriving DecidableEq

def setPort (port : Byte) (s : Firmware) : Firmware := { s with portd := port }

def UsbEvent.port (e : UsbEvent) (port : Byte) : Byte :=
  match e with
  | .connect => port ||| 0b00100000#8
  | .disconnect => port &&& 0b11011111#8

/-- `EVENT_USB_Device_Connect` and `EVENT_USB_Device_Disconnect`. -/
def handler (e : UsbEvent) (s : Firmware) : Firmware := setPort (e.port s.portd) s

/-- What the surroundings provide in each iteration: the value of `PINC` and the byte received,
if there is one. -/
structure Surroundings where
  pinc : ℕ → Byte
  received : ℕ → Option Byte

/-- The statement that comes next. Between the two accesses to `PORTD` that make up a toggling,
the value read is kept. -/
inductive Position where
  | sample
  | blink
  | blinkWrite (port : Byte)
  | count
  | receive
  | handle
  | flash
  | flashWrite (port : Byte)
  | flashCount
  deriving DecidableEq

structure Machine where
  firmware : Firmware
  position : Position
  /-- the number of iterations that are complete -/
  passes : ℕ

def Machine.init : Machine := ⟨reset, .sample, 0⟩

inductive Move where
  | statement
  | interrupt (e : UsbEvent)
  deriving DecidableEq

def putSample (pinc : Byte) (s : Firmware) : Firmware :=
  { s with sampled := s.sampled ++ [sample pinc] }

def countSample (s : Firmware) : Firmware := { s with sampleCount := s.sampleCount + 1#16 }

def countIdent (s : Firmware) : Firmware := { s with identCount := s.identCount + 1#16 }

/-- The tests of `BYTE_IN`. -/
def testByte (sg : CharSign) (s : Firmware) : Outcome Jump Firmware :=
  if sg.promote s.byteIn ≥ 0 then
    if sg.promote s.byteIn = 30 then .stopped .bootloader s
    else if sg.promote s.byteIn = 0x3f then .running (toggleIdent s)
    else .running s
  else .running s

/-- The next statement. A test of a counter, which no handler changes, is taken together with
the read of `PORTD` behind it. -/
def statement (sg : CharSign) (env : Surroundings) (m : Machine) : Outcome Jump Machine :=
  let s := m.firmware
  match m.position with
  | .sample => .running ⟨putSample (env.pinc m.passes) s, .blink, m.passes⟩
  | .blink =>
    .running ⟨s, if s.sampleCount = 0#16 then .blinkWrite s.portd else .count, m.passes⟩
  | .blinkWrite port => .running ⟨setPort (port ^^^ 0b00010000#8) s, .count, m.passes⟩
  | .count => .running ⟨countSample s, .receive, m.passes⟩
  | .receive => .running ⟨readByte (env.received m.passes) s, .handle, m.passes⟩
  | .handle => (testByte sg s).map fun s => ⟨s, .flash, m.passes⟩
  | .flash =>
    if s.ident ≠ 0#8 then
      .running ⟨s, if s.identCount = 0#16 then .flashWrite s.portd else .flashCount, m.passes⟩
    else .running ⟨s, .sample, m.passes + 1⟩
  | .flashWrite port => .running ⟨setPort (port ^^^ 0b00100000#8) s, .flashCount, m.passes⟩
  | .flashCount => .running ⟨countIdent s, .sample, m.passes + 1⟩

def step (sg : CharSign) (env : Surroundings) (move : Move) (m : Machine) : Outcome Jump Machine :=
  match move with
  | .statement => statement sg env m
  | .interrupt e => .running { m with firmware := handler e m.firmware }

def run (sg : CharSign) (env : Surroundings) (moves : List Move) : Outcome Jump Machine :=
  Outcome.fold (step sg env) moves Machine.init

/-! ### The sequence of iterations and events -/

def UsbEvent.action : UsbEvent → Action
  | .connect => .connect
  | .disconnect => .disconnect

def Position.inWindow : Position → Bool
  | .blinkWrite _ | .flashWrite _ => true
  | _ => false

/-- What takes effect with a move. An iteration does so when LED2 would be toggled, or when it
is left for the bootloader; an event does so at once, unless it is handled between a read of
`PORTD` and the write that follows. -/
def effects (sg : CharSign) (env : Surroundings) (m : Machine) : Move → List Action
  | .interrupt e => if m.position.inWindow then [] else [e.action]
  | .statement =>
    match m.position with
    | .handle =>
      match testByte sg m.firmware with
      | .running _ => []
      | .stopped _ _ => [.iteration (env.pinc m.passes) (env.received m.passes)]
    | .flash => [.iteration (env.pinc m.passes) (env.received m.passes)]
    | _ => []

def taken (sg : CharSign) (env : Surroundings) : List Move → Machine → List Action
  | [], _ => []
  | move :: moves, m =>
    effects sg env m move ++
      match step sg env move m with
      | .running m' => taken sg env moves m'
      | .stopped _ _ => []

/-! ### The parts of an iteration -/

private theorem step_action (sg : CharSign) (e : UsbEvent) (s : Firmware) :
    FirmwareLeds.step sg e.action s = .running (handler e s) := by
  cases e <;> rfl

theorem grabSample_eq (pinc : Byte) (s : Firmware) :
    grabSample pinc s =
      countSample (setPort (if s.sampleCount = 0#16 then s.portd ^^^ 0b00010000#8 else s.portd)
        (putSample pinc s)) := rfl

theorem handleByte_eq (sg : CharSign) (s : Firmware) :
    handleByte sg s = (testByte sg s).andThen fun s => .running (flash s) := by
  rw [handleByte, testByte]
  split_ifs <;> rfl

private theorem port_blink (e : UsbEvent) (port : Byte) :
    e.port (port ^^^ 0b00010000#8) = e.port port ^^^ 0b00010000#8 := by
  revert port
  cases e <;> decide

theorem grabSample_handler (e : UsbEvent) (pinc : Byte) (s : Firmware) :
    grabSample pinc (handler e s) = handler e (grabSample pinc s) := by
  by_cases hzero : s.sampleCount = 0#16
  · simp only [grabSample, handler, setPort, hzero, if_true, port_blink]
  · simp only [grabSample, handler, setPort, hzero, if_false]

private theorem testByte_handler (sg : CharSign) (e : UsbEvent) (s : Firmware) :
    testByte sg (handler e s) = (testByte sg s).map (handler e) := by
  have hbyte : (handler e s).byteIn = s.byteIn := rfl
  rw [testByte, testByte, hbyte]
  split_ifs <;> rfl

theorem testByte_running {sg : CharSign} {s t : Firmware} (h : testByte sg s = .running t) :
    t.portd = s.portd ∧ t.sampleCount = s.sampleCount := by
  rw [testByte] at h
  split_ifs at h <;> cases h <;> exact ⟨rfl, rfl⟩

/-! ### The simulation -/

section Simulation
variable {sg : CharSign} {env : Surroundings}

/-- How the state within an iteration follows from the state `s` in which everything that has
taken effect is executed and nothing else. -/
def Follows (sg : CharSign) (env : Surroundings) (s : Firmware) (m : Machine) : Prop :=
  let pinc := env.pinc m.passes
  let received := env.received m.passes
  match m.position with
  | .sample => m.firmware = s
  | .blink => m.firmware = putSample pinc s
  | .blinkWrite port =>
    port = s.portd ∧ s.sampleCount = 0#16 ∧ setPort port m.firmware = putSample pinc s
  | .count => countSample m.firmware = grabSample pinc s
  | .receive => m.firmware = grabSample pinc s
  | .handle => m.firmware = readByte received (grabSample pinc s)
  | .flash => testByte sg (readByte received (grabSample pinc s)) = .running m.firmware
  | .flashWrite port =>
    m.firmware.ident ≠ 0#8 ∧ s = countIdent (setPort (port ^^^ 0b00100000#8) m.firmware)
  | .flashCount => m.firmware.ident ≠ 0#8 ∧ s = countIdent m.firmware

theorem follows_init : Follows sg env reset Machine.init := rfl

private theorem follows_interrupt {s : Firmware} {m : Machine} (h : Follows sg env s m)
    (e : UsbEvent) :
    ∃ s', Outcome.fold (FirmwareLeds.step sg) (effects sg env m (.interrupt e)) s = .running s' ∧
      Follows sg env s' { m with firmware := handler e m.firmware } := by
  obtain ⟨f, position, passes⟩ := m
  have htaken : Outcome.fold (FirmwareLeds.step sg) [e.action] s = .running (handler e s) := by
    rw [Outcome.fold_singleton, step_action]
  cases position with
  | sample => exact ⟨_, htaken, congrArg (handler e) h⟩
  | blink => exact ⟨_, htaken, congrArg (handler e) h⟩
  | blinkWrite port => exact ⟨s, rfl, h⟩
  | count =>
    refine ⟨_, htaken, ?_⟩
    exact (congrArg (handler e) h).trans (grabSample_handler e _ s).symm
  | receive =>
    refine ⟨_, htaken, ?_⟩
    exact (congrArg (handler e) h).trans (grabSample_handler e _ s).symm
  | handle =>
    refine ⟨_, htaken, ?_⟩
    refine (congrArg (handler e) h).trans ?_
    exact congrArg (readByte _) (grabSample_handler e _ s).symm
  | flash =>
    refine ⟨_, htaken, ?_⟩
    have htest := testByte_handler sg e (readByte (env.received passes) (grabSample (env.pinc passes) s))
    rw [h] at htest
    exact (congrArg (fun t => testByte sg (readByte _ t)) (grabSample_handler e _ s)).trans htest
  | flashWrite port => exact ⟨s, rfl, h⟩
  | flashCount => exact ⟨_, htaken, h.1, congrArg (handler e) h.2⟩

/-- The atomic machine has caught up with a running machine, or has stopped with it. -/
abbrev Matches (sg : CharSign) (env : Surroundings) (o : Outcome Jump Firmware)
    (o' : Outcome Jump Machine) : Prop :=
  o'.Satisfies (fun m => ∃ s, o = .running s ∧ Follows sg env s m)
    (fun why m => o = .stopped why m.firmware)

private theorem follows_statement {s : Firmware} {m : Machine} (h : Follows sg env s m) :
    Matches sg env (Outcome.fold (FirmwareLeds.step sg) (effects sg env m .statement) s)
      (statement sg env m) := by
  obtain ⟨f, position, passes⟩ := m
  cases position with
  | sample => exact .running ⟨s, rfl, congrArg (putSample _) h⟩
  | blink =>
    obtain rfl : f = putSample (env.pinc passes) s := h
    have hstep : statement sg env ⟨putSample (env.pinc passes) s, .blink, passes⟩ =
        .running ⟨putSample (env.pinc passes) s,
          if s.sampleCount = 0#16 then .blinkWrite s.portd else .count, passes⟩ := rfl
    rw [hstep]
    by_cases hzero : s.sampleCount = 0#16
    · rw [if_pos hzero]
      exact .running ⟨s, rfl, rfl, hzero, rfl⟩
    · rw [if_neg hzero]
      refine .running ⟨s, rfl, ?_⟩
      rw [Follows, grabSample_eq, if_neg hzero]
      rfl
  | blinkWrite port =>
    obtain ⟨rfl, hzero, hport⟩ := h
    refine .running ⟨s, rfl, ?_⟩
    rw [Follows, grabSample_eq, if_pos hzero, ← hport]
    rfl
  | count => exact .running ⟨s, rfl, h⟩
  | receive => exact .running ⟨s, rfl, congrArg (readByte _) h⟩
  | handle =>
    obtain rfl : f = readByte (env.received passes) (grabSample (env.pinc passes) s) := h
    rw [statement, effects]
    dsimp only
    cases htest : testByte sg (readByte (env.received passes) (grabSample (env.pinc passes) s)) with
    | running t => exact .running ⟨s, rfl, htest⟩
    | stopped why t =>
      refine .stopped ?_
      rw [Outcome.fold_singleton, FirmwareLeds.step, handleByte_eq, htest]
      rfl
  | flash =>
    have hiteration : Outcome.fold (FirmwareLeds.step sg)
        [.iteration (env.pinc passes) (env.received passes)] s = .running (FirmwareLeds.flash f) := by
      rw [Outcome.fold_singleton, FirmwareLeds.step, handleByte_eq, h]
      rfl
    rw [statement]
    dsimp only
    by_cases hident : f.ident = 0#8
    · rw [if_neg (not_not.mpr hident)]
      refine .running ⟨_, hiteration, ?_⟩
      rw [Follows, FirmwareLeds.flash, if_neg (not_not.mpr hident)]
    · rw [if_pos hident]
      by_cases hzero : f.identCount = 0#16
      · rw [if_pos hzero]
        refine .running ⟨_, hiteration, hident, ?_⟩
        rw [FirmwareLeds.flash, if_pos hident, if_pos hzero]
        rfl
      · rw [if_neg hzero]
        refine .running ⟨_, hiteration, hident, ?_⟩
        rw [FirmwareLeds.flash, if_pos hident, if_neg hzero]
        rfl
  | flashWrite port => exact .running ⟨s, rfl, h⟩
  | flashCount => exact .running ⟨s, rfl, h.2.symm⟩

theorem follows_step {s : Firmware} {m : Machine} (h : Follows sg env s m) (move : Move) :
    Matches sg env (Outcome.fold (FirmwareLeds.step sg) (effects sg env m move) s)
      (step sg env move m) := by
  cases move with
  | statement => exact follows_statement h
  | interrupt e => exact .running (follows_interrupt h e)

/-- Every run, whatever the order of its moves. -/
theorem follows_run {s : Firmware} {m : Machine} (h : Follows sg env s m) (moves : List Move) :
    Matches sg env (Outcome.fold (FirmwareLeds.step sg) (taken sg env moves m) s)
      (Outcome.fold (step sg env) moves m) := by
  induction moves generalizing s m with
  | nil => exact .running ⟨s, rfl, h⟩
  | cons move moves ih =>
    have hmove := follows_step h move
    rw [taken, Outcome.fold_append, Outcome.fold_cons]
    generalize step sg env move m = o at hmove ⊢
    cases hmove with
    | running hm =>
      obtain ⟨s', hs', hfollows⟩ := hm
      rw [hs']
      exact ih hfollows
    | stopped hstop =>
      rw [hstop]
      exact .stopped rfl

/-- What the atomic machine reaches, the other one has at the head of its loop. -/
theorem Matches.satisfies {o : Outcome Jump Firmware} {o' : Outcome Jump Machine}
    (h : Matches sg env o o') {R : Firmware → Prop} {Q : Jump → Firmware → Prop}
    (ho : o.Satisfies R Q) :
    o'.Satisfies (fun m => m.position = .sample → R m.firmware) (fun why m => Q why m.firmware) := by
  cases h with
  | @running m hm =>
    obtain ⟨s, rfl, hfollows⟩ := hm
    obtain ⟨f, position, passes⟩ := m
    cases ho with
    | running hs =>
      refine .running fun hhead => ?_
      cases hhead
      obtain rfl : f = s := hfollows
      exact hs
  | stopped hstop =>
    subst hstop
    cases ho with
    | stopped hs => exact .stopped hs

end Simulation

/-! ### When events get lost -/

section Windows
variable {sg : CharSign} {env : Surroundings}

def Position.counted : Position → ℕ
  | .sample | .blink | .blinkWrite _ | .count => 0
  | .receive | .handle | .flash | .flashWrite _ | .flashCount => 1

def Counted (m : Machine) : Prop :=
  m.firmware.sampleCount = BitVec.ofNat 16 (m.passes + m.position.counted)

theorem counted_step {m : Machine} (h : Counted m) (move : Move) :
    (step sg env move m).Satisfies Counted (fun _ _ => True) := by
  obtain ⟨f, position, passes⟩ := m
  have hcount : f.sampleCount = BitVec.ofNat 16 (passes + position.counted) := h
  cases move with
  | interrupt e => exact .running h
  | statement =>
    cases position with
    | blink =>
      refine .running (hcount.trans ?_)
      dsimp only
      split_ifs <;> rfl
    | count =>
      refine .running ?_
      rw [Counted, BitVec.ofNat_add]
      exact congrArg (· + 1#16) hcount
    | handle =>
      rw [step, statement]
      dsimp only
      cases htest : testByte sg f with
      | running t => exact .running ((testByte_running htest).2.trans hcount)
      | stopped why t => exact .stopped trivial
    | flash =>
      rw [step, statement]
      dsimp only
      split_ifs <;> exact .running hcount
    | sample | blinkWrite | receive | flashWrite | flashCount => exact .running hcount

theorem Follows.passes_of_inWindow {s : Firmware} {m : Machine} (h : Follows sg env s m)
    (hoff : s.ident = 0#8) (hcount : Counted m) (hwindow : m.position.inWindow = true) :
    m.passes % 65536 = 0 := by
  obtain ⟨f, position, passes⟩ := m
  cases position with
  | blinkWrite port =>
    obtain ⟨-, hzero, hport⟩ := h
    have hsame := congrArg Firmware.sampleCount hport
    exact (ofNat_eq_zero_iff passes).mp (hcount.symm.trans (hsame.trans hzero))
  | flashWrite port =>
    obtain ⟨hident, rfl⟩ := h
    exact absurd hoff hident
  | sample | blink | count | receive | handle | flash | flashCount => cases hwindow

def led2 (s : Firmware) : Bool := s.portd.getLsbD 5

private theorem led2_grabSample (pinc : Byte) (s : Firmware) :
    led2 (grabSample pinc s) = led2 s := by
  simp only [led2, grabSample]
  split_ifs
  · rw [BitVec.getLsbD_xor]
    simp
  · rfl

/-- As long as identification is off, LED2 shows at every position outside the windows what it
shows between the iterations. -/
theorem Follows.led2_eq {s : Firmware} {m : Machine} (h : Follows sg env s m) (hoff : s.ident = 0#8)
    (hwindow : m.position.inWindow = false) : led2 m.firmware = led2 s := by
  obtain ⟨f, position, passes⟩ := m
  have hgrab := led2_grabSample (env.pinc passes) s
  cases position with
  | sample => exact congrArg led2 h
  | blink =>
    obtain rfl : f = putSample (env.pinc passes) s := h
    rfl
  | blinkWrite port => cases hwindow
  | count => exact (congrArg led2 h).trans hgrab
  | receive => exact (congrArg led2 h).trans hgrab
  | handle => exact (congrArg led2 h).trans hgrab
  | flash => exact (congrArg (fun port : Byte => port.getLsbD 5) (testByte_running h).1).trans hgrab
  | flashWrite port => cases hwindow
  | flashCount =>
    obtain ⟨hident, rfl⟩ := h
    exact absurd hoff hident

private theorem received_of_mem_effects {pinc : Byte} {received : Option Byte} {m : Machine}
    {move : Move} (h : .iteration pinc received ∈ effects sg env m move) :
    ∃ n, env.received n = received := by
  cases move with
  | interrupt e =>
    rw [effects] at h
    split_ifs at h
    · cases h
    · cases e <;> cases List.mem_singleton.mp h
  | statement =>
    refine ⟨m.passes, ?_⟩
    rw [effects] at h
    split at h
    · split at h
      · cases h
      · cases List.mem_singleton.mp h
        rfl
    · cases List.mem_singleton.mp h
      rfl
    · cases h

private theorem received_of_mem_taken {pinc : Byte} {received : Option Byte} {moves : List Move}
    {m : Machine} (h : .iteration pinc received ∈ taken sg env moves m) :
    ∃ n, env.received n = received := by
  induction moves generalizing m with
  | nil => cases h
  | cons move moves ih =>
    rw [taken, List.mem_append] at h
    rcases h with hnow | hlater
    · exact received_of_mem_effects hnow
    · split at hlater
      · exact ih hlater
      · cases hlater

theorem history_quiet {actions : List Action}
    (hquiet : ∀ pinc, .iteration pinc (some 0x3f#8) ∉ actions) (c : Bool) :
    ∃ c', actions.foldl History.observe ⟨c, false, 0, 0⟩ = ⟨c', false, 0, 0⟩ := by
  induction actions generalizing c with
  | nil => exact ⟨c, rfl⟩
  | cons a actions ih =>
    have hrest := fun pinc hmem => hquiet pinc (List.mem_cons_of_mem a hmem)
    cases a with
    | connect => exact ih hrest true
    | disconnect => exact ih hrest false
    | iteration pinc received =>
      have hne : received ≠ some 0x3f#8 := by
        rintro rfl
        exact hquiet pinc List.mem_cons_self
      rw [List.foldl_cons, History.observe, if_neg hne]
      exact ih hrest c

end Windows

/-! ### LED1 -/

/-- LED1 has been toggled once for every 65536 samples, the first time with the first one. -/
structure Blinks (s : Firmware) : Prop where
  count : s.sampleCount = BitVec.ofNat 16 s.sampled.length
  led1 : s.portd.getLsbD 4 = decide ((s.sampled.length + 65535) / 65536 % 2 = 1)

private theorem blinks_reset : Blinks reset := by
  refine ⟨rfl, ?_⟩
  simp [reset]

theorem Blinks.odd_iff {s : Firmware} (h : Blinks s) :
    s.portd.getLsbD 4 = true ↔ Odd ((s.sampled.length + 65535) / 65536) := by
  rw [h.led1, decide_eq_true_iff, Nat.odd_iff]

private theorem blinks_grabSample {s : Firmware} (h : Blinks s) (pinc : Byte) :
    Blinks (grabSample pinc s) := by
  have hlen : (grabSample pinc s).sampled.length = s.sampled.length + 1 := by
    simp [grabSample]
  refine ⟨?_, ?_⟩
  · rw [hlen, BitVec.ofNat_add, ← h.count]
    rfl
  · rw [hlen]
    simp only [grabSample, h.count, ofNat_eq_zero_iff]
    split_ifs with hzero
    · have hnext : (s.sampled.length + 1 + 65535) / 65536 =
          (s.sampled.length + 65535) / 65536 + 1 := by
        omega
      rw [BitVec.getLsbD_xor, h.led1, hnext, Nat.add_mod]
      rcases Nat.mod_two_eq_zero_or_one ((s.sampled.length + 65535) / 65536) with hpar | hpar
      · simp [hpar]
      · simp [hpar]
    · have hnext : (s.sampled.length + 1 + 65535) / 65536 = (s.sampled.length + 65535) / 65536 := by
        omega
      rw [h.led1, hnext]

theorem Blinks.congr {s t : Firmware} (h : Blinks s) (hcount : t.sampleCount = s.sampleCount)
    (hsampled : t.sampled = s.sampled) (hled : t.portd.getLsbD 4 = s.portd.getLsbD 4) : Blinks t := by
  refine ⟨?_, ?_⟩
  · rw [hcount, hsampled, h.count]
  · rw [hled, hsampled, h.led1]

theorem blinks_flash {s : Firmware} (h : Blinks s) : Blinks (FirmwareLeds.flash s) := by
  rw [FirmwareLeds.flash]
  split_ifs
  · refine h.congr rfl rfl ?_
    rw [BitVec.getLsbD_xor]
    simp
  · exact h.congr rfl rfl rfl
  · exact h

theorem blinks_step (sg : CharSign) (a : Action) (s : Firmware) (h : Blinks s) :
    (FirmwareLeds.step sg a s).Satisfies Blinks (fun _ => Blinks) := by
  cases a with
  | connect =>
    refine .running (h.congr rfl rfl ?_)
    simp
  | disconnect =>
    refine .running (h.congr rfl rfl ?_)
    simp
  | iteration pinc received =>
    have hread : Blinks (readByte received (grabSample pinc s)) :=
      (blinks_grabSample h pinc).congr rfl rfl rfl
    rw [FirmwareLeds.step, handleByte]
    split_ifs
    · exact .stopped hread
    · exact .running (blinks_flash (hread.congr rfl rfl rfl))
    · exact .running (blinks_flash hread)
    · exact .running (blinks_flash hread)

/-! ### Results -/

/-- Whenever the events are handled, the firmware is at the head of its loop in the state that
it reaches by whole iterations and events between them, namely those that have taken effect. It
jumps to the bootloader if and when these do. -/
theorem firmware_linearizes (sg : CharSign) (env : Surroundings) (moves : List Move) :
    (run sg env moves).Satisfies
      (fun m => m.position = .sample →
        FirmwareLeds.main sg (taken sg env moves Machine.init) = .running m.firmware)
      (fun why m =>
        FirmwareLeds.main sg (taken sg env moves Machine.init) = .stopped why m.firmware) := by
  have hrun : Matches sg env _ (run sg env moves) := follows_run follows_init moves
  have hself : ∀ o : Outcome Jump Firmware,
      o.Satisfies (fun s => o = .running s) (fun why s => o = .stopped why s) := by
    intro o
    cases o with
    | running s => exact .running rfl
    | stopped why s => exact .stopped rfl
  exact hrun.satisfies (hself _)

/-- LED1 tells how many samples were taken, in units of 65536, up to an even number of units. No
event and no identification changes that, whenever it comes. -/
theorem led1_counts_samples (sg : CharSign) (env : Surroundings) (moves : List Move) :
    (run sg env moves).Satisfies
      (fun m => m.position = .sample → (m.firmware.portd.getLsbD 4 = true ↔
        Odd ((m.firmware.sampled.length + 65535) / 65536)))
      (fun _ m => m.firmware.portd.getLsbD 4 = true ↔
        Odd ((m.firmware.sampled.length + 65535) / 65536)) := by
  have hblinks : (FirmwareLeds.main sg (taken sg env moves Machine.init)).Satisfies Blinks
      (fun _ => Blinks) := Outcome.Satisfies.fold (fun a _ => blinks_step sg a) blinks_reset
  have hrun : Matches sg env _ (run sg env moves) := follows_run follows_init moves
  have hhead := hrun.satisfies hblinks
  generalize run sg env moves = o at hhead ⊢
  cases hhead with
  | running hs => exact .running fun hposition => (hs hposition).odd_iff
  | stopped hs => exact .stopped hs.odd_iff

/-- If neither identification nor the bootloader is asked for, then LED2 shows at all times
whether the most recent event was a Connect, where the events that are handled between the two
accesses to `PORTD` for LED1 do not count: they leave no trace. This can happen in every 65536th
iteration only. -/
theorem led2_interrupted (sg : CharSign) {env : Surroundings}
    (hquiet : ∀ n, env.received n ≠ some 0x1e#8 ∧ env.received n ≠ some 0x3f#8)
    (moves : List Move) :
    ∃ m, run sg env moves = .running m ∧
      (m.position.inWindow = false → (led2 m.firmware = true ↔
        (history (taken sg env moves Machine.init)).connected = true)) ∧
      (m.position.inWindow = true → m.passes % 65536 = 0) := by
  have hnot : ∀ b, (∀ n, env.received n ≠ some b) →
      ∀ pinc, .iteration pinc (some b) ∉ taken sg env moves Machine.init := by
    intro b hb pinc hmem
    obtain ⟨n, hn⟩ := received_of_mem_taken hmem
    exact hb n hn
  obtain ⟨s, hmain, hshows⟩ := shows_fold sg (hnot _ fun n => (hquiet n).1) shows_init
  obtain ⟨c, hhistory⟩ := history_quiet (hnot _ fun n => (hquiet n).2) false
  rw [History.init, hhistory] at hshows
  have hoff : s.ident = 0#8 := hshows.ident
  have hled : led2 s = c := by
    rw [led2, hshows.led2]
    simp [History.flashes]
  have hconnected : (history (taken sg env moves Machine.init)).connected = c :=
    congrArg History.connected hhistory
  have hrun : Matches sg env _ (run sg env moves) := follows_run follows_init moves
  have hcounted : (run sg env moves).Satisfies Counted (fun _ _ => True) :=
    .fold (fun move _ m h => counted_step h move) (s := Machine.init) rfl
  rw [hmain] at hrun
  cases hout : run sg env moves with
  | stopped why m =>
    rw [hout] at hrun
    cases hrun with
    | stopped hstop => cases hstop
  | running m =>
    rw [hout] at hcounted hrun
    cases hcounted with
    | running hcount =>
      cases hrun with
      | running hm =>
        obtain ⟨s', hs', hfollows⟩ := hm
        obtain rfl := Outcome.running.inj hs'
        refine ⟨m, rfl, fun hwindow => ?_, hfollows.passes_of_inWindow hoff hcount⟩
        rw [hfollows.led2_eq hoff hwindow, hled, hconnected]

def silent : Surroundings := ⟨fun _ => 0#8, fun _ => none⟩

def lostConnect : List Move := [.statement, .statement, .interrupt .connect, .statement]

/-- The lost Connect: LED2 is off afterwards. -/
theorem led2_interrupted_lostConnect :
    (∃ m, run .unsigned silent lostConnect = .running m ∧ led2 m.firmware = false) ∧
      ∃ m, run .unsigned silent lostConnect = .running m ∧
        (m.position.inWindow = false → (led2 m.firmware = true ↔
          (history (taken .unsigned silent lostConnect Machine.init)).connected = true)) ∧
        (m.position.inWindow = true → m.passes % 65536 = 0) :=
  ⟨⟨_, rfl, rfl⟩, led2_interrupted .unsigned (fun _ => by simp [silent]) lostConnect⟩

end K7nvhRng.FirmwareInterrupts
