import K7nvhRng.AmlsArrays
import K7nvhRng.StoppableRuns
import Mathlib.Algebra.Group.Nat.Even

/-!
# The LEDs of the firmware

The main loop of `firmware/RNG/RNG.c` with the two handlers of USB events. LED2, bit 5 of
`PORTD`, is set and cleared by the handlers and toggled by the flasher that identifies a
device; nothing sets it back when the flasher is switched off. What it shows is computed
from the history of events and received bytes.
-/

namespace K7nvhRng.FirmwareLeds
open AmlsArrays StoppableRuns

/-- The globals of the firmware and the port of the LEDs. `sampled` holds the samples that were
handed to `fputc`, whether or not the USB line took them. -/
structure Firmware where
  byteIn : Byte
  ident : Byte
  identCount : BitVec 16
  sampleCount : BitVec 16
  portd : Byte
  sampled : List Byte

def reset : Firmware := ⟨0#8, 0#8, 0#16, 0#16, 0#8, []⟩

/-- An iteration of the loop, with the value of `PINC` and the byte received if there is one,
or a USB event handled between two iterations. -/
inductive Action where
  | iteration (pinc : Byte) (received : Option Byte)
  | connect
  | disconnect
  deriving DecidableEq

/-- The loop is left for the bootloader. -/
inductive Jump where
  | bootloader

/-- What `CDC_Device_ReceiveByte` returns. -/
def receiveByte (received : Option Byte) : ℤ := received.elim (-1) fun b => b.toNat

/-- The character for the level of the entropy pin. -/
def sample (pinc : Byte) : Byte := ((pinc &&& 0b00000100#8) >>> 2) + 0x30#8

/-- Hand a sample to `fputc`, whose result is ignored, and blink LED1. -/
def grabSample (pinc : Byte) (s : Firmware) : Firmware :=
  { s with
    sampled := s.sampled ++ [sample pinc]
    portd := if s.sampleCount = 0#16 then s.portd ^^^ 0b00010000#8 else s.portd
    sampleCount := s.sampleCount + 1#16 }

def readByte (received : Option Byte) (s : Firmware) : Firmware :=
  { s with byteIn := toChar (receiveByte received) }

def toggleIdent (s : Firmware) : Firmware :=
  { s with ident := if s.ident ≠ 0#8 then 0#8 else 1#8 }

/-- Flash LED2 while `ident` is set. -/
def flash (s : Firmware) : Firmware :=
  if s.ident ≠ 0#8 then
    { s with
      portd := if s.identCount = 0#16 then s.portd ^^^ 0b00100000#8 else s.portd
      identCount := s.identCount + 1#16 }
  else s

/-- What follows once `BYTE_IN` is read. Its type is plain `char`, which the build flags of
LUFA make unsigned. -/
def handleByte (sg : CharSign) (s : Firmware) : Outcome Jump Firmware :=
  if sg.promote s.byteIn ≥ 0 then
    if sg.promote s.byteIn = 30 then .stopped .bootloader s
    else if sg.promote s.byteIn = 0x3f then .running (flash (toggleIdent s))
    else .running (flash s)
  else .running (flash s)

def step (sg : CharSign) (a : Action) (s : Firmware) : Outcome Jump Firmware :=
  match a with
  | .iteration pinc received => handleByte sg (readByte received (grabSample pinc s))
  | .connect => .running { s with portd := s.portd ||| 0b00100000#8 }
  | .disconnect => .running { s with portd := s.portd &&& 0b11011111#8 }

def main (sg : CharSign) (actions : List Action) : Outcome Jump Firmware :=
  Outcome.fold (step sg) actions reset

/-! ### The history -/

/-- What an observer of the USB line knows: whether the most recent event was a Connect,
whether identification is on, the number of iterations with identification on since the
reset, and this number at the most recent event. -/
structure History where
  connected : Bool
  identOn : Bool
  lit : ℕ
  litAtEvent : ℕ

def History.init : History := ⟨false, false, 0, 0⟩

/-- A question mark switches identification on or off. -/
def History.observe (h : History) : Action → History
  | .iteration _ received =>
    let identOn := if received = some 0x3f#8 then !h.identOn else h.identOn
    ⟨h.connected, identOn, if identOn then h.lit + 1 else h.lit, h.litAtEvent⟩
  | .connect => ⟨true, h.identOn, h.lit, h.lit⟩
  | .disconnect => ⟨false, h.identOn, h.lit, h.lit⟩

def history (actions : List Action) : History := actions.foldl History.observe History.init

/-- How many multiples of 65536 there are among the numbers of the iterations with
identification on since the most recent event. At each of them the flasher toggles LED2. -/
def History.flashes (h : History) : ℕ := (h.lit + 65535) / 65536 - (h.litAtEvent + 65535) / 65536

structure Shows (h : History) (s : Firmware) : Prop where
  ident : s.ident = if h.identOn then 1#8 else 0#8
  identCount : s.identCount = BitVec.ofNat 16 h.lit
  lit : h.litAtEvent ≤ h.lit
  led2 : s.portd.getLsbD 5 = (h.connected ^^ decide (h.flashes % 2 = 1))

theorem shows_init : Shows History.init reset := ⟨rfl, rfl, Nat.le_refl 0, rfl⟩

private theorem shows_grabSample {h : History} {s : Firmware} (hs : Shows h s) (pinc : Byte) :
    Shows h (grabSample pinc s) := by
  refine ⟨hs.ident, hs.identCount, hs.lit, ?_⟩
  rw [← hs.led2]
  simp only [grabSample]
  split_ifs
  · rw [BitVec.getLsbD_xor]
    simp
  · rfl

private theorem shows_readByte {h : History} {s : Firmware} (hs : Shows h s)
    (received : Option Byte) :
    Shows h (readByte received s) :=
  ⟨hs.ident, hs.identCount, hs.lit, hs.led2⟩

private theorem shows_toggleIdent {c on : Bool} {l e : ℕ} {s : Firmware}
    (hs : Shows ⟨c, on, l, e⟩ s) :
    Shows ⟨c, !on, l, e⟩ (toggleIdent s) := by
  refine ⟨?_, hs.identCount, hs.lit, hs.led2⟩
  simp only [toggleIdent, hs.ident]
  cases on <;> rfl

theorem ofNat_eq_zero_iff (n : ℕ) : BitVec.ofNat 16 n = 0#16 ↔ n % 65536 = 0 := by
  rw [← BitVec.toNat_inj, BitVec.toNat_ofNat]
  rfl

private theorem flashes_succ (c on : Bool) {l e : ℕ} (hle : e ≤ l) :
    History.flashes ⟨c, on, l + 1, e⟩ =
      if l % 65536 = 0 then History.flashes ⟨c, on, l, e⟩ + 1
      else History.flashes ⟨c, on, l, e⟩ := by
  simp only [History.flashes]
  split_ifs with hzero
  · omega
  · omega

private theorem shows_flash_on {c : Bool} {l e : ℕ} {s : Firmware} (hs : Shows ⟨c, true, l, e⟩ s) :
    Shows ⟨c, true, l + 1, e⟩ (flash s) := by
  have hident : s.ident = 1#8 := hs.ident
  have hcount : s.identCount = BitVec.ofNat 16 l := hs.identCount
  have hled : s.portd.getLsbD 5 = (c ^^ decide (History.flashes ⟨c, true, l, e⟩ % 2 = 1)) := hs.led2
  have hle : e ≤ l := hs.lit
  rw [flash, if_pos (by rw [hident]; decide)]
  refine ⟨hident, ?_, Nat.le_succ_of_le hle, ?_⟩
  · simp only [hcount, BitVec.ofNat_add]
  · rw [flashes_succ c true hle]
    simp only [hcount, ofNat_eq_zero_iff]
    split_ifs
    · rw [BitVec.getLsbD_xor, hled, Nat.add_mod]
      rcases Nat.mod_two_eq_zero_or_one (History.flashes ⟨c, true, l, e⟩) with hpar | hpar
      · simp [hpar]
      · simp [hpar]
    · exact hled

theorem shows_flash {c on : Bool} {l e : ℕ} {s : Firmware} (hs : Shows ⟨c, on, l, e⟩ s) :
    Shows ⟨c, on, if on then l + 1 else l, e⟩ (flash s) := by
  cases on with
  | true => exact shows_flash_on hs
  | false =>
    have hident : s.ident = 0#8 := hs.ident
    rw [flash, if_neg (not_not.mpr hident)]
    exact hs

/-- Whatever the signedness of `char`, only a question mark switches identification. -/
theorem handleByte_readByte (sg : CharSign) {received : Option Byte} (s : Firmware)
    (hjump : received ≠ some 0x1e#8) :
    handleByte sg (readByte received s) =
      .running (flash (if received = some 0x3f#8 then toggleIdent (readByte received s)
        else readByte received s)) := by
  cases received with
  | none => cases sg <;> rfl
  | some b =>
    have hbytes : ∀ b : Byte, (sg.promote b = 30 ↔ b = 0x1e#8) ∧
        (sg.promote b ≥ 0 ∧ sg.promote b = 0x3f ↔ b = 0x3f#8) := by
      cases sg <;> decide
    have hin : (readByte (some b) s).byteIn = b := toChar_toNat b
    have hne : ¬sg.promote b = 30 := by
      rw [(hbytes b).1]
      simpa using hjump
    rw [handleByte, hin, if_neg hne]
    simp only [Option.some.injEq, ← (hbytes b).2]
    by_cases hpos : sg.promote b ≥ 0
    · by_cases hask : sg.promote b = 0x3f
      · simp [hask]
      · simp [hpos, hask]
    · simp [hpos]

theorem shows_step (sg : CharSign) {h : History} {s : Firmware} (hs : Shows h s) {a : Action}
    (hjump : ∀ pinc, a ≠ .iteration pinc (some 0x1e#8)) :
    ∃ s', step sg a s = .running s' ∧ Shows (h.observe a) s' := by
  obtain ⟨c, on, l, e⟩ := h
  cases a with
  | connect =>
    refine ⟨_, rfl, hs.ident, hs.identCount, Nat.le_refl l, ?_⟩
    simp [History.observe, History.flashes]
  | disconnect =>
    refine ⟨_, rfl, hs.ident, hs.identCount, Nat.le_refl l, ?_⟩
    simp [History.observe, History.flashes]
  | iteration pinc received =>
    have hreceived : received ≠ some 0x1e#8 := fun h => hjump pinc (by rw [h])
    refine ⟨_, handleByte_readByte sg (grabSample pinc s) hreceived, ?_⟩
    have hread := shows_readByte (shows_grabSample hs pinc) received
    by_cases hask : received = some 0x3f#8
    · simp only [History.observe, if_pos hask]
      exact shows_flash (shows_toggleIdent hread)
    · simp only [History.observe, if_neg hask]
      exact shows_flash hread

/-- Every run that is not left for the bootloader. -/
theorem shows_fold (sg : CharSign) {actions : List Action}
    (hjump : ∀ pinc, .iteration pinc (some 0x1e#8) ∉ actions) {h : History} {s : Firmware}
    (hs : Shows h s) :
    ∃ s', Outcome.fold (step sg) actions s = .running s' ∧
      Shows (actions.foldl History.observe h) s' := by
  induction actions generalizing h s with
  | nil => exact ⟨s, rfl, hs⟩
  | cons a actions ih =>
    obtain ⟨t, hstep, ht⟩ := shows_step sg hs (a := a) fun pinc he => hjump pinc (by simp [he])
    obtain ⟨s', hfold, hs'⟩ := ih (fun pinc hmem => hjump pinc (List.mem_cons_of_mem _ hmem)) ht
    exact ⟨s', by rw [Outcome.fold_cons, hstep, Outcome.andThen_running, hfold], hs'⟩

/-- In every reachable state LED2 shows whether the most recent event was a Connect exactly
when the flasher has toggled it an even number of times since this event. -/
theorem led2_truthful_iff (sg : CharSign) (actions : List Action)
    (hjump : ∀ pinc, .iteration pinc (some 0x1e#8) ∉ actions) :
    ∃ s, main sg actions = .running s ∧
      ((s.portd.getLsbD 5 = true ↔ (history actions).connected = true) ↔
        Even (history actions).flashes) := by
  obtain ⟨s, hrun, hs⟩ := shows_fold sg hjump shows_init
  refine ⟨s, hrun, ?_⟩
  have hled : s.portd.getLsbD 5 =
      ((history actions).connected ^^ decide ((history actions).flashes % 2 = 1)) := hs.led2
  rw [hled, Nat.even_iff]
  rcases Nat.mod_two_eq_zero_or_one (history actions).flashes with hpar | hpar
  · simp [hpar]
  · cases (history actions).connected <;> simp [hpar]

/-- A device that is connected and never asked. -/
theorem led2_truthful_iff_connected :
    ∃ s, main .unsigned [.connect, .iteration 0#8 none] = .running s ∧
      ((s.portd.getLsbD 5 = true ↔ (history [.connect, .iteration 0#8 none]).connected = true) ↔
        Even (history [.connect, .iteration 0#8 none]).flashes) :=
  led2_truthful_iff .unsigned [.connect, .iteration 0#8 none] (by simp)

/-- Identification switched on and off again leaves LED2 off on a connected device. -/
theorem led2_off_after_ident :
    ∃ s, main .unsigned [.connect, .iteration 0#8 (some 0x3f#8), .iteration 0#8 (some 0x3f#8)] =
        .running s ∧ s.ident = 0#8 ∧
      ¬(s.portd.getLsbD 5 = true ↔ (history [.connect, .iteration 0#8 (some 0x3f#8),
        .iteration 0#8 (some 0x3f#8)]).connected = true) :=
  ⟨_, rfl, rfl, by decide⟩

end K7nvhRng.FirmwareLeds
