import K7nvhRng.DaemonRefinement
import K7nvhRng.FirmwareLeds

/-!
# From the pins of the devices to the output

Several devices run the firmware while the daemon polls them. Everything is interleaved: a
device takes a sample, handles a byte or a USB event, the daemon looks at a device or prints
its statistics. `CDC_Device_SendByte` of LUFA drops a sample when the device is not configured,
when the host has set no baud rate and when the endpoint does not get ready in time. What an
endpoint has taken is delivered in order and as late as the line likes. Each sample that the
daemon has taken is then the level of a pin, no accepted one is lost or taken twice, and no
character is ever refused.
-/

namespace K7nvhRng.SamplePath
open AmlsArrays AmlsExactness ListBlocks StoppableRuns DaemonLoop ChunkConversion WhiteningBuffer
open ChunkLedger DaemonRefinement FirmwareLeds

variable {devices : ℕ}

/-! ### The devices -/

/-- What `CDC_Device_SendByte` finds out about the USB line. -/
structure Line where
  /-- `USB_DeviceState` is `DEVICE_STATE_Configured` -/
  configured : Bool
  baudRateBPS : BitVec 32
  /-- `Endpoint_IsReadWriteAllowed()` -/
  readWriteAllowed : Bool
  /-- what `Endpoint_WaitUntilReady()` returns if it is called -/
  waitUntilReady : Byte
  deriving DecidableEq

/-- The error code that is returned and the bytes that the endpoint has been given. -/
def sendByte (line : Line) (data : Byte) (endpoint : List Byte) : Byte × List Byte :=
  -- ENDPOINT_RWSTREAM_DeviceDisconnected
  if line.configured = false ∨ line.baudRateBPS = 0#32 then (2#8, endpoint)
  else if line.readWriteAllowed = false ∧ line.waitUntilReady ≠ 0#8 then
    (line.waitUntilReady, endpoint)
  else (0#8, endpoint ++ [data])

/-- A device: its firmware, and the bytes that its endpoint has taken. -/
structure Device where
  firmware : Firmware
  endpoint : List Byte

def Device.reset : Device := ⟨FirmwareLeds.reset, []⟩

/-- What the sample of an iteration leaves in the endpoint. -/
def handOver (line : Line) : Action → List Byte → List Byte
  | .iteration pinc _, endpoint => (sendByte line (sample pinc) endpoint).2
  | .connect, endpoint | .disconnect, endpoint => endpoint

/-- An action of the firmware, with the line as it is at that moment. -/
def Device.step (sg : CharSign) (e : Line × Action) (d : Device) : Outcome Jump Device :=
  (FirmwareLeds.step sg e.2 d.firmware).map fun s => ⟨s, handOver e.1 e.2 d.endpoint⟩

def Device.main (sg : CharSign) (es : List (Line × Action)) : Outcome Jump Device :=
  Outcome.fold (Device.step sg) es Device.reset

/-! ### The devices and the daemon -/

/-- The devices, how many bytes of each the daemon has read, and the daemon. -/
structure World (devices : ℕ) where
  device : Fin devices → Outcome Jump Device
  taken : Fin devices → ℕ
  daemon : Run devices

def World.init (devices : ℕ) : World devices where
  device := fun _ => .running Device.reset
  taken := fun _ => 0
  daemon := .running (State.init devices)

inductive Happening (devices : ℕ) where
  | device (i : Fin devices) (line : Line) (a : Action)
  | tick (rndcount : Except SysError ℤ)
  /-- the daemon looks at a device, where up to `arrived` bytes have reached the host -/
  | poll (i : Fin devices) (arrived : ℕ)

def World.waiting (w : World devices) (i : Fin devices) : List Byte :=
  (w.device i).state.endpoint.drop (w.taken i)

def World.meets (w : World devices) (i : Fin devices) (arrived : ℕ) : Poll where
  numBytes := min arrived (w.waiting i).length
  read := readOf ((w.waiting i).take 128)

def World.poll (host : Host) (i : Fin devices) (arrived : ℕ) (w : World devices) : World devices :=
  match w.daemon with
  | .stopped _ _ => w
  | .running s => { w with
      taken := if (w.meets i arrived).numBytes ≥ 128
        then Function.update w.taken i (w.taken i + 128) else w.taken
      daemon := readDevice host i (w.meets i arrived) s }

def happen (sg : CharSign) (host : Host) (w : World devices) : Happening devices → World devices
  | .device i line a => { w with
      device := Function.update w.device i ((w.device i).andThen (Device.step sg (line, a))) }
  | .tick rndcount => { w with daemon := w.daemon.andThen (tick host rndcount) }
  | .poll i arrived => w.poll host i arrived

def run (sg : CharSign) (host : Host) (happenings : List (Happening devices)) : World devices :=
  happenings.foldl (happen sg host) (World.init devices)

/-! ### What an endpoint takes -/

/-- The line lets `CDC_Device_SendByte` write. -/
def Line.Accepts (line : Line) : Prop :=
  line.configured = true ∧ line.baudRateBPS ≠ 0#32 ∧
    (line.readWriteAllowed = true ∨ line.waitUntilReady = 0#8)

instance (line : Line) : Decidable line.Accepts := inferInstanceAs (Decidable (_ ∧ _))

/-- The iterations of the firmware, up to the one in which it receives Ctrl-^ and jumps into the
bootloader: the line, and the level of the entropy pin. -/
def iterations : List (Line × Action) → List (Line × Bool)
  | [] => []
  | (line, .iteration pinc received) :: es =>
    (line, pinc.getLsbD 2) :: if received = some 0x1e#8 then [] else iterations es
  | (_, .connect) :: es | (_, .disconnect) :: es => iterations es

/-- The levels of the entropy pin in the iterations whose sample is accepted. -/
def levels (es : List (Line × Action)) : List Bool :=
  ((iterations es).filter fun it => it.1.Accepts).map Prod.snd

def actionsOf (i : Fin devices) (happenings : List (Happening devices)) : List (Line × Action) :=
  happenings.filterMap fun
    | .device j line a => if j = i then some (line, a) else none
    | _ => none

private theorem sample_eq (pinc : Byte) : sample pinc = asciiChar (pinc.getLsbD 2) := by
  revert pinc
  decide

private theorem sendByte_eq (line : Line) (data : Byte) (endpoint : List Byte) :
    (sendByte line data endpoint).2 = if line.Accepts then endpoint ++ [data] else endpoint := by
  obtain ⟨configured, baud, allowed, code⟩ := line
  rw [sendByte]
  cases configured <;> cases allowed <;> by_cases hbaud : baud = 0#32 <;>
    by_cases hcode : code = 0#8 <;> simp [Line.Accepts, hbaud, hcode]

private theorem handleByte_jump (sg : CharSign) (s : Firmware) :
    handleByte sg (readByte (some 0x1e#8) s) = .stopped .bootloader (readByte (some 0x1e#8) s) := by
  cases sg <;> rfl

private theorem levels_iteration (line : Line) (pinc : Byte) (received : Option Byte)
    (es : List (Line × Action)) :
    levels ((line, .iteration pinc received) :: es) =
      (if line.Accepts then [pinc.getLsbD 2] else []) ++
        if received = some 0x1e#8 then [] else levels es := by
  simp only [levels, iterations, List.filter_cons]
  split_ifs <;> simp_all

/-- The endpoint of a device takes the levels of its pin that the line accepts. -/
theorem endpoint_fold (sg : CharSign) (es : List (Line × Action)) (d : Device) :
    (Outcome.fold (Device.step sg) es d).state.endpoint =
      d.endpoint ++ (levels es).map asciiChar := by
  induction es generalizing d with
  | nil => simp [levels, iterations]
  | cons e es ih =>
    rw [Outcome.fold_cons]
    obtain ⟨line, a⟩ := e
    cases a with
    | connect => exact ih _
    | disconnect => exact ih _
    | iteration pinc received =>
      have hsend : (sendByte line (sample pinc) d.endpoint).2 =
          d.endpoint ++ (if line.Accepts then [pinc.getLsbD 2] else []).map asciiChar := by
        rw [sendByte_eq, sample_eq]
        split <;> simp
      rw [levels_iteration, Device.step, FirmwareLeds.step, List.map_append, ← List.append_assoc,
        ← hsend]
      by_cases hjump : received = some 0x1e#8
      · subst hjump
        rw [handleByte_jump]
        simp [Outcome.map, Outcome.state, handOver]
      · rw [handleByte_readByte sg _ hjump, if_neg hjump]
        exact ih _

private theorem iterations_append_isPrefix (es : List (Line × Action)) (e : Line × Action) :
    iterations es <+: iterations (es ++ [e]) := by
  induction es with
  | nil => exact List.nil_prefix
  | cons b es ih =>
    obtain ⟨line, a⟩ := b
    cases a with
    | connect => exact ih
    | disconnect => exact ih
    | iteration pinc received =>
      rw [List.cons_append, iterations, iterations]
      split
      · exact List.prefix_rfl
      · exact (List.prefix_cons_inj _).mpr ih

private theorem levels_append_isPrefix (es : List (Line × Action)) (e : Line × Action) :
    levels es <+: levels (es ++ [e]) :=
  ((iterations_append_isPrefix es e).filter _).map _

/-! ### The invariant -/

def samplesOf (i : Fin devices) (cs : ChunkLedger.History devices) : List Bool :=
  (cs.filter fun c => c.1 = i).flatMap Prod.snd

private theorem samplesOf_append_self (i : Fin devices) (cs : ChunkLedger.History devices)
    (bits : List Bool) : samplesOf i (cs ++ [(i, bits)]) = samplesOf i cs ++ bits := by
  simp [samplesOf]

private theorem samplesOf_append_of_ne {i j : Fin devices} (hne : j ≠ i)
    (cs : ChunkLedger.History devices) (bits : List Bool) :
    samplesOf i (cs ++ [(j, bits)]) = samplesOf i cs := by
  simp [samplesOf, hne]

/-- The endpoints have taken the accepted levels of the pins, and the daemon has taken those that
it has read. -/
structure Carries (sg : CharSign) (host : Host) (done : List (Happening devices)) (w : World devices)
    (s : State devices) (l : Ledger devices) : Prop where
  device : ∀ i, w.device i = Device.main sg (actionsOf i done)
  daemon : w.daemon = .running s
  tracks : Tracks host s l
  taken : ∀ i, w.taken i ≤ (levels (actionsOf i done)).length
  samples : ∀ i, samplesOf i l.chunks = (levels (actionsOf i done)).take (w.taken i)

section Invariant
variable {sg : CharSign} {host : Host} {done : List (Happening devices)} {w : World devices}
  {s : State devices} {l : Ledger devices}

theorem carries_init (sg : CharSign) (host : Host) :
    Carries sg host [] (World.init devices) (State.init devices) (Ledger.empty devices) where
  device := fun _ => rfl
  daemon := rfl
  tracks := tracks_init host
  taken := fun _ => Nat.zero_le _
  samples := fun _ => rfl

theorem Carries.waiting (h : Carries sg host done w s l) (i : Fin devices) :
    w.waiting i = ((levels (actionsOf i done)).drop (w.taken i)).map asciiChar := by
  have hendpoint := endpoint_fold sg (actionsOf i done) Device.reset
  rw [World.waiting, h.device i, Device.main, hendpoint, List.map_drop]
  rfl

theorem Carries.hear (h : Carries sg host done w s l) (i : Fin devices) (line : Line)
    (a : Action) :
    Carries sg host (done ++ [.device i line a]) (happen sg host w (.device i line a)) s l := by
  have hself : actionsOf i (done ++ [.device i line a]) = actionsOf i done ++ [(line, a)] := by
    simp [actionsOf]
  have hother : ∀ j ≠ i, actionsOf j (done ++ [.device i line a]) = actionsOf j done := by
    intro j hj
    simp [actionsOf, Ne.symm hj]
  have hstart : ∀ j, levels (actionsOf j done) <+:
      levels (actionsOf j (done ++ [.device i line a])) := by
    intro j
    by_cases hj : j = i
    · subst hj
      rw [hself]
      exact levels_append_isPrefix _ _
    · rw [hother j hj]
  constructor
  case device =>
    intro j
    by_cases hj : j = i
    · subst hj
      rw [hself, Device.main, Outcome.fold_append]
      refine (Function.update_self _ _ _).trans ?_
      rw [h.device j, Device.main]
      congr 1
      funext t
      exact (Outcome.fold_singleton _ (line, a) t).symm
    · rw [hother j hj, ← h.device j]
      exact Function.update_of_ne hj _ _
  case daemon => exact h.daemon
  case tracks => exact h.tracks
  case taken => exact fun j => (h.taken j).trans (hstart j).length_le
  case samples =>
    intro j
    rw [h.samples j]
    obtain ⟨more, hmore⟩ := hstart j
    rw [← hmore]
    exact (List.take_append_of_le_length (h.taken j)).symm

theorem Carries.congr {done' : List (Happening devices)} (h : Carries sg host done w s l)
    (hactions : ∀ i, actionsOf i done' = actionsOf i done) : Carries sg host done' w s l where
  device := fun i => by rw [hactions, h.device]
  daemon := h.daemon
  tracks := h.tracks
  taken := fun i => by rw [hactions]; exact h.taken i
  samples := fun i => by rw [hactions, h.samples]

theorem Carries.tick (h : Carries sg host done w s l) {rndcount : Except SysError ℤ}
    (hpool : poolError host rndcount = none) :
    ∃ s' l', Carries sg host (done ++ [.tick rndcount]) (happen sg host w (.tick rndcount)) s' l' := by
  have hsim := tick_simulates host rndcount h.tracks
  rw [record, hpool] at hsim
  cases hrun : DaemonLoop.tick host rndcount s with
  | stopped why s' =>
    rw [hrun] at hsim
    cases hsim
  | running s' =>
    rw [hrun] at hsim
    cases hsim with
    | running htracks =>
      have hdaemon : (happen sg host w (.tick rndcount)).daemon = .running s' := by
        rw [happen, h.daemon]
        exact hrun
      have hcarries : Carries sg host done (happen sg host w (.tick rndcount)) s' _ :=
        ⟨h.device, hdaemon, htracks, h.taken, h.samples⟩
      exact ⟨s', _, hcarries.congr fun i => by simp [actionsOf]⟩

theorem Carries.read (hh : Assumed host) (h : Carries sg host done w s l) {i : Fin devices}
    {arrived : ℕ} (henough : (w.meets i arrived).numBytes ≥ 128) :
    ∃ s' l', Carries sg host done (happen sg host w (.poll i arrived)) s' l' := by
  have hmeets : (w.meets i arrived).numBytes ≤ (w.waiting i).length := min_le_right _ _
  have hlen : 128 ≤ ((levels (actionsOf i done)).drop (w.taken i)).length := by
    rw [h.waiting i, List.length_map] at hmeets
    omega
  obtain ⟨bits, hbits⟩ : ∃ bits, bits = ((levels (actionsOf i done)).drop (w.taken i)).take 128 :=
    ⟨_, rfl⟩
  have hbitslen : bits.length = 128 := by rw [hbits, List.length_take_of_le hlen]
  have hread : (w.meets i arrived).read = readOf (bits.map asciiChar) := by
    rw [World.meets, h.waiting i, hbits, List.map_take]
  have hsim := acceptRead_simulates hh i (readOf (bits.map asciiChar)) h.tracks
  rw [record, samples_readOf host i hbitslen] at hsim
  obtain ⟨s', hrun, htracks⟩ : ∃ s', acceptRead host i (readOf (bits.map asciiChar)) s = .running s' ∧
      Tracks host s' { l with chunks := l.chunks ++ [(i, bits)] } := by
    generalize acceptRead host i (readOf (bits.map asciiChar)) s = o at hsim
    cases hsim with
    | running htracks => exact ⟨_, rfl, htracks⟩
  have hpoll : happen sg host w (.poll i arrived) =
      { w with taken := Function.update w.taken i (w.taken i + 128), daemon := .running s' } := by
    rw [happen, World.poll, h.daemon]
    dsimp only
    rw [if_pos henough, readDevice, if_pos henough, hread, hrun]
  rw [hpoll]
  refine ⟨s', _, h.device, rfl, htracks, fun j => ?_, fun j => ?_⟩
  · by_cases hj : j = i
    · subst hj
      rw [List.length_drop] at hlen
      simp only [Function.update_self]
      omega
    · simp only [Function.update_of_ne hj]
      exact h.taken j
  · by_cases hj : j = i
    · subst hj
      rw [samplesOf_append_self, h.samples j, hbits]
      simp only [Function.update_self]
      exact List.take_add.symm
    · rw [samplesOf_append_of_ne (Ne.symm hj), h.samples j]
      simp only [Function.update_of_ne hj]

theorem Carries.poll (hh : Assumed host) (h : Carries sg host done w s l) (i : Fin devices)
    (arrived : ℕ) :
    ∃ s' l', Carries sg host done (happen sg host w (.poll i arrived)) s' l' := by
  by_cases henough : (w.meets i arrived).numBytes ≥ 128
  · exact h.read hh henough
  · have hsame : happen sg host w (.poll i arrived) = w := by
      rw [happen, World.poll, h.daemon]
      dsimp only
      rw [if_neg henough, readDevice, if_neg henough, ← h.daemon]
    rw [hsame]
    exact ⟨s, l, h⟩

theorem Carries.happen (hh : Assumed host) (h : Carries sg host done w s l)
    (e : Happening devices) (hpool : ∀ rndcount, e = .tick rndcount → poolError host rndcount = none) :
    ∃ s' l', Carries sg host (done ++ [e]) (happen sg host w e) s' l' := by
  cases e with
  | device i line a => exact ⟨s, l, h.hear i line a⟩
  | tick rndcount => exact h.tick (hpool rndcount rfl)
  | poll i arrived =>
    obtain ⟨s', l', hcarries⟩ := h.poll hh i arrived
    exact ⟨s', l', hcarries.congr fun j => by simp [actionsOf]⟩

theorem Carries.foldl (hh : Assumed host) (h : Carries sg host done w s l)
    (happenings : List (Happening devices))
    (hpool : ∀ rndcount, .tick rndcount ∈ happenings → poolError host rndcount = none) :
    ∃ s' l', Carries sg host (done ++ happenings)
      (happenings.foldl (SamplePath.happen sg host) w) s' l' := by
  induction happenings generalizing done w s l with
  | nil => exact ⟨s, l, by rwa [List.append_nil]⟩
  | cons e happenings ih =>
    obtain ⟨s₁, l₁, h₁⟩ := h.happen hh e fun rndcount he => hpool rndcount (by simp [he])
    obtain ⟨s', l', h'⟩ := ih h₁ fun rndcount he => hpool rndcount (List.mem_cons_of_mem _ he)
    exact ⟨s', l', by simpa using h'⟩

end Invariant

def unplugged : Line := ⟨false, 0#32, false, 2#8⟩

def ready : Line := ⟨true, 9600#32, true, 0#8⟩

/-- The endpoint is full and does not get ready in time. -/
def timedOut : Line := ⟨true, 9600#32, false, 4#8⟩

/-- Two devices, of which the first one is read. Its first sample and a later one are dropped. -/
def chunkOfOnes : List (Happening 2) :=
  .device 0 unplugged (.iteration 0b00000000#8 none) ::
    List.replicate 100 (.device 0 ready (.iteration 0b00000100#8 none)) ++
    .device 0 timedOut (.iteration 0b00000000#8 none) ::
    List.replicate 28 (.device 0 ready (.iteration 0b00000100#8 none)) ++
    [.device 1 unplugged .connect, .tick (.ok 0),
      .device 1 ready (.iteration 0b00000000#8 (some 0x3f#8)), .poll 1 1, .poll 0 130]

end K7nvhRng.SamplePath
