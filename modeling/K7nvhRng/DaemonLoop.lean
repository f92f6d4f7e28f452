import K7nvhRng.AmlsArrays
import K7nvhRng.StoppableRuns
import Mathlib.Algebra.Ring.Int.Defs
import Mathlib.Data.List.FinRange

/-!
# The main loop of the daemon

The state and the loop of `main` in `software/k7nvh_rng.c`, from the check of
`test_ent` to the end of one pass over the devices. Everything the process receives
from outside is an input: whether the alarm has set `test_ent`, what `FIONREAD` and
`read` give for each device, and whether a byte can be delivered. The floating point
averages of the statistics tick only appear in log lines and are not modelled; the
counters they are computed from are kept in a report for each tick.
-/

namespace K7nvhRng.DaemonLoop
open CheckedArrays AmlsArrays StoppableRuns

/-- Where a build sends the whitened bytes: `file_output`, or one of the kernel devices. -/
inductive Sink where
  | fileOutput | appleRandom | linuxRandom
  deriving DecidableEq, Repr

/-- An `errno` and its `strerror` text. -/
structure SysError where
  errno : ℤ
  text : String

/-- What the build and the operating system fix for a run. -/
structure Host where
  charSign : CharSign
  sink : Sink
  /-- The contents of the blocks that `malloc` hands out. -/
  heap : ℕ → Block
  /-- The number of nested calls of `amls` the stack has room for. -/
  frames : ℕ
  /-- The names of the devices, `argv[i+1]`. -/
  deviceName : ℕ → String
  /-- The error met by the `n`-th delivery of a byte, if it fails. -/
  deliveryError : ℕ → Option SysError

/-- Why a run ends: a clean exit with its status and last log message, or a fault. -/
inductive Stop where
  | exit (status : ℤ) (message : String)
  | fault (f : Fault)

/-- The counters a statistics tick logs. -/
@[ext]
structure Report (devices : ℕ) where
  numZeros : ℕ
  numOnes : ℕ
  entCount : ℕ
  deviceCounters : Fin devices → Bool → ℕ

/-- The globals and locals of `main` that its loop uses. The last four fields record what
has happened: the blocks given to `amls`, the bytes delivered with the entropy credited for
them, and the reports of the ticks. -/
structure State (devices : ℕ) where
  buf : Vector Byte 512
  bufPos : ℕ
  bufWhitened : Vector Byte 1024
  bufWhitenedPos : ℕ
  bufWhitenedBit : ℕ
  numOnes : ℕ
  numZeros : ℕ
  entCount : ℕ
  /-- `deviceCounters[i][0]` and `deviceCounters[i][1]`. -/
  deviceCounters : Fin devices → Bool → ℕ
  mallocs : ℕ
  processed : List (Vector Byte 512)
  delivered : List Byte
  credited : ℕ
  reports : List (Report devices)

def State.init (devices : ℕ) : State devices where
  buf := Vector.replicate 512 0#8
  bufPos := 0
  bufWhitened := Vector.replicate 1024 0#8
  bufWhitenedPos := 0
  bufWhitenedBit := 0
  numOnes := 0
  numZeros := 0
  entCount := 0
  deviceCounters := fun _ _ => 0
  mallocs := 0
  processed := []
  delivered := []
  credited := 0
  reports := []

variable {devices : ℕ}

abbrev Run (devices : ℕ) := Outcome Stop (State devices)

/-- An access that leaves its array, or a stack overflow, is a fault of the process. -/
def checked {α : Type} (x : Except Fault α) (s : State devices) (f : α → Run devices) :
    Run devices :=
  Outcome.check (x.mapError Stop.fault) s f

@[simp] theorem checked_ok {α : Type} (a : α) (s : State devices) (f : α → Run devices) :
    checked (.ok a) s f = f a := rfl

/-! ### Delivery of whitened bytes -/

/-- The exit of a failed delivery. -/
def Sink.failure : Sink → SysError → Stop
  | .fileOutput, e =>
    .exit (-15) s!"<ERROR> Error writing to output file. Error {e.errno}: {e.text}"
  | .appleRandom, e =>
    .exit (-21) s!"Error writing to /dev/random device. Error {e.errno}: {e.text}"
  | .linuxRandom, e =>
    .exit (-19) s!"<ERROR> Could not add entropy to the pool. Error {e.errno}: {e.text}"

/-- The entropy in bits credited with each byte: `entropy.ent_count` of `RNDADDENTROPY`. -/
def Sink.credit : Sink → ℕ
  | .linuxRandom => 8
  | .fileOutput | .appleRandom => 0

def deliver (host : Host) (value : Byte) (s : State devices) : Run devices :=
  match host.deliveryError s.delivered.length with
  | some e => .stopped (host.sink.failure e) s
  | none => .running { s with
      delivered := s.delivered ++ [value]
      credited := s.credited + host.sink.credit }

/-- One byte of the XOR mix of the two halves of `buf_whitened`. -/
def mixByte (host : Host) (l : ℕ) (s : State devices) : Run devices :=
  checked (load s.bufWhitened l) s fun a =>
  checked (load s.bufWhitened (l + 512)) s fun b =>
  deliver host (a ^^^ b) { s with entCount := s.entCount + 1 }

/-- Mix and output the full buffer, then clear it. -/
def flush (host : Host) (s : State devices) : Run devices :=
  (Outcome.fold (mixByte host) (List.range 512) s).andThen fun s =>
  .running { s with bufWhitenedPos := 0, bufWhitened := Vector.replicate 1024 0#8 }

/-! ### Packing of the `amls` bits -/

/-- Update the bit counts for the character `r`, which is 0 or 1. -/
def countBit (sg : CharSign) (r : Byte) (s : State devices) : State devices :=
  if sg.promote r = 0 then { s with numZeros := s.numZeros + 1 }
  else { s with numOnes := s.numOnes + 1 }

/-- Advance the cursor to the next bit, and to the next byte after eight of them. -/
def advance (s : State devices) : State devices :=
  if s.bufWhitenedBit + 1 > 7 then
    { s with bufWhitenedBit := 0, bufWhitenedPos := s.bufWhitenedPos + 1 }
  else { s with bufWhitenedBit := s.bufWhitenedBit + 1 }

/-- The body of the packing loop for the character `r`. -/
def packBit (host : Host) (r : Byte) (s : State devices) : Run devices :=
  let s := countBit host.charSign r s
  let shifted := BitVec.ofInt 8 (host.charSign.promote r * 2 ^ s.bufWhitenedBit)
  checked (load s.bufWhitened s.bufWhitenedPos) s fun c =>
  checked (store s.bufWhitened s.bufWhitenedPos (c ||| shifted)) s fun bufWhitened =>
  let s := advance { s with bufWhitened := bufWhitened }
  if s.bufWhitenedPos ≥ 1024 then flush host s else .running s

/-- The packing loop with `n` indices left, starting at `k`. -/
def packLoop (host : Host) (amlsResult : Block) : ℕ → ℕ → State devices → Run devices
  | 0, _, s => .running s
  | n + 1, k, s =>
    checked (load amlsResult k) s fun r =>
    if host.charSign.promote r ≠ 0 ∧ host.charSign.promote r ≠ 1 then .running s
    else (packBit host r s).andThen (packLoop host amlsResult n (k + 1))

/-- Run `amls` on the full buffer, pack its bits and start the buffer over. -/
def processBuffer (host : Host) (s : State devices) : Run devices :=
  let s := { s with processed := s.processed ++ [s.buf] }
  checked (amls host.charSign host.heap host.frames s.buf 512 s.mallocs) s fun r =>
  (packLoop host r.1 512 0 { s with mallocs := r.2 }).andThen fun s =>
  .running { s with bufPos := 0 }

/-! ### Reading the devices -/

/-- What `read` of 128 bytes gives: its return value, and what then stands in the 128 bytes
behind `&buf[buf_pos]`. All of them come from the device when the value is 128. -/
structure ReadResult where
  n : ℤ
  bytes : Vector Byte 128
  error : SysError

/-- What a pass over one device meets: `num_bytes` after the `FIONREAD` request (0 when the
request fails), and the result of `read` if it is called. -/
structure Poll where
  numBytes : ℤ
  read : ReadResult

/-- `read` into `&buf[pos]`. -/
def storeBytes (buf : Vector Byte 512) (pos : ℕ) (bytes : Vector Byte 128) :
    Except Fault (Vector Byte 512) :=
  if pos + 128 ≤ 512 then
    .ok (Vector.ofFn fun i =>
      if h : pos ≤ i.val ∧ i.val - pos < 128 then bytes[i.val - pos] else buf[i])
  else .error (.badIndex (pos + 127))

/-- The character constants `'0'` and `'1'`, of type `int`. -/
def ascii0 : ℤ := 48
def ascii1 : ℤ := 49

/-- `deviceCounters[i][b]++`. -/
def countSample (i : Fin devices) (b : Bool) (s : State devices) : State devices :=
  { s with
    deviceCounters := Function.update s.deviceCounters i
      (Function.update (s.deviceCounters i) b (s.deviceCounters i b + 1)) }

/-- The exit on a character other than `'0'` and `'1'`, given by its promotion. -/
def invalidInput (device : String) (received : ℤ) : Stop :=
  .exit (-11) (s!"<ERROR> Invalid input data from {device}. Expect '0' and '1' only. " ++
    s!"Recieved: {received}")

/-- The exit on a `read` that does not deliver 128 bytes. -/
def readFailure (device : String) (n : ℤ) (e : SysError) : Stop :=
  .exit (-9) (s!"<ERROR> Error reading from device: {device}. Recieved bytes: {n}. " ++
    s!"Error {e.errno}: {e.text}")

/-- The body of the conversion loop: count and convert character `j` of the chunk. -/
def convertChar (host : Host) (i : Fin devices) (j : ℕ) (s : State devices) : Run devices :=
  let sg := host.charSign
  checked (load s.buf (s.bufPos + j)) s fun c =>
  if sg.promote c ≠ ascii0 ∧ sg.promote c ≠ ascii1 then
    .stopped (invalidInput (host.deviceName i) (sg.promote c)) s
  else if sg.promote c = ascii0 then
    checked (store s.buf (s.bufPos + j) (toChar 0)) s fun buf =>
    .running { countSample i false s with buf := buf }
  else
    checked (store s.buf (s.bufPos + j) (toChar 1)) s fun buf =>
    .running { countSample i true s with buf := buf }

/-- A chunk that `read` was called for. -/
def acceptRead (host : Host) (i : Fin devices) (r : ReadResult) (s : State devices) :
    Run devices :=
  checked (storeBytes s.buf s.bufPos r.bytes) s fun buf =>
  let s := { s with buf := buf }
  if r.n ≠ 128 then
    .stopped (readFailure (host.deviceName i) r.n r.error) s
  else
    (Outcome.fold (convertChar host i) (List.range 128) s).andThen fun s =>
    let s := { s with bufPos := s.bufPos + 128 }
    if s.bufPos ≥ 512 then processBuffer host s else .running s

def readDevice (host : Host) (i : Fin devices) (p : Poll) (s : State devices) : Run devices :=
  if p.numBytes ≥ 128 then acceptRead host i p.read s else .running s

/-! ### Statistics and the loop itself -/

/-- The statistics tick. On a Linux build without file output it also asks the kernel for its
entropy count, and a failure of that request ends the run. -/
def tick (host : Host) (rndcount : Except SysError ℤ) (s : State devices) : Run devices :=
  let report : Report devices := ⟨s.numZeros, s.numOnes, s.entCount, s.deviceCounters⟩
  let s := { s with reports := s.reports ++ [report], deviceCounters := fun _ _ => 0 }
  let reset : Run devices := .running { s with entCount := 0, numZeros := 0, numOnes := 0 }
  match host.sink, rndcount with
  | .linuxRandom, .error e =>
    .stopped (.exit (-20) s!"Could not read the entropy count. Error {e.errno}: {e.text}") s
  | _, _ => reset

/-- What one iteration of the loop meets. -/
structure Iteration (devices : ℕ) where
  testEnt : Bool
  rndcount : Except SysError ℤ
  polls : Fin devices → Poll

/-- One iteration: the tick if it is due, then a pass over the devices. -/
def iterate (host : Host) (it : Iteration devices) (s : State devices) : Run devices :=
  (if it.testEnt then tick host it.rndcount s else .running s).andThen
    (Outcome.fold (fun i => readDevice host i (it.polls i)) (List.finRange devices))

/-- The loop, from its head back to its head once for each iteration. -/
def mainLoop (host : Host) (its : List (Iteration devices)) : Run devices :=
  Outcome.fold (iterate host) its (State.init devices)

end K7nvhRng.DaemonLoop
