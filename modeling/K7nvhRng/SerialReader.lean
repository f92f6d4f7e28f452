import K7nvhRng.DaemonStartup
import K7nvhRng.UtilityPipeline
import Mathlib.Data.List.TakeWhile

/-!
# `read_serial_port` and the daemon

The utility opens a device as the daemon does and copies its chunks to standard output, where
its error messages go as well. When it feeds `amls | ascii_to_bin | xor512`, the pipeline does
what the daemon does with the same device, also when a read fails: a message is too short to
complete a block of samples.
-/

namespace K7nvhRng.SerialReader
open CheckedArrays AmlsArrays AmlsExactness BitPacking ListBlocks StoppableRuns DaemonLoop
open ChunkConversion WhiteningBuffer ChunkLedger DaemonRefinement DeviceInput LogRecursion
open SerialSettings DaemonStartup StdinUtilities UtilityOutputs UtilityPipeline

structure ReaderHost where
  platform : Platform
  constants : Constants
  /-- `argv[0]` -/
  program : String
  /-- the other arguments -/
  args : List String
  /-- the descriptor that `open` gives -/
  descriptor : ℕ

/-- The variables of `main`, with what has been printed and what has been done to the device. -/
structure Reader where
  entFileHandle : ℤ
  tty : Termios
  stdout : List Byte
  settings : Option Termios
  dtr : Option Bool

/-- The global `entFileHandle` is zero, and `tty` is not initialised. -/
def Reader.init (tty : Termios) : Reader := ⟨0, tty, [], none, none⟩

def Reader.fwrite (bytes : List Byte) (r : Reader) : Reader :=
  { r with stdout := r.stdout ++ bytes }

theorem Reader.fwrite_fwrite (b c : List Byte) (r : Reader) :
    (r.fwrite b).fwrite c = r.fwrite (b ++ c) := by
  simp only [Reader.fwrite, List.append_assoc]

def Reader.printf (text : String) (r : Reader) : Reader := r.fwrite (bytesOf text)

abbrev Reading := Outcome LogStop Reader

def exitCleanup (value : ℤ) (r : Reader) : Reading :=
  .stopped (.exit value ([r.entFileHandle].filter (0 < ·))) r

/-! ### Opening the device -/

inductive Call where
  | openDevice | getAttributes | setAttributes | assertDtr | clearDtr
  deriving DecidableEq

def perform (host : ReaderHost) (a : Answer) : Call → Reader → Reading
  | .openDevice, r =>
    match a.error with
    | some e =>
      let name := host.args.getD 0 ""
      exitCleanup (-8) (Reader.printf
        s!"<ERROR> Could not open the tty device, {name}. Error {e.errno}: {e.text}"
        { r with entFileHandle := -1 })
    | none => .running { r with entFileHandle := host.descriptor }
  | .getAttributes, r =>
    match a.error with
    | some e => exitCleanup (-5)
        (r.printf s!"Could not get tty device attributes. Error {e.errno}: {e.text}\r\n")
    | none => .running { r with tty := a.attributes }
  | .setAttributes, r =>
    let r := { r with tty := configure host.constants r.tty }
    match a.error with
    | some e => exitCleanup (-6)
        (r.printf s!"Could not set tty device attributes. Error {e.errno}: {e.text}\r\n")
    | none => .running { r with settings := some r.tty }
  | .assertDtr, r =>
    match a.error with
    | some e => exitCleanup (-16)
        (r.printf s!"<ERROR> Could not assert DTR. Error {e.errno}: {e.text}")
    | none => .running { r with dtr := some (decide (host.platform = .apple)) }
  | .clearDtr, r =>
    match a.error with
    | some e => exitCleanup (-17)
        (r.printf s!"<ERROR> Could not clear DTR. Error {e.errno}: {e.text}")
    | none => .running { r with dtr := some (decide (host.platform = .linux)) }

def calls : List Call := [.openDevice, .getAttributes, .setAttributes, .assertDtr, .clearDtr]

def openPort (host : ReaderHost) (answers : Call → Answer) (r : Reader) : Reading :=
  Outcome.fold (fun c => perform host (answers c) c) calls r

def opened (host : ReaderHost) (answers : Call → Answer) (r : Reader) : Reader :=
  let tty := configure host.constants (answers .getAttributes).attributes
  { r with
    entFileHandle := host.descriptor
    tty := tty
    settings := some tty
    dtr := some (decide (host.platform = .linux)) }

private theorem openPort_of_succeeds (host : ReaderHost) {answers : Call → Answer}
    (hcalls : ∀ c, (answers c).error = none) (r : Reader) :
    openPort host answers r = .running (opened host answers r) := by
  simp only [openPort, calls, Outcome.fold_cons, Outcome.fold_nil, perform, hcalls,
    Outcome.andThen_running, opened]

/-! ### The loop -/

def errorText (r : ReadResult) : String :=
  if r.n < 0 then
    s!"Error reading from tty device. Error {r.error.errno}: {r.error.text}\r\n"
  else s!"Error reading from tty device. Fewer bytes than expected. Num bytes: {r.n}"

def writeByte (bytes : Vector Byte 128) (i : ℕ) (r : Reader) : Reading :=
  Outcome.check ((load bytes i).mapError LogStop.fault) r fun c =>
    .running (r.fwrite [c])

def copyChunk (res : ReadResult) (r : Reader) : Reading :=
  if res.n < 0 then .stopped (.exit 3 []) (r.printf (errorText res))
  else if res.n < 128 then .stopped (.exit 4 []) (r.printf (errorText res))
  else Outcome.fold (writeByte res.bytes) (List.range res.n.toNat) r

def pass (p : Poll) (r : Reader) : Reading :=
  if p.numBytes ≥ 128 then copyChunk p.read r else .running r

def readLoop (polls : List Poll) (r : Reader) : Reading := Outcome.fold pass polls r

def main (host : ReaderHost) (answers : Call → Answer) (polls : List Poll) (r : Reader) : Reading :=
  if host.args.length + 1 < 2 then
    .stopped (.exit 1 []) (r.printf ("Please provide the tty device as an argument. EX: " ++
      s!"{host.program} /dev/tty.usbSerial0\r\n"))
  else (openPort host answers r).andThen (readLoop polls)

/-! ### What the loop copies -/

def Fails (p : Poll) : Prop := p.numBytes ≥ 128 ∧ p.read.n < 128

instance (p : Poll) : Decidable (Fails p) := inferInstanceAs (Decidable (_ ∧ _))

def Poll.bytes (p : Poll) : List Byte := if p.numBytes ≥ 128 then p.read.bytes.toList else []

def good (polls : List Poll) : List Poll := polls.takeWhile fun p => ¬Fails p

def copied (polls : List Poll) : List Byte := (good polls).flatMap Poll.bytes

theorem not_fails_of_mem_good {polls : List Poll} {p : Poll} (hp : p ∈ good polls) : ¬Fails p := by
  simpa using List.mem_takeWhile_imp hp

theorem mem_of_mem_good {polls : List Poll} {p : Poll} (hp : p ∈ good polls) : p ∈ polls :=
  (List.takeWhile_prefix _).mem hp

theorem good_cases (polls : List Poll) :
    good polls = polls ∨ ∃ p rest, polls = good polls ++ p :: rest ∧ Fails p := by
  induction polls with
  | nil => exact .inl rfl
  | cons p ps ih =>
    by_cases hp : Fails p
    · exact .inr ⟨p, ps, by simp [good, hp], hp⟩
    · have hgood : good (p :: ps) = p :: good ps := by simp [good, hp]
      rw [hgood]
      obtain hps | ⟨q, rest, hps, hq⟩ := ih
      · exact .inl (by rw [hps])
      · exact .inr ⟨q, rest, by rw [List.cons_append, ← hps], hq⟩

theorem ne_polls {polls rest : List Poll} {p : Poll} (hsplit : polls = good polls ++ p :: rest)
    (hp : Fails p) : good polls ≠ polls := by
  intro hall
  have hmem : p ∈ good polls := by
    rw [hall, hsplit]
    simp
  exact not_fails_of_mem_good hmem hp

private theorem dvd_length_copied (polls : List Poll) : 128 ∣ (copied polls).length := by
  rw [copied]
  induction good polls with
  | nil => exact dvd_zero 128
  | cons p ps ih =>
    have hp : 128 ∣ (Poll.bytes p).length := by
      rw [Poll.bytes]
      split <;> simp
    rw [List.flatMap_cons, List.length_append]
    exact Nat.dvd_add hp ih

private theorem fold_writeByte (bytes : Vector Byte 128) {k : ℕ} (hk : k ≤ 128) (r : Reader) :
    Outcome.fold (writeByte bytes) (List.range k) r = .running (r.fwrite (bytes.toList.take k)) := by
  induction k with
  | zero => simp [Reader.fwrite]
  | succ k ih =>
    have hlt : k < bytes.toList.length := by rw [Vector.length_toList]; omega
    rw [List.range_succ, Outcome.fold_append, ih (by omega), Outcome.andThen_running,
      Outcome.fold_singleton, writeByte, load_of_getElem? (List.getElem?_eq_getElem hlt),
      List.take_succ_eq_append_getElem hlt, ← Reader.fwrite_fwrite]
    rfl

private theorem pass_of_not_fails {p : Poll} (hp : ¬Fails p) (hn : p.read.n ≤ 128) (r : Reader) :
    pass p r = .running (r.fwrite (Poll.bytes p)) := by
  rw [pass, Poll.bytes]
  split
  · rename_i hbytes
    have h128 : p.read.n = 128 := le_antisymm hn (not_lt.mp fun h => hp ⟨hbytes, h⟩)
    rw [copyChunk, h128, if_neg (by decide), if_neg (by decide)]
    have hfold := fold_writeByte p.read.bytes (Nat.le_refl 128) r
    rw [List.take_of_length_le (by simp)] at hfold
    exact hfold
  · simp [Reader.fwrite]

private theorem pass_of_fails {p : Poll} (hp : Fails p) (r : Reader) :
    pass p r =
      .stopped (.exit (if p.read.n < 0 then 3 else 4) []) (r.printf (errorText p.read)) := by
  obtain ⟨hbytes, hn⟩ := hp
  rw [pass, if_pos hbytes, copyChunk, if_pos hn]
  split <;> rfl

private theorem fold_pass_good {polls : List Poll} (hp : ∀ p ∈ polls, ¬Fails p)
    (hn : ∀ p ∈ polls, p.read.n ≤ 128) (r : Reader) :
    Outcome.fold pass polls r = .running (r.fwrite (polls.flatMap Poll.bytes)) := by
  induction polls generalizing r with
  | nil => simp [Reader.fwrite]
  | cons p ps ih =>
    obtain ⟨hp, hps⟩ := List.forall_mem_cons.mp hp
    obtain ⟨hn, hns⟩ := List.forall_mem_cons.mp hn
    rw [Outcome.fold_cons, pass_of_not_fails hp hn, Outcome.andThen_running, ih hps hns,
      Reader.fwrite_fwrite, List.flatMap_cons]

private theorem readLoop_good {polls : List Poll} (hn : ∀ p ∈ polls, p.read.n ≤ 128) (r : Reader) :
    readLoop (good polls) r = .running (r.fwrite (copied polls)) :=
  fold_pass_good (fun _ hp => not_fails_of_mem_good hp) (fun p hp => hn p (mem_of_mem_good hp)) r

/-- A message fits in front of the next chunk: the text of a short read always does, that of an
error of the system if `strerror` is brief. -/
theorem length_errorText {p : Poll} (hp : Fails p)
    (hbrief : p.read.n < 0 → (errorText p.read).utf8ByteSize < 128) :
    (bytesOf (errorText p.read)).length < 128 := by
  rw [length_bytesOf]
  by_cases hn : p.read.n < 0
  · exact hbrief hn
  · have hdigits : ∀ n : Fin 128, (toString (n.val : ℤ)).utf8ByteSize ≤ 3 := by decide +kernel
    have hlt := hp.2
    have hsize := hdigits ⟨p.read.n.toNat, by omega⟩
    rw [Int.toNat_of_nonneg (by omega)] at hsize
    have htext :
      (toString "Error reading from tty device. Fewer bytes than expected. Num bytes: ").utf8ByteSize =
        69 := rfl
    rw [errorText, if_neg hn]
    simp only [String.utf8ByteSize_append, htext]
    omega

/-- What is on standard output is what has been read, and at most a message behind it. -/
theorem readLoop_cases {polls : List Poll} (hn : ∀ p ∈ polls, p.read.n ≤ 128) (r : Reader) :
    good polls = polls ∧ readLoop polls r = .running (r.fwrite (copied polls)) ∨
    ∃ p rest, polls = good polls ++ p :: rest ∧ Fails p ∧
      readLoop polls r = .stopped (.exit (if p.read.n < 0 then 3 else 4) [])
        ((r.fwrite (copied polls)).printf (errorText p.read)) := by
  have hgood := readLoop_good hn r
  obtain hall | ⟨p, rest, hsplit, hp⟩ := good_cases polls
  · rw [hall] at hgood
    exact .inl ⟨hall, hgood⟩
  · refine .inr ⟨p, rest, hsplit, hp, ?_⟩
    rw [hsplit, readLoop, Outcome.fold_append, ← hsplit, ← readLoop, hgood, Outcome.andThen_running,
      Outcome.fold_cons, pass_of_fails hp, Outcome.andThen_stopped]

/-! ### The daemon on the same device -/

def iteration (p : Poll) : Iteration 1 := ⟨false, .ok 0, fun _ => p⟩

theorem events_iteration (p : Poll) : Iteration.events (iteration p) = Poll.events 0 p := by
  simp [Iteration.events, iteration, List.finRange_succ]

theorem events_iterations (polls : List Poll) :
    (polls.map iteration).flatMap Iteration.events = polls.flatMap (Poll.events 0) := by
  rw [List.flatMap_map]
  exact List.flatMap_congr fun p _ => events_iteration p

theorem mem_events_iff {p : Poll} {e : Event 1} :
    e ∈ Poll.events 0 p ↔ p.numBytes ≥ 128 ∧ e = .read 0 p.read := by
  rw [Poll.events]
  split <;> simp [*]

private theorem feeds_good (host : Host) {polls : List Poll} (hn : ∀ p ∈ polls, p.read.n ≤ 128) :
    Feeds host ((good polls).map iteration) (copied polls) where
  reads := by
    intro i r hr
    rw [events_iterations] at hr
    obtain ⟨p, hp, hr⟩ := List.mem_flatMap.mp hr
    obtain ⟨hbytes, hr⟩ := mem_events_iff.mp hr
    cases hr
    exact le_antisymm (hn p (mem_of_mem_good hp))
      (not_lt.mp fun h => not_fails_of_mem_good hp ⟨hbytes, h⟩)
  ticks := by
    intro rndcount hr
    rw [events_iterations] at hr
    obtain ⟨p, -, hr⟩ := List.mem_flatMap.mp hr
    cases (mem_events_iff.mp hr).2
  chars := by
    rw [events_iterations, List.flatMap_assoc, copied]
    apply List.flatMap_congr
    intro p _
    rw [Poll.events, Poll.bytes]
    split
    · rw [List.flatMap_singleton]
      rfl
    · rfl

theorem mainLoop_iterations {host : Host} (hh : Assumed host) {polls : List Poll}
    (hn : ∀ p ∈ polls, p.read.n ≤ 128) {x : List Bool} (hx : copied polls = x.map asciiChar) :
    (mainLoop host (polls.map iteration)).state.delivered =
        mixed ((blocks 512 x).flatMap amlsBits) ∧
      ((∃ s, mainLoop host (polls.map iteration) = .running s) ↔ good polls = polls) := by
  have hfeeds := feeds_good host hn
  rw [hx] at hfeeds
  obtain hall | ⟨p, rest, hsplit, hp⟩ := good_cases polls
  · obtain ⟨s, hrun, hdelivered⟩ := mainLoop_of_feeds hh hfeeds
    rw [hall] at hrun
    rw [hrun]
    exact ⟨hdelivered, ⟨fun _ => hall, fun _ => ⟨s, rfl⟩⟩⟩
  · obtain ⟨l, hl, -, hgroups⟩ := hfeeds.ledger
    have hread : p.read.n ≠ 128 := ne_of_lt hp.2
    have hstop : ledger host (polls.map iteration) =
        .stopped (readFailure (host.deviceName 0) p.read.n p.read.error) l := by
      rw [ledger, events_iterations, ← events_iterations] at hl ⊢
      rw [hsplit, List.map_append, List.flatMap_append, Outcome.fold_append, hl,
        Outcome.andThen_running, List.map_cons, List.flatMap_cons, events_iteration, Poll.events,
        if_pos hp.1, List.singleton_append, Outcome.fold_cons, record, samples, if_pos hread]
      rfl
    have hrun := mainLoop_simulates hh (polls.map iteration)
    rw [hstop] at hrun
    generalize mainLoop host (polls.map iteration) = o at hrun
    cases hrun with
    | stopped why hfinal =>
      exact ⟨hfinal.delivered.trans (by rw [stream, hgroups]),
        iff_of_false (fun h => by cases h with | intro s hs => cases hs) (ne_polls hsplit hp)⟩

private theorem blocks_append_text {x t : List Byte} (hx : 128 ∣ x.length) (ht : t.length < 128) :
    blocks 512 (x ++ t) = blocks 512 x := by
  have htake := blocks_take (n := 512) (m := x.length) (l := x ++ t) (by decide) (by
    rw [List.length_append]
    omega)
  rw [List.take_left] at htake
  exact htake.symm

private theorem blocks_stdout {polls : List Poll} (hn : ∀ p ∈ polls, p.read.n ≤ 128)
    (hbrief : ∀ p ∈ polls, p.read.n < 0 → (errorText p.read).utf8ByteSize < 128) {r : Reader}
    (hr : r.stdout = []) :
    blocks 512 (readLoop polls r).state.stdout = blocks 512 (copied polls) := by
  have hcopied : (r.fwrite (copied polls)).stdout = copied polls := by
    rw [Reader.fwrite, hr, List.nil_append]
  obtain ⟨-, hrun⟩ | ⟨p, rest, hsplit, hp, hrun⟩ := readLoop_cases hn r
  · rw [hrun, Outcome.state_running, hcopied]
  · have hmem : p ∈ polls := by
      rw [hsplit]
      simp
    have hstdout : (readLoop polls r).state.stdout = copied polls ++ bytesOf (errorText p.read) := by
      rw [hrun]
      exact congrArg (· ++ bytesOf (errorText p.read)) hcopied
    rw [hstdout]
    exact blocks_append_text (dvd_length_copied polls) (length_errorText hp (hbrief p hmem))

theorem readLoop_running_iff {polls : List Poll} (hn : ∀ p ∈ polls, p.read.n ≤ 128) (r : Reader) :
    (∃ r', readLoop polls r = .running r') ↔ good polls = polls := by
  obtain ⟨hall, hrun⟩ | ⟨p, rest, hsplit, hp, hrun⟩ := readLoop_cases hn r
  · exact iff_of_true ⟨_, hrun⟩ hall
  · refine iff_of_false (fun h => ?_) (ne_polls hsplit hp)
    obtain ⟨r', hr'⟩ := h
    rw [hrun] at hr'
    cases hr'

def unplugged (c : List Byte) : List Poll :=
  [⟨128, readOf c⟩, ⟨128, ⟨-1, Vector.replicate 128 0#8, ⟨5, "Input/output error"⟩⟩⟩]

private theorem copied_unplugged {c : List Byte} (hc : c.length = 128) :
    copied (unplugged c) = c := by
  have hgood : good (unplugged c) = [⟨128, readOf c⟩] := by
    simp [good, unplugged, Fails, readOf]
  rw [copied, hgood, List.flatMap_singleton, Poll.bytes, if_pos (le_refl (128 : ℤ)),
    toList_readOf hc]

def serialPort : ReaderHost where
  platform := .linux
  constants := ⟨0o1, 0o2000, 0o10000, 0o4000, 0o60, 0o60, 0o100, 0o200, 0o400, 0o1000, 0o4000,
    0o20000000000⟩
  program := "read_serial_port"
  args := ["/dev/ttyUSB0"]
  descriptor := 3

end K7nvhRng.SerialReader
