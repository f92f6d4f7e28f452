import K7nvhRng.AmlsArrays
import K7nvhRng.StoppableRuns

/-!
# The utilities that filter standard input

`xor512`, `vonneumann` and the `amls` utility read standard input one byte at a time into
an `int`, and `ascii_to_bin` reads it with `fgetc`. Each of the first three is a program
that runs from one `read` to the next; its state says where between two reads it stands,
and what it has written to standard output so far. Writing always succeeds.
-/

namespace K7nvhRng.StdinUtilities
open CheckedArrays AmlsArrays StoppableRuns

/-- An `int` of 32 bits. -/
abbrev Word := BitVec 32

/-- What `read(STDIN_FILENO, &word, 1)` returns: 1 with a byte, 0 at the end of the file, or
-1 for an error. -/
inductive ReadOutcome where
  | delivered (b : Byte)
  | endOfFile
  | failed

/-- The word after the `read`. On a little-endian host the byte replaces its lowest byte. -/
def ReadOutcome.into : ReadOutcome → Word → Word
  | .delivered b, w => (w &&& 0xffffff00#32) ||| b.setWidth 32
  | .endOfFile, w | .failed, w => w

/-- The byte that `fputc` writes for an `int`. -/
def fputc (w : Word) : Byte := w.setWidth 8

inductive Halt where
  | exit (status : ℤ)
  | fault (f : Fault)

def guarded {α σ : Type} (x : Except Fault α) (s : σ) (f : α → Outcome Halt σ) :
    Outcome Halt σ :=
  Outcome.check (x.mapError Halt.fault) s f

@[simp] theorem guarded_ok {α σ : Type} (a : α) (s : σ) (f : α → Outcome Halt σ) :
    guarded (.ok a) s f = f a := rfl

def readsOf (bs : List Byte) : List ReadOutcome := bs.map .delivered ++ [.endOfFile]

/-! ### `xor512` -/

/-- `mixing` says which of the two loops is running, and `i` is its variable. -/
structure Xor512 where
  buf : Vector Word 512
  working : Word
  mixing : Bool
  i : ℕ
  out : List Byte

namespace Xor512

def init : Xor512 := ⟨Vector.replicate 512 0#32, 0#32, false, 0, []⟩

/-- `i++`, and the other loop after 512 iterations. -/
def next (s : Xor512) : Xor512 :=
  if s.i + 1 < 512 then { s with i := s.i + 1 } else { s with i := 0, mixing := !s.mixing }

/-- What follows a `read` that did not return 0. -/
def resume (s : Xor512) : Outcome Halt Xor512 :=
  if s.mixing then
    guarded (load s.buf s.i) s fun c =>
    .running (next { s with out := s.out ++ [fputc (c ^^^ s.working)] })
  else
    guarded (store s.buf s.i s.working) s fun buf =>
    .running (next { s with buf := buf })

def step (r : ReadOutcome) (s : Xor512) : Outcome Halt Xor512 :=
  match r with
  | .endOfFile => .stopped (.exit 0) s
  | .delivered _ | .failed => resume { s with working := r.into s.working }

def main (reads : List ReadOutcome) : Outcome Halt Xor512 := Outcome.fold step reads init

end Xor512

/-! ### `vonneumann` -/

structure VonNeumann where
  input : Word
  output : Word
  count : ℕ
  out : List Byte

namespace VonNeumann

/-- The local `input` is not initialised. -/
def init (input : Word) : VonNeumann := ⟨input, 0#32, 0, []⟩

def pairStep (s : VonNeumann) (i : ℕ) : VonNeumann :=
  let c1 := s.input.sshiftRight (7 - i * 2) &&& 1#32
  let c2 := s.input.sshiftRight (6 - i * 2) &&& 1#32
  let s := if c1 = 0#32 ∧ c2 = 1#32 then { s with count := s.count + 1 } else s
  let s := if c1 = 1#32 ∧ c2 = 0#32 then
      { s with output := s.output ||| (1#32 <<< (7 - s.count)), count := s.count + 1 }
    else s
  if s.count ≥ 8 then { s with count := 0, out := s.out ++ [fputc s.output], output := 0#32 }
  else s

def step (r : ReadOutcome) (s : VonNeumann) : Outcome Halt VonNeumann :=
  match r with
  | .endOfFile => .stopped (.exit 0) s
  | .delivered _ | .failed =>
    .running ((List.range 4).foldl pairStep { s with input := r.into s.input })

def main (input : Word) (reads : List ReadOutcome) : Outcome Halt VonNeumann :=
  Outcome.fold step reads (init input)

end VonNeumann

/-! ### The `amls` utility -/

structure AmlsMain where
  buf : Vector Byte 512
  working : Word
  i : ℕ
  mallocs : ℕ
  out : List Byte

namespace AmlsMain

/-- The locals `buf` and `working` are not initialised. -/
def init (buf : Vector Byte 512) (working : Word) : AmlsMain := ⟨buf, working, 0, 0, []⟩

/-- The loop that prints a result, with `n` indices left, starting at `k`. -/
def printLoop (result : Block) : ℕ → ℕ → List Byte → Except Fault (List Byte)
  | 0, _, out => .ok out
  | n + 1, k, out => do
    let c ← load result k
    if CharSign.signed.promote c = -1 then
      return out
    printLoop result n (k + 1) (out ++ [toChar (CharSign.signed.promote c + 48)])

/-- What follows a `read` that did not return 0. -/
def resume (heap : ℕ → Block) (frames : ℕ) (s : AmlsMain) : Outcome Halt AmlsMain :=
  guarded (store s.buf s.i ((s.working - 48#32).setWidth 8)) s fun buf =>
  let s := { s with buf := buf, i := s.i + 1 }
  if s.i < 512 then .running s
  else
    guarded (amls .signed heap frames s.buf 512 s.mallocs) s fun r =>
    guarded (printLoop r.1 512 0 s.out) s fun out =>
    .running { s with i := 0, mallocs := r.2, out := out }

def step (heap : ℕ → Block) (frames : ℕ) (r : ReadOutcome) (s : AmlsMain) :
    Outcome Halt AmlsMain :=
  match r with
  | .endOfFile => .stopped (.exit 0) s
  | .delivered _ | .failed => resume heap frames { s with working := r.into s.working }

def main (heap : ℕ → Block) (frames : ℕ) (buf : Vector Byte 512) (working : Word)
    (reads : List ReadOutcome) : Outcome Halt AmlsMain :=
  Outcome.fold (step heap frames) reads (init buf working)

end AmlsMain

/-! ### `ascii_to_bin` -/

/-- The loop of `read_uint8` with `n` iterations left: the value, whether the end of the file
was reached, and the characters not read. -/
def readUint8Loop : ℕ → Byte → List Byte → Byte × Bool × List Byte
  | 0, value, input => (value, false, input)
  | _ + 1, value, [] => (value, true, [])
  | n + 1, value, c :: input =>
    readUint8Loop n ((value <<< 1) ||| (if c = 0x30#8 then 0#8 else 1#8)) input

def readUint8 (input : List Byte) : Byte × Bool × List Byte := readUint8Loop 8 0#8 input

private theorem length_readUint8Loop {n : ℕ} {value byte : Byte} {input rest : List Byte}
    (h : readUint8Loop n value input = (byte, false, rest)) :
    input.length = rest.length + n := by
  induction n generalizing value input with
  | zero =>
    simp only [readUint8Loop, Prod.mk.injEq, true_and] at h
    simp [h.2]
  | succ n ih =>
    cases input with
    | nil => simp [readUint8Loop] at h
    | cons c input => simp [ih h, Nat.add_assoc]

def asciiToBin (input : List Byte) : List Byte :=
  match _h : readUint8 input with
  | (byte, false, rest) => byte :: asciiToBin rest
  | (_, true, _) => []
termination_by input.length
decreasing_by
  have hlen := length_readUint8Loop _h
  omega

end K7nvhRng.StdinUtilities
