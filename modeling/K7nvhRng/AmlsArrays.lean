import K7nvhRng.CheckedArrays
import Mathlib.Data.Int.Notation

/-!
# The array code of `amls`

The daemon (`software/k7nvh_rng.c`) and the utility (`utilities/amls.c`) contain the
same function, over plain `char` in one and `int8_t` in the other. The model keeps
its three heap arrays of `amls_array_len` characters, its cursors, the pending-bit
marker and the two copying loops. Characters are bytes; comparisons are made on
their promotions to `int`, which depend on the signedness of the character type.

What `malloc` hands out is not initialised: the contents of the `i`-th block
allocated by the process are given by an arbitrary function. Calls are nested on a
stack of finitely many frames; a recursion that does not end exhausts it.
-/

namespace K7nvhRng.AmlsArrays
open CheckedArrays

abbrev Byte := BitVec 8

/-- The signedness of a character type of eight bits. -/
inductive CharSign where
  | signed | unsigned
  deriving DecidableEq, Repr

def CharSign.promote : CharSign → Byte → ℤ
  | .signed, c => c.toInt
  | .unsigned, c => c.toNat

/-- Conversion of an `int` to a character. -/
def toChar (v : ℤ) : Byte := BitVec.ofInt 8 v

theorem toChar_toNat (b : Byte) : toChar b.toNat = b := by
  rw [toChar, BitVec.ofInt_natCast, BitVec.ofNat_toNat, BitVec.setWidth_eq]

def bytesOf (text : String) : List Byte := text.toUTF8.data.toList.map UInt8.toBitVec

theorem length_bytesOf (text : String) : (bytesOf text).length = text.utf8ByteSize := by
  rw [bytesOf, List.length_map]
  rfl

def amlsArrayLen : ℕ := 512

abbrev Block := Vector Byte amlsArrayLen

/-- `memset` over a whole block. -/
def memset (a : Block) (v : ℤ) : Block := a.map fun _ => toChar v

structure Locals where
  result : Block
  resultPos : ℕ
  level1 : Block
  level1Pos : ℕ
  levelA : Block
  levelAPos : ℕ
  bit0 : Byte

/-- `data[i]`. No array of this function has more than `amls_array_len` entries in use,
and an access at a larger index is a fault whatever the size of `data`. -/
def fetch {m : ℕ} (data : Vector Byte m) (i : ℕ) : Except Fault Byte :=
  if i < amlsArrayLen then load data i else .error (.badIndex i)

/-- The body of the pairing loop at index `i`; `none` is the `break`. -/
def pairStep (sg : CharSign) {m : ℕ} (data : Vector Byte m) (i : ℕ) (s : Locals) :
    Except Fault (Option Locals) := do
  let d ← fetch data i
  if sg.promote d ≠ 0 ∧ sg.promote d ≠ 1 then
    return none
  if sg.promote s.bit0 = -1 then
    return some { s with bit0 := d }
  else if sg.promote s.bit0 = sg.promote d then
    let levelA ← store s.levelA s.levelAPos (toChar 0)
    let level1 ← store s.level1 s.level1Pos s.bit0
    return some { s with
      levelA := levelA, levelAPos := s.levelAPos + 1
      level1 := level1, level1Pos := s.level1Pos + 1
      bit0 := toChar (-1) }
  else
    let levelA ← store s.levelA s.levelAPos (toChar 1)
    let result ← store s.result s.resultPos s.bit0
    return some { s with
      levelA := levelA, levelAPos := s.levelAPos + 1
      result := result, resultPos := s.resultPos + 1
      bit0 := toChar (-1) }

/-- The pairing loop with `n` indices left, starting at `i`. -/
def pairLoop (sg : CharSign) {m : ℕ} (data : Vector Byte m) :
    ℕ → ℕ → Locals → Except Fault Locals
  | 0, _, s => .ok s
  | n + 1, i, s => do
    match ← pairStep sg data i s with
    | none => return s
    | some s' => pairLoop sg data n (i + 1) s'

/-- Append the entries of `src` to `result` up to the end marker, with `n` indices left. -/
def appendLoop (sg : CharSign) (src : Block) :
    ℕ → ℕ → Block → ℕ → Except Fault (Block × ℕ)
  | 0, _, result, resultPos => .ok (result, resultPos)
  | n + 1, i, result, resultPos => do
    let c ← load src i
    if sg.promote c = -1 then
      return (result, resultPos)
    let result' ← store result resultPos c
    appendLoop sg src n (i + 1) result' (resultPos + 1)

/-- The locals when the pairing loop starts. The second and third `memset` of the source
clear `result` once more, so `level_1` and `level_a` keep what `malloc` left in them. -/
def initLocals (heap : ℕ → Block) (mallocs : ℕ) : Locals where
  result := memset (memset (memset (heap mallocs) (-1)) (-1)) (-1)
  resultPos := 0
  level1 := heap (mallocs + 1)
  level1Pos := 0
  levelA := heap (mallocs + 2)
  levelAPos := 0
  bit0 := toChar (-1)

/-- `amls(data, data_len)` with the given number of stack frames, after `mallocs` earlier
allocations. The returned number counts the allocations made when it returns. -/
def amls (sg : CharSign) (heap : ℕ → Block) :
    (frames : ℕ) → {m : ℕ} → (data : Vector Byte m) → (dataLen mallocs : ℕ) →
      Except Fault (Block × ℕ)
  | 0, _, _, _, _ => .error .stackOverflow
  | frames + 1, _, data, dataLen, mallocs => do
    let s := initLocals heap mallocs
    if dataLen < 2 then
      return (s.result, mallocs + 3)
    let s ← pairLoop sg data dataLen 0 s
    let (levelAResult, mallocs') ← amls sg heap frames s.levelA s.levelAPos (mallocs + 3)
    let (level1Result, mallocs'') ← amls sg heap frames s.level1 s.level1Pos mallocs'
    let (result, resultPos) ← appendLoop sg levelAResult amlsArrayLen 0 s.result s.resultPos
    let (result, _) ← appendLoop sg level1Result amlsArrayLen 0 result resultPos
    return (result, mallocs'')

/-- The call returns `result`, as soon as the stack is deep enough for its recursion. -/
def Returns (sg : CharSign) (heap : ℕ → Block) {m : ℕ} (data : Vector Byte m)
    (dataLen mallocs : ℕ) (result : Block) : Prop :=
  ∃ depth, ∀ frames ≥ depth, ∃ mallocs',
    amls sg heap frames data dataLen mallocs = .ok (result, mallocs')

/-- The entries of a returned array in front of the first end marker. -/
def returnedChars (sg : CharSign) (result : Block) : List Byte :=
  result.toList.takeWhile fun c => sg.promote c ≠ -1

end K7nvhRng.AmlsArrays
