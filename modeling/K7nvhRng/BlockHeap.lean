import K7nvhRng.CheckedArrays
import Mathlib.Data.Finset.Card
import Mathlib.Data.Finset.Lattice.Fold
import Mathlib.Logic.Function.Basic
import Mathlib.Order.Lattice.Nat

/-!
# A heap of blocks of one size

Blocks are handed out and taken back by an allocator that may choose any free address and
has room for a certain number of them; when it is exhausted it returns a null pointer. A
block is not initialised: its owner finds what earlier owners have left. Every access
through a null pointer or to a block that is not allocated is a fault, and so is freeing
such a block. A computation that returns normally has made no such access.
-/

namespace K7nvhRng.BlockHeap
open CheckedArrays

inductive MemoryFault where
  | null
  | notAllocated (address : ℕ)
  | access (f : Fault)
  deriving DecidableEq, Repr

abbrev Pointer := Option ℕ

/-- The addresses in use, and what stands at every address. -/
structure Heap (α : Type) (n : ℕ) where
  live : Finset ℕ
  contents : ℕ → Vector α n

/-- How addresses are chosen, and how many blocks there is memory for. -/
structure Allocator where
  place : Finset ℕ → ℕ
  place_notMem : ∀ live, place live ∉ live
  room : ℕ

def Allocator.bump (room : ℕ) : Allocator where
  place := fun live => live.sup id + 1
  place_notMem := by
    intro live hmem
    have hle : live.sup id + 1 ≤ live.sup id := Finset.le_sup (f := id) hmem
    omega
  room := room

namespace Heap
variable {α : Type} {n : ℕ}

def malloc (al : Allocator) (h : Heap α n) : Pointer × Heap α n :=
  if h.live.card < al.room then
    (some (al.place h.live), { h with live := insert (al.place h.live) h.live })
  else (none, h)

def deref (h : Heap α n) : Pointer → Except MemoryFault ℕ
  | none => .error .null
  | some a => if a ∈ h.live then .ok a else .error (.notAllocated a)

/-- Take a block back. Its contents stay where they are. -/
def drop (h : Heap α n) (a : ℕ) : Heap α n := { h with live := h.live.erase a }

/-- Freeing the null pointer does nothing. -/
def free (h : Heap α n) : Pointer → Except MemoryFault (Heap α n)
  | none => .ok h
  | some a => if a ∈ h.live then .ok (h.drop a) else .error (.notAllocated a)

def put (h : Heap α n) (a : ℕ) (b : Vector α n) : Heap α n :=
  { h with contents := Function.update h.contents a b }

def read (h : Heap α n) (p : Pointer) : Except MemoryFault (Vector α n) := do
  let a ← h.deref p
  return h.contents a

def load (h : Heap α n) (p : Pointer) (i : ℕ) : Except MemoryFault α := do
  let b ← h.read p
  (CheckedArrays.load b i).mapError .access

def store (h : Heap α n) (p : Pointer) (i : ℕ) (x : α) : Except MemoryFault (Heap α n) := do
  let a ← h.deref p
  let b ← (CheckedArrays.store (h.contents a) i x).mapError .access
  return h.put a b

/-- `memset` over a whole block. -/
def fill (h : Heap α n) (p : Pointer) (x : α) : Except MemoryFault (Heap α n) := do
  let a ← h.deref p
  return h.put a (Vector.replicate n x)

/-! ### Contents -/

@[simp] theorem live_put (h : Heap α n) (a : ℕ) (b : Vector α n) : (h.put a b).live = h.live := rfl

@[simp] theorem live_drop (h : Heap α n) (a : ℕ) : (h.drop a).live = h.live.erase a := rfl

@[simp] theorem contents_drop (h : Heap α n) (a : ℕ) : (h.drop a).contents = h.contents := rfl

@[simp] theorem contents_put_self (h : Heap α n) (a : ℕ) (b : Vector α n) :
    (h.put a b).contents a = b := by
  simp [put]

theorem contents_put_of_ne (h : Heap α n) {a a' : ℕ} (hne : a' ≠ a) (b : Vector α n) :
    (h.put a b).contents a' = h.contents a' := by
  simp [put, hne]

@[simp] theorem put_put (h : Heap α n) (a : ℕ) (b c : Vector α n) :
    (h.put a b).put a c = h.put a c := by
  simp [put]

theorem put_comm (h : Heap α n) {a a' : ℕ} (hne : a ≠ a') (b c : Vector α n) :
    (h.put a b).put a' c = (h.put a' c).put a b := by
  simp only [put, Function.update_comm hne]

theorem put_eq_self {h : Heap α n} {a : ℕ} {b : Vector α n} (hb : h.contents a = b) :
    h.put a b = h := by
  subst hb
  simp [put]

/-! ### Accesses to allocated blocks -/

variable {h : Heap α n} {a : ℕ}

theorem malloc_of_lt {al : Allocator} (hroom : h.live.card < al.room) :
    h.malloc al =
      (some (al.place h.live), { h with live := insert (al.place h.live) h.live }) :=
  if_pos hroom

theorem deref_of_mem (ha : a ∈ h.live) : h.deref (some a) = .ok a := if_pos ha

theorem free_of_mem (ha : a ∈ h.live) : h.free (some a) = .ok (h.drop a) := if_pos ha

theorem read_of_mem (ha : a ∈ h.live) : h.read (some a) = .ok (h.contents a) := by
  rw [read, deref_of_mem ha]
  rfl

theorem load_of_ok (ha : a ∈ h.live) {i : ℕ} {x : α}
    (hx : CheckedArrays.load (h.contents a) i = .ok x) : h.load (some a) i = .ok x := by
  rw [load, read_of_mem ha, ok_bind, hx]
  rfl

theorem store_of_ok (ha : a ∈ h.live) {i : ℕ} {x : α} {b : Vector α n}
    (hb : CheckedArrays.store (h.contents a) i x = .ok b) :
    h.store (some a) i x = .ok (h.put a b) := by
  rw [store, deref_of_mem ha, ok_bind, hb]
  rfl

theorem fill_of_mem (ha : a ∈ h.live) (x : α) :
    h.fill (some a) x = .ok (h.put a (Vector.replicate n x)) := by
  rw [fill, deref_of_mem ha]
  rfl

/-! ### One more block -/

/-- The second heap has the block `r` in addition; the other blocks are as they were. -/
structure Gains (h : Heap α n) (r : ℕ) (h' : Heap α n) : Prop where
  fresh : r ∉ h.live
  live : h'.live = insert r h.live
  frame : ∀ a ∈ h.live, h'.contents a = h.contents a

theorem Gains.mem {r : ℕ} {h' : Heap α n} (hg : Gains h r h') : r ∈ h'.live := by
  rw [hg.live]
  exact Finset.mem_insert_self r _

theorem Gains.mem_of_mem {r : ℕ} {h' : Heap α n} (hg : Gains h r h') (ha : a ∈ h.live) :
    a ∈ h'.live := by
  rw [hg.live]
  exact Finset.mem_insert_of_mem ha

theorem Gains.ne {r : ℕ} {h' : Heap α n} (hg : Gains h r h') (ha : a ∈ h.live) : a ≠ r := by
  rintro rfl
  exact hg.fresh ha

theorem Gains.card {r : ℕ} {h' : Heap α n} (hg : Gains h r h') :
    h'.live.card = h.live.card + 1 := by
  rw [hg.live, Finset.card_insert_of_notMem hg.fresh]

theorem gains_malloc (al : Allocator) (hroom : h.live.card < al.room) :
    ∃ r, h.malloc al = (some r, ⟨insert r h.live, h.contents⟩) ∧
      Gains h r ⟨insert r h.live, h.contents⟩ :=
  ⟨al.place h.live, malloc_of_lt hroom, al.place_notMem h.live, rfl, fun _ _ => rfl⟩

end Heap

end K7nvhRng.BlockHeap
