import Mathlib.Data.List.Basic

/-!
# Fixed arrays with checked accesses

Every load and store tests its index and reports a fault instead of leaving the
array, so a computation that returns normally has made no access out of bounds.
An array that is filled from the front is described by the list written so far
and what follows it.
-/

namespace K7nvhRng.CheckedArrays

inductive Fault where
  | badIndex (i : ℕ)
  | stackOverflow
  deriving DecidableEq, Repr

variable {α ε β : Type} {n : ℕ}

@[simp] theorem ok_bind (a : α) (f : α → Except ε β) : (Except.ok a >>= f) = f a := rfl

@[simp] theorem pure_eq_ok (a : α) : (pure a : Except ε α) = Except.ok a := rfl

theorem bind_eq_ok {x : Except ε α} {f : α → Except ε β} {b : β} (h : (x >>= f) = .ok b) :
    ∃ a, x = .ok a ∧ f a = .ok b := by
  cases x with
  | ok a => exact ⟨a, rfl, h⟩
  | error e => cases h

def load (a : Vector α n) (i : ℕ) : Except Fault α :=
  if h : i < n then .ok a[i] else .error (.badIndex i)

def store (a : Vector α n) (i : ℕ) (x : α) : Except Fault (Vector α n) :=
  if h : i < n then .ok (a.set i x) else .error (.badIndex i)

theorem load_of_getElem? {a : Vector α n} {i : ℕ} {x : α} (h : a.toList[i]? = some x) :
    load a i = .ok x := by
  obtain ⟨hi, hx⟩ := List.getElem?_eq_some_iff.mp h
  have hn : i < n := by simpa using hi
  rw [load, dif_pos hn, ← hx, Vector.getElem_toList]

theorem store_of_lt {a : Vector α n} {i : ℕ} (x : α) (h : i < n) :
    store a i x = .ok (a.set i x) := by
  rw [store, dif_pos h]

def Holds (a : Vector α n) (l rest : List α) : Prop := a.toList = l ++ rest

theorem Holds.length {a : Vector α n} {l rest : List α} (h : Holds a l rest) :
    l.length + rest.length = n := by
  rw [← List.length_append, ← h, Vector.length_toList]

theorem Holds.store {a : Vector α n} {l rest : List α} {c : α} (h : Holds a l (c :: rest))
    (x : α) : ∃ a', CheckedArrays.store a l.length x = .ok a' ∧ Holds a' (l ++ [x]) rest := by
  have hlen := h.length
  have hlt : l.length < n := by simp only [List.length_cons] at hlen; omega
  refine ⟨a.set l.length x, store_of_lt x hlt, ?_⟩
  have hl : a.toList = l ++ c :: rest := h
  rw [Holds, Vector.toList_set, hl, List.set_append_right _ _ (Nat.le_refl _)]
  simp

theorem Holds.load {a : Vector α n} {l rest : List α} {c : α} (h : Holds a l (c :: rest)) :
    CheckedArrays.load a l.length = .ok c := by
  apply load_of_getElem?
  have hl : a.toList = l ++ c :: rest := h
  simp [hl]

/-- The array starts with `l`; nothing is known about the entries behind it. -/
def Front (a : Vector α n) (l : List α) : Prop := ∃ rest, Holds a l rest

theorem front_nil (a : Vector α n) : Front a [] := ⟨a.toList, rfl⟩

theorem Front.take {a : Vector α n} {l : List α} (h : Front a l) :
    a.toList.take l.length = l := by
  obtain ⟨rest, h⟩ := h
  rw [h, List.take_left]

theorem Front.load {a : Vector α n} {l : List α} (h : Front a l) {i : ℕ} {x : α}
    (hi : l[i]? = some x) : CheckedArrays.load a i = .ok x := by
  obtain ⟨rest, h⟩ := h
  have hlt : i < l.length := (List.getElem?_eq_some_iff.mp hi).1
  have hl : a.toList = l ++ rest := h
  apply load_of_getElem?
  rw [hl, List.getElem?_append_left hlt, hi]

theorem Front.store {a : Vector α n} {l : List α} (h : Front a l) (hl : l.length < n) (x : α) :
    ∃ a', CheckedArrays.store a l.length x = .ok a' ∧ Front a' (l ++ [x]) := by
  obtain ⟨rest, h⟩ := h
  cases rest with
  | nil => have := h.length; simp at this; omega
  | cons c rest =>
    obtain ⟨a', hs, ha⟩ := h.store x
    exact ⟨a', hs, rest, ha⟩

def Filled (a : Vector α n) (l : List α) (c : α) : Prop :=
  Holds a l (List.replicate (n - l.length) c)

theorem filled_replicate (c : α) : Filled (Vector.replicate n c) [] c := by
  simp [Filled, Holds]

theorem Filled.load_next {a : Vector α n} {l m : List α} {x c : α}
    (h : Filled a (l ++ x :: m) c) : CheckedArrays.load a l.length = .ok x := by
  have hholds : Holds a l (x :: (m ++ List.replicate (n - (l ++ x :: m).length) c)) := by
    rw [Holds, h]
    simp
  exact hholds.load

theorem Filled.load_end {a : Vector α n} {l : List α} {c : α} (h : Filled a l c)
    (hl : l.length < n) : CheckedArrays.load a l.length = .ok c := by
  have hholds : Holds a l (c :: List.replicate (n - l.length - 1) c) := by
    rw [← List.replicate_succ, Nat.sub_add_cancel (by omega)]
    exact h
  exact hholds.load

theorem Filled.store {a : Vector α n} {l : List α} {c : α} (h : Filled a l c)
    (hl : l.length < n) (x : α) :
    ∃ a', CheckedArrays.store a l.length x = .ok a' ∧ Filled a' (l ++ [x]) c := by
  have hr : List.replicate (n - l.length) c =
      c :: List.replicate (n - (l ++ [x]).length) c := by
    rw [← List.replicate_succ, List.length_append]
    congr 1
    simp only [List.length_singleton]
    omega
  rw [Filled, hr] at h
  exact h.store x

end K7nvhRng.CheckedArrays
