import Mathlib.Data.List.Basic

/-!
# The file descriptors of a process

A process refers to its open files by numbers. A file that is opened gets the lowest number
that is free, and closing a descriptor frees its number. Tables are only compared by the
files they hold at each number.
-/

namespace K7nvhRng.DescriptorTable

/-- The open files in the order of their numbers; numbers beyond the end are free. -/
abbrev Table (φ : Type) := List (Option φ)

namespace Table
variable {φ : Type}

def file (t : Table φ) (n : ℕ) : Option φ := t.getD n none

def lowest : Table φ → ℕ
  | [] => 0
  | none :: _ => 0
  | some _ :: t => lowest t + 1

def opened (f : φ) : Table φ → Table φ
  | [] => [some f]
  | none :: t => some f :: t
  | some g :: t => some g :: opened f t

def closed (t : Table φ) (n : ℕ) : Table φ := t.set n none

def closedAll (t : Table φ) (ns : List ℕ) : Table φ := ns.foldl closed t

theorem file_lowest (t : Table φ) : file t (lowest t) = none := by
  induction t with
  | nil => rfl
  | cons g t ih =>
    cases g with
    | none => rfl
    | some g => exact ih

theorem lowest_le {t : Table φ} {n : ℕ} (h : file t n = none) : lowest t ≤ n := by
  induction t generalizing n with
  | nil => exact Nat.zero_le n
  | cons g t ih =>
    cases g with
    | none => exact Nat.zero_le n
    | some g =>
      cases n with
      | zero => cases h
      | succ n => exact Nat.succ_le_succ (ih h)

@[simp] theorem file_opened (f : φ) (t : Table φ) (n : ℕ) :
    file (opened f t) n = if n = lowest t then some f else file t n := by
  induction t generalizing n with
  | nil => cases n <;> simp [opened, lowest, file]
  | cons g t ih =>
    cases g with
    | none => cases n <;> simp [opened, lowest, file]
    | some g =>
      cases n with
      | zero => simp [opened, lowest, file]
      | succ n =>
        have hcons : ∀ u : Table φ, file (some g :: u) (n + 1) = file u n := fun u => rfl
        rw [opened, hcons, hcons, lowest, ih]
        simp

@[simp] theorem file_closed (t : Table φ) (k n : ℕ) :
    file (closed t k) n = if n = k then none else file t n := by
  rw [closed, file, file, List.getD_eq_getElem?_getD, List.getD_eq_getElem?_getD,
    List.getElem?_set]
  by_cases hn : n = k
  · subst hn
    by_cases hlt : n < t.length
    · simp [hlt]
    · simp [hlt]
  · rw [if_neg (fun h => hn h.symm), if_neg hn]

theorem file_of_closed {f : φ} {t : Table φ} {k n : ℕ} (h : file (closed t k) n = some f) :
    file t n = some f := by
  rw [file_closed] at h
  split at h
  · cases h
  · exact h

theorem file_closedAll (t : Table φ) (ns : List ℕ) (n : ℕ) :
    file (closedAll t ns) n = if n ∈ ns then none else file t n := by
  induction ns generalizing t with
  | nil => rfl
  | cons k ns ih =>
    have hstep : closedAll t (k :: ns) = closedAll (closed t k) ns := rfl
    rw [hstep, ih, file_closed]
    by_cases hn : n ∈ ns
    · simp [hn]
    · by_cases hk : n = k
      · simp [hk]
      · simp [hn, hk]

theorem file_opened_eq_some_iff {f g : φ} (hne : f ≠ g) (t : Table φ) (n : ℕ) :
    file (opened f t) n = some g ↔ file t n = some g := by
  rw [file_opened]
  split
  · rename_i hn
    rw [hn, file_lowest]
    simp [hne]
  · rfl

/-- A file that was not open is open under the lowest free number only. -/
theorem file_opened_self_iff {f : φ} {t : Table φ} (hnew : ∀ n, file t n ≠ some f) (n : ℕ) :
    file (opened f t) n = some f ↔ n = lowest t := by
  rw [file_opened]
  split
  · rename_i hn
    simp [hn]
  · rename_i hn
    exact iff_of_false (hnew n) hn

theorem file_opened_ne_none {f : φ} {t : Table φ} {n : ℕ} (h : file t n ≠ none) :
    file (opened f t) n ≠ none := by
  rw [file_opened]
  split
  · simp
  · exact h

theorem file_opened_of_some {f g : φ} {t : Table φ} {n : ℕ} (h : file t n = some g) :
    file (opened f t) n = some g := by
  rw [file_opened, if_neg]
  · exact h
  · rintro rfl
    rw [file_lowest] at h
    cases h

theorem file_zero_opened_ne_none (f : φ) (t : Table φ) : file (opened f t) 0 ≠ none := by
  rw [file_opened]
  split
  · simp
  · rename_i hne
    intro hfree
    have hle := lowest_le hfree
    omega

theorem lt_lowest {t : Table φ} {k : ℕ} (h : ∀ n < k, file t n ≠ none) : k ≤ lowest t := by
  by_contra hlt
  exact h (lowest t) (by omega) (file_lowest t)

end Table

end K7nvhRng.DescriptorTable
