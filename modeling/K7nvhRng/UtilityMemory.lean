import K7nvhRng.DaemonMemory
import K7nvhRng.UtilityOutputs

/-!
# The memory of the `amls` utility

The `amls` utility frees a result where it finds the end marker in it, in the middle of the loop
that prints it. A result without a marker would not be freed, and one with two of them is not
freed twice, since the loop is left. The utility is run here with the heap, and compared with
the program over arrays.
-/

namespace K7nvhRng.UtilityMemory
open CheckedArrays BlockHeap PeresExtractor AmlsArrays AmlsRefinement AmlsMemory StoppableRuns
open StdinUtilities UtilityOutputs
open DaemonMemory (bufAddress)

/-- The variables of `main`, and the heap. The array `buf` is in a block of its own. -/
structure Utility where
  state : AmlsMain
  memory : Memory

inductive Failure where
  | halt (why : Halt)
  | memory (f : MemoryFault)

/-- The loop that prints a result and frees it, with `n` indices left, starting at `k`. -/
def printLoop (result : Pointer) :
    ℕ → ℕ → List Byte → Memory → Except MemoryFault (List Byte × Memory)
  | 0, _, out, m => .ok (out, m)
  | n + 1, k, out, m => do
    let c ← m.load result k
    if CharSign.signed.promote c = -1 then
      let m ← m.free result
      return (out, m)
    printLoop result n (k + 1) (out ++ [toChar (CharSign.signed.promote c + 48)]) m

def accessing {α : Type} (x : Except MemoryFault α) (u : Utility)
    (f : α → Outcome Failure Utility) : Outcome Failure Utility :=
  Outcome.check (x.mapError Failure.memory) u f

@[simp] theorem accessing_ok {α : Type} (a : α) (u : Utility) (f : α → Outcome Failure Utility) :
    accessing (.ok a) u f = f a := rfl

/-- A checked access to an array that is not on the heap. -/
def halting {α : Type} (x : Except Fault α) (u : Utility) (f : α → Outcome Failure Utility) :
    Outcome Failure Utility :=
  Outcome.check (x.mapError fun f => Failure.halt (.fault f)) u f

@[simp] theorem halting_ok {α : Type} (a : α) (u : Utility) (f : α → Outcome Failure Utility) :
    halting (.ok a) u f = f a := rfl

def received (r : ReadOutcome) (s : AmlsMain) : AmlsMain := { s with working := r.into s.working }

def stored (buf : Vector Byte 512) (s : AmlsMain) : AmlsMain := { s with buf := buf, i := s.i + 1 }

def printed (out : List Byte) (s : AmlsMain) : AmlsMain := { s with i := 0, out := out }

def processBuffer (al : Allocator) (frames : ℕ) (u : Utility) : Outcome Failure Utility :=
  let s := u.state
  let m := u.memory.put bufAddress s.buf
  accessing (AmlsMemory.amls al .signed frames (some bufAddress) 512 m) ⟨s, m⟩ fun r =>
  accessing (printLoop r.1 512 0 s.out r.2) ⟨s, r.2⟩ fun o =>
  .running ⟨printed o.1 s, o.2⟩

/-- What follows a `read` that did not return 0. -/
def resume (al : Allocator) (frames : ℕ) (u : Utility) : Outcome Failure Utility :=
  let s := u.state
  halting (store s.buf s.i ((s.working - 48#32).setWidth 8)) u fun buf =>
  let s := stored buf s
  if s.i < 512 then .running ⟨s, u.memory⟩ else processBuffer al frames ⟨s, u.memory⟩

def step (al : Allocator) (frames : ℕ) (r : ReadOutcome) (u : Utility) :
    Outcome Failure Utility :=
  match r with
  | .endOfFile => .stopped (.halt (.exit 0)) u
  | .delivered _ | .failed => resume al frames ⟨received r u.state, u.memory⟩

def main (al : Allocator) (frames : ℕ) (reads : List ReadOutcome) (u : Utility) :
    Outcome Failure Utility :=
  Outcome.fold (step al frames) reads u

/-! ### Printing -/

def Ends (result : Block) (k n : ℕ) : Prop :=
  ∃ j, k ≤ j ∧ j < k + n ∧ CheckedArrays.load result j = .ok endMark

theorem printLoop_of_ok {m : Memory} {r : ℕ} (hr : r ∈ m.live) {n k : ℕ} {out out' : List Byte}
    (hends : Ends (m.contents r) k n)
    (hprint : AmlsMain.printLoop (m.contents r) n k out = .ok out') :
    printLoop (some r) n k out m = .ok (out', m.drop r) := by
  induction n generalizing k out with
  | zero =>
    obtain ⟨j, hkj, hjk, -⟩ := hends
    omega
  | succ n ih =>
    rw [AmlsMain.printLoop] at hprint
    obtain ⟨c, hc, hprint⟩ := bind_eq_ok hprint
    rw [printLoop, Heap.load_of_ok hr hc, ok_bind]
    by_cases hmark : CharSign.signed.promote c = -1
    · rw [if_pos hmark] at hprint ⊢
      cases hprint
      rw [Heap.free_of_mem hr]
      rfl
    · rw [if_neg hmark] at hprint ⊢
      apply ih _ hprint
      obtain ⟨j, hkj, hjk, hj⟩ := hends
      have hne : j ≠ k := by
        rintro rfl
        rw [hc] at hj
        cases hj
        exact hmark promote_endMark
      exact ⟨j, by omega, by omega, hj⟩

theorem ends_of_filled {x : List Bool} (hx : x.length ≤ amlsArrayLen) {result : Block}
    (h : Filled result ((peres x).map bitChar) endMark) : Ends result 0 512 := by
  have hroom := length_peres_lt_amlsArrayLen hx
  refine ⟨(peres x).length, Nat.zero_le _, by rw [amlsArrayLen] at hroom; omega, ?_⟩
  have hload := h.load_end (by rw [List.length_map]; exact hroom)
  rwa [List.length_map] at hload

/-! ### Comparison with the program over arrays -/

/-- The program over arrays counts the allocations, which nothing but `amls` looks at. -/
def setMallocs (n : ℕ) (s : AmlsMain) : AmlsMain := { s with mallocs := n }

/-- The same variables, with room left in the buffer and nothing else in use. -/
structure Balanced (u : Utility) (t : AmlsMain) : Prop where
  same : ∃ n, t = setMallocs n u.state
  index : u.state.i < 512
  live : u.memory.live = {bufAddress}

private theorem resume_eq (heap : ℕ → Block) (frames n : ℕ) (s : AmlsMain) :
    AmlsMain.resume heap frames (setMallocs n s) =
      guarded (store s.buf s.i ((s.working - 48#32).setWidth 8)) (setMallocs n s) fun buf =>
      if s.i + 1 < 512 then .running (setMallocs n (stored buf s))
      else
        guarded (AmlsArrays.amls .signed heap frames buf 512 n) (setMallocs n (stored buf s)) fun r =>
        guarded (AmlsMain.printLoop r.1 512 0 s.out) (setMallocs n (stored buf s)) fun out =>
        .running (setMallocs r.2 (printed out (stored buf s))) := rfl

section Room
variable {al : Allocator} {frames : ℕ} (hframes : 10 ≤ frames) (hroom : 40 ≤ al.room)
include hframes hroom

/-- A full buffer is processed with the memory of 39 more blocks. Both programs print the same,
and the result is freed. -/
theorem processBuffer_balanced (heap : ℕ → Block) {u : Utility}
    (hlive : u.memory.live = {bufAddress}) (n : ℕ) :
    ∃ (result : Block) (mallocs' : ℕ) (out : List Byte) (m : Memory),
      AmlsArrays.amls .signed heap frames u.state.buf 512 n = .ok (result, mallocs') ∧
      AmlsMain.printLoop result 512 0 u.state.out = .ok out ∧
      processBuffer al frames u = .running ⟨printed out u.state, m⟩ ∧
      m.live = {bufAddress} := by
  set m := u.memory.put bufAddress u.state.buf with hm
  have hmlive : m.live = {bufAddress} := hlive
  have hbuf : m.contents bufAddress = u.state.buf := Heap.contents_put_self _ _ _
  obtain ⟨r, m', hamls, hgains, harrays⟩ := amls_arrays al hframes (h := m) (a := bufAddress)
    (by simp [hmlive]) 512 (Nat.le_refl 512) (by simpa [hmlive] using hroom)
  obtain ⟨mallocs', harray⟩ := harrays heap n
  rw [hbuf] at harray
  obtain ⟨result, mallocs'', harray', hfilled⟩ :=
    amls_filled heap n hframes u.state.buf 512 (Nat.le_refl 512) (Nat.le_refl 512)
  obtain ⟨rfl, -⟩ := Prod.mk.inj (Except.ok.inj (harray'.symm.trans harray))
  have hprint := printLoop_spec [] _ (n := 512) u.state.out hfilled rfl
  have hbits : (leadingBits (u.state.buf.toList.take 512)).length ≤ amlsArrayLen := by
    apply (length_leadingBits_le _).trans
    rw [List.length_take]
    exact Nat.min_le_left _ _
  have hprint' := printLoop_of_ok hgains.mem (ends_of_filled hbits hfilled) hprint
  refine ⟨_, mallocs', _, m'.drop r, harray, hprint, ?_, ?_⟩
  · unfold processBuffer
    dsimp only
    rw [← hm, hamls, accessing_ok, hprint', accessing_ok]
  · rw [Heap.live_drop, gains_erase hgains, hmlive]

theorem resume_balanced (heap : ℕ → Block) {u : Utility} {t : AmlsMain} (h : Balanced u t) :
    ∃ u' t', resume al frames u = .running u' ∧ AmlsMain.resume heap frames t = .running t' ∧
      Balanced u' t' := by
  obtain ⟨⟨n, rfl⟩, hindex, hlive⟩ := h
  have hstore : ∃ buf, store u.state.buf u.state.i ((u.state.working - 48#32).setWidth 8) =
      .ok buf := ⟨_, dif_pos hindex⟩
  obtain ⟨buf, hbuf⟩ := hstore
  rw [resume_eq]
  unfold resume
  dsimp only
  rw [hbuf, halting_ok, guarded_ok]
  by_cases hlt : u.state.i + 1 < 512
  · have hleft : (stored buf u.state).i < 512 := hlt
    rw [if_pos hleft, if_pos hlt]
    exact ⟨_, _, rfl, rfl, ⟨n, rfl⟩, hleft, hlive⟩
  · obtain ⟨result, mallocs', out, m, hamls, hprint, hprocess, hm⟩ :=
      processBuffer_balanced hframes hroom heap (u := ⟨stored buf u.state, u.memory⟩) hlive n
    have hamls' : AmlsArrays.amls .signed heap frames buf 512 n = .ok (result, mallocs') := hamls
    have hprint' : AmlsMain.printLoop result 512 0 u.state.out = .ok out := hprint
    have hleft : ¬(stored buf u.state).i < 512 := hlt
    rw [if_neg hleft, if_neg hlt, hprocess, hamls', guarded_ok, hprint', guarded_ok]
    exact ⟨_, _, rfl, rfl, ⟨mallocs', rfl⟩, Nat.zero_lt_succ _, hm⟩

/-- A read either ends both programs, or both go on. -/
theorem step_cases (heap : ℕ → Block) (r : ReadOutcome) {u : Utility} {t : AmlsMain}
    (h : Balanced u t) :
    (step al frames r u = .stopped (.halt (.exit 0)) u ∧
      AmlsMain.step heap frames r t = .stopped (.exit 0) t) ∨
    ∃ u' t', step al frames r u = .running u' ∧ AmlsMain.step heap frames r t = .running t' ∧
      Balanced u' t' := by
  obtain ⟨⟨n, rfl⟩, hindex, hlive⟩ := h
  have hreceived : Balanced ⟨received r u.state, u.memory⟩ (setMallocs n (received r u.state)) :=
    ⟨⟨n, rfl⟩, hindex, hlive⟩
  obtain ⟨u', t', hu', ht', hbalanced⟩ := resume_balanced hframes hroom heap hreceived
  cases r with
  | endOfFile => exact .inl ⟨rfl, rfl⟩
  | delivered _ | failed => exact .inr ⟨u', t', hu', ht', hbalanced⟩

theorem step_simulates (heap : ℕ → Block) (r : ReadOutcome) (u : Utility) (t : AmlsMain)
    (h : Balanced u t) :
    Outcome.Simulates Balanced Balanced (step al frames r u)
      ((AmlsMain.step heap frames r t).relabel Failure.halt) := by
  obtain ⟨hu, ht⟩ | ⟨u', t', hu, ht, hbalanced⟩ := step_cases hframes hroom heap r h
  · rw [hu, ht]
    exact .stopped _ h
  · rw [hu, ht]
    exact .running hbalanced

theorem step_halts (heap : ℕ → Block) (r : ReadOutcome) (u : Utility) (h : ∃ t, Balanced u t) :
    Outcome.Satisfies (fun u => ∃ t, Balanced u t) (fun why _ => why = .halt (.exit 0))
      (step al frames r u) := by
  obtain ⟨t, ht⟩ := h
  obtain ⟨hu, -⟩ | ⟨u', t', hu, -, hbalanced⟩ := step_cases hframes hroom heap r ht
  · rw [hu]
    exact .stopped rfl
  · rw [hu]
    exact .running ⟨t', hbalanced⟩

/-- With memory for 40 blocks the `amls` utility never makes a wrong access to the heap or to its
array, whatever it reads and whichever reads fail: only the end of the input ends it. It prints
what the program over arrays prints. Between two reads and at its end only the buffer is in use:
every result has been freed. -/
theorem amls_utility_never_leaks (heap : ℕ → Block) (buf : Vector Byte 512) (working : Word)
    (reads : List ReadOutcome) {m : Memory} (hm : m.live = {bufAddress}) :
    (∀ why u, main al frames reads ⟨AmlsMain.init buf working, m⟩ = .stopped why u →
      why = .halt (.exit 0)) ∧
      (main al frames reads ⟨AmlsMain.init buf working, m⟩).state.memory.live = {bufAddress} ∧
      (main al frames reads ⟨AmlsMain.init buf working, m⟩).state.state.out =
        (AmlsMain.main heap frames buf working reads).state.out := by
  have hinit : Balanced ⟨AmlsMain.init buf working, m⟩ (AmlsMain.init buf working) :=
    ⟨⟨0, rfl⟩, Nat.zero_lt_succ _, hm⟩
  have hrun : Outcome.Simulates Balanced Balanced (main al frames reads ⟨AmlsMain.init buf working, m⟩)
      ((AmlsMain.main heap frames buf working reads).relabel Failure.halt) := by
    rw [main, AmlsMain.main, Outcome.relabel_fold]
    exact Outcome.Simulates.fold (step_simulates hframes hroom heap) reads hinit
  have hhalts : Outcome.Satisfies (fun u => ∃ t, Balanced u t) (fun why _ => why = .halt (.exit 0))
      (main al frames reads ⟨AmlsMain.init buf working, m⟩) :=
    Outcome.Satisfies.fold (fun r _ => step_halts hframes hroom heap r) ⟨_, hinit⟩
  generalize main al frames reads ⟨AmlsMain.init buf working, m⟩ = o at hrun hhalts ⊢
  generalize AmlsMain.main heap frames buf working reads = o' at hrun ⊢
  cases o' with
  | running t =>
    cases hrun with
    | running h =>
      obtain ⟨n, rfl⟩ := h.same
      exact ⟨by simp, h.live, rfl⟩
  | stopped why t =>
    cases hrun with
    | stopped _ h =>
      obtain ⟨n, rfl⟩ := h.same
      refine ⟨?_, h.live, rfl⟩
      rintro why' u ⟨⟩
      cases hhalts with
      | stopped hwhy => exact hwhy

end Room

/-- A stream of 512 ones. -/
theorem amls_utility_never_leaks_ones :
    (∀ why u, main (.bump 40) 10 (readsOf (List.replicate 512 0x31#8))
        ⟨AmlsMain.init (Vector.replicate 512 0#8) 0#32, oneBlock⟩ = .stopped why u →
      why = .halt (.exit 0)) ∧
      (main (.bump 40) 10 (readsOf (List.replicate 512 0x31#8))
        ⟨AmlsMain.init (Vector.replicate 512 0#8) 0#32, oneBlock⟩).state.memory.live = {bufAddress} ∧
      (main (.bump 40) 10 (readsOf (List.replicate 512 0x31#8))
        ⟨AmlsMain.init (Vector.replicate 512 0#8) 0#32, oneBlock⟩).state.state.out =
        (AmlsMain.main oneBlock.contents 10 (Vector.replicate 512 0#8) 0#32
          (readsOf (List.replicate 512 0x31#8))).state.out :=
  amls_utility_never_leaks (Nat.le_refl 10) (Nat.le_refl 40) oneBlock.contents
    (Vector.replicate 512 0#8) 0#32 (readsOf (List.replicate 512 0x31#8)) rfl

end K7nvhRng.UtilityMemory
