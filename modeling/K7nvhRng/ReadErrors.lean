import K7nvhRng.UtilityOutputs

/-!
# Utilities whose reads fail

The utilities compare what `read` returns with 0 only. After an error the variable they
read into still holds its old value, so the byte in it is used once more and the program
goes on.
-/

namespace K7nvhRng.ReadErrors
open CheckedArrays AmlsArrays PeresExtractor BitPacking StoppableRuns StdinUtilities UtilityOutputs

def firstReads (o : ℕ → ReadOutcome) (n : ℕ) : List ReadOutcome := (List.range n).map o

theorem firstReads_succ (o : ℕ → ReadOutcome) (n : ℕ) :
    firstReads o (n + 1) = firstReads o n ++ [o n] := by
  simp [firstReads, List.range_succ]

private theorem exists_firstReads_eq {o : ℕ → ReadOutcome} {n : ℕ}
    (h : ∀ i < n, ∃ b, o i = .delivered b) : ∃ bs : List Byte, firstReads o n = bs.map .delivered := by
  induction n with
  | zero => exact ⟨[], rfl⟩
  | succ n ih =>
    obtain ⟨bs, hbs⟩ := ih fun i hi => h i (by omega)
    obtain ⟨b, hb⟩ := h n (by omega)
    exact ⟨bs ++ [b], by rw [firstReads_succ, hbs, hb, List.map_append, List.map_singleton]⟩

private theorem delivered_of_firstReads_eq {o : ℕ → ReadOutcome} {n : ℕ} {bs : List Byte}
    (h : firstReads o n = bs.map .delivered) (i : ℕ) (hi : i < n) : ∃ b, o i = .delivered b := by
  have hmem : o i ∈ firstReads o n := List.mem_map_of_mem (List.mem_range.mpr hi)
  rw [h] at hmem
  obtain ⟨b, -, hb⟩ := List.mem_map.mp hmem
  exact ⟨b, hb.symm⟩

/-- The program runs as long as bytes are delivered, and ends normally at the first other
outcome, having written what it writes for the bytes delivered before. -/
def StopsAtFirst {σ : Type} (f : ReadOutcome → σ → Outcome Halt σ) (out : σ → List Byte) (s : σ)
    (o : ℕ → ReadOutcome) : Prop :=
  ∀ n bs, firstReads o n = bs.map .delivered →
    (∃ t, Outcome.fold f (firstReads o n) s = .running t) ∧
    ((∀ b, o n ≠ .delivered b) →
      ∃ t t', Outcome.fold f (firstReads o (n + 1)) s = .stopped (.exit 0) t ∧
        Outcome.fold f (readsOf bs) s = .stopped (.exit 0) t' ∧ out t = out t')

/-- The first outcome that is no byte, if there is one, is the end of the file. -/
def FirstStopIsEnd (o : ℕ → ReadOutcome) : Prop :=
  ∀ n, (∀ i < n, ∃ b, o i = .delivered b) → o n ≠ .failed

theorem stopsAtFirst_iff {σ : Type} {f : ReadOutcome → σ → Outcome Halt σ} {out : σ → List Byte}
    {s : σ} {R : List Byte → σ → Prop}
    (hstep : ∀ bs b s, R bs s → ∃ s', f (.delivered b) s = .running s' ∧ R (bs ++ [b]) s')
    (hend : ∀ s, f .endOfFile s = .stopped (.exit 0) s)
    (hstale : ∀ s, ∃ b, f .failed s = f (.delivered b) s) (h : R [] s) (o : ℕ → ReadOutcome) :
    StopsAtFirst f out s o ↔ FirstStopIsEnd o := by
  have hrun : ∀ n bs, firstReads o n = bs.map .delivered →
      ∃ t, Outcome.fold f (firstReads o n) s = .running t ∧ R bs t := by
    intro n bs hbs
    rw [hbs]
    exact Outcome.fold_map_running hstep h bs
  constructor
  · intro hstop n hall hfail
    obtain ⟨bs, hbs⟩ := exists_firstReads_eq hall
    obtain ⟨t, ht, hR⟩ := hrun n bs hbs
    obtain ⟨b, hb⟩ := hstale t
    obtain ⟨t', ht', -⟩ := hstep bs b t hR
    obtain ⟨u, -, hu, -⟩ := (hstop n bs hbs).2 (by simp [hfail])
    rw [firstReads_succ, Outcome.fold_append, ht, Outcome.andThen_running, hfail,
      Outcome.fold_singleton, hb, ht'] at hu
    cases hu
  · intro hclean n bs hbs
    obtain ⟨t, ht, -⟩ := hrun n bs hbs
    refine ⟨⟨t, ht⟩, fun hother => ?_⟩
    have hfail := hclean n (delivered_of_firstReads_eq hbs)
    have heof : o n = .endOfFile := by
      cases hn : o n with
      | delivered b => exact absurd hn (hother b)
      | endOfFile => rfl
      | failed => exact absurd hn hfail
    have hreads : firstReads o (n + 1) = readsOf bs := by
      rw [firstReads_succ, hbs, heof, readsOf]
    have hfold : Outcome.fold f (readsOf bs) s = .stopped (.exit 0) t := by
      rw [readsOf, Outcome.fold_append, ← hbs, ht, Outcome.andThen_running,
        Outcome.fold_singleton, hend]
    exact ⟨t, t, by rw [hreads, hfold], hfold, rfl⟩

/-- Reading the byte that the word already holds changes nothing. -/
theorem into_fputc (w : Word) : (ReadOutcome.delivered (fputc w)).into w = w := by
  have hmask : ∀ j < 32, (0xffffff00#32).getLsbD j = decide (8 ≤ j) := by decide
  apply BitVec.eq_of_getLsbD_eq
  intro j hj
  rw [ReadOutcome.into, BitVec.getLsbD_or, BitVec.getLsbD_and, hmask j hj, fputc]
  simp only [BitVec.getLsbD_setWidth, hj, decide_true, Bool.true_and]
  by_cases h8 : 8 ≤ j
  · simp [h8, show ¬j < 8 by omega]
  · simp [h8, show j < 8 by omega]

private theorem xor512_failed (s : Xor512) :
    Xor512.step .failed s = Xor512.step (.delivered (fputc s.working)) s := by
  simp only [Xor512.step, into_fputc]
  rfl

private theorem vonNeumann_failed (s : VonNeumann) :
    VonNeumann.step .failed s = VonNeumann.step (.delivered (fputc s.input)) s := by
  simp only [VonNeumann.step, into_fputc]
  rfl

private theorem amlsMain_failed (heap : ℕ → Block) (frames : ℕ) (s : AmlsMain) :
    AmlsMain.step heap frames .failed s =
      AmlsMain.step heap frames (.delivered (fputc s.working)) s := by
  simp only [AmlsMain.step, into_fputc]
  rfl

/-- Each of the three utilities stops at the first outcome that is no byte, with the right
output, exactly when this outcome is not an error. -/
theorem utilities_stop_iff (heap : ℕ → Block) (frames : ℕ) (hframes : 10 ≤ frames)
    (buf : Vector Byte 512) (working input : Word) (o : ℕ → ReadOutcome) :
    (StopsAtFirst Xor512.step Xor512.out Xor512.init o ↔ FirstStopIsEnd o) ∧
    (StopsAtFirst VonNeumann.step VonNeumann.out (VonNeumann.init input) o ↔
      FirstStopIsEnd o) ∧
    (StopsAtFirst (AmlsMain.step heap frames) AmlsMain.out (AmlsMain.init buf working) o ↔
      FirstStopIsEnd o) := by
  refine ⟨?_, ?_, ?_⟩
  · exact stopsAtFirst_iff (R := Mixing) (fun _ b _ h => xor512_step h b) (fun _ => rfl)
      (fun s => ⟨_, xor512_failed s⟩) mixing_init o
  · exact stopsAtFirst_iff (R := fun bs => Packed (vonNeumann (bs.flatMap msbBits)))
      (fun _ b _ h => vonNeumann_step_bytes h b) (fun _ => rfl)
      (fun s => ⟨_, vonNeumann_failed s⟩) (packed_init input) o
  · exact stopsAtFirst_iff (R := Printed) (fun _ b _ h => amlsMain_step heap hframes h b)
      (fun _ => rfl) (fun s => ⟨_, amlsMain_failed heap frames s⟩) (printed_init buf working) o

def twoBytes (n : ℕ) : ReadOutcome := if n < 2 then .delivered 0x66#8 else .endOfFile

theorem utilities_stop_iff_twoBytes :
    StopsAtFirst Xor512.step Xor512.out Xor512.init twoBytes ∧
    StopsAtFirst VonNeumann.step VonNeumann.out (VonNeumann.init 0#32) twoBytes ∧
    StopsAtFirst (AmlsMain.step (fun _ => Vector.replicate amlsArrayLen 0#8) 10) AmlsMain.out
      (AmlsMain.init (Vector.replicate 512 0#8) 0#32) twoBytes := by
  have hend : FirstStopIsEnd twoBytes := by
    intro n _
    rw [twoBytes]
    split <;> simp
  obtain ⟨hxor, hvonNeumann, hamls⟩ := utilities_stop_iff
    (fun _ => Vector.replicate amlsArrayLen 0#8) 10 (by decide) (Vector.replicate 512 0#8) 0#32 0#32
    twoBytes
  exact ⟨hxor.mpr hend, hvonNeumann.mpr hend, hamls.mpr hend⟩

def oneByteThenErrors (n : ℕ) : ReadOutcome := if n = 0 then .delivered 0x66#8 else .failed

/-- The byte read is used a second time and completes a byte of output, although for this byte
alone nothing is to be written. -/
theorem vonNeumann_repeats_byte :
    ¬StopsAtFirst VonNeumann.step VonNeumann.out (VonNeumann.init 0#32) oneByteThenErrors ∧
    (∃ s, VonNeumann.main 0#32 (firstReads oneByteThenErrors 2) = .running s ∧
      s.out = [0x55#8]) ∧
    ∃ s, VonNeumann.main 0#32 (readsOf [0x66#8]) = .stopped (.exit 0) s ∧ s.out = [] := by
  have hfirst : VonNeumann.step (.delivered 0x66#8) (VonNeumann.init 0#32) =
      .running ⟨0x66#32, 0x50#32, 4, []⟩ := rfl
  have hsecond : VonNeumann.step .failed ⟨0x66#32, 0x50#32, 4, []⟩ =
      .running ⟨0x66#32, 0#32, 0, [0x55#8]⟩ := rfl
  have htwo : Outcome.fold VonNeumann.step (firstReads oneByteThenErrors 2)
      (VonNeumann.init 0#32) = .running ⟨0x66#32, 0#32, 0, [0x55#8]⟩ := by
    change Outcome.fold VonNeumann.step [.delivered 0x66#8, .failed] _ = _
    rw [Outcome.fold_cons, hfirst, Outcome.andThen_running, Outcome.fold_singleton, hsecond]
  refine ⟨?_, ⟨_, htwo, rfl⟩, ⟨⟨0x66#32, 0x50#32, 4, []⟩, ?_, rfl⟩⟩
  · intro h
    obtain ⟨t, -, ht, -⟩ := (h 1 [0x66#8] rfl).2 (by simp [oneByteThenErrors])
    rw [htwo] at ht
    cases ht
  · change Outcome.fold VonNeumann.step [.delivered 0x66#8, .endOfFile] _ = _
    rw [Outcome.fold_cons, hfirst]
    rfl

end K7nvhRng.ReadErrors
