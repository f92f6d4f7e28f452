import K7nvhRng.BlockHeap
import K7nvhRng.DaemonUnbiased
import K7nvhRng.DecimalText

/-!
# `distribution` on the output of the daemon

The utility counts how often each byte value occurs in a file and prints the 256 counts in one
line. On the output of the daemon no value is favoured over another: the distribution of the
printed line stays the same when the values are renamed.
-/

namespace K7nvhRng.ByteDistribution
open CheckedArrays BlockHeap DecimalText AmlsArrays LengthUniformCounting PeresExtractor BiasedSources
open DaemonLoop ChunkConversion WhiteningBuffer ChunkLedger DeviceInput DaemonUnbiased ListBlocks
open scoped ENNReal

/-- `unsigned long distribution [256]`, on a host where that type has 64 bits -/
abbrev Bins := Vector (BitVec 64) 256

/-- `distribution[(unsigned char)byte1]++` -/
def countByte (c : Byte) (distribution : Bins) : Except Fault Bins := do
  let n ← load distribution c.toNat
  store distribution c.toNat (n + 1#64)

/-- The loop that prints the counts, with `n` indices left, starting at `i`. -/
def printLoop (distribution : Bins) : ℕ → ℕ → String → Except Fault String
  | 0, _, out => .ok (out ++ "\r\n")
  | n + 1, i, out => do
    let v ← load distribution i
    printLoop distribution n (i + 1) (out ++ s!"{v.toNat} ")

/-- The loop over the file, until `fgetc` returns `EOF`. -/
def countLoop : List Byte → Bins → Except Fault String
  | [], distribution => printLoop distribution 256 0 ""
  | c :: rest, distribution => do
    let distribution ← countByte c distribution
    countLoop rest distribution

/-- What is printed for the file named by the first argument. The result of `fopen` is not
checked, so that a file that cannot be opened is read through a null pointer. -/
def main (file : Option (List Byte)) : Except MemoryFault String :=
  match file with
  | none => .error .null
  | some bytes => (countLoop bytes (Vector.replicate 256 0#64)).mapError .access

/-! ### What is printed -/

def line (bins : Byte → ℕ) : List ℕ → String
  | [] => "\r\n"
  | i :: is => s!"{bins (BitVec.ofNat 8 i)} " ++ line bins is

/-- The array holds the counts of the bytes so far. -/
def Holding (bs : List Byte) (distribution : Bins) : Prop :=
  ∀ i (h : i < 256), distribution[i] = BitVec.ofNat 64 (bs.count (BitVec.ofNat 8 i))

private theorem holding_nil : Holding [] (Vector.replicate 256 0#64) := by
  intro i h
  simp

private theorem countByte_spec {bs : List Byte} {d : Bins} (h : Holding bs d) (c : Byte) :
    ∃ d', countByte c d = .ok d' ∧ Holding (bs ++ [c]) d' := by
  have hlt : c.toNat < 256 := c.isLt
  refine ⟨d.set c.toNat (d[c.toNat] + 1#64), ?_, ?_⟩
  · rw [countByte, load, dif_pos hlt, ok_bind, store_of_lt _ hlt]
  · intro i hi
    rw [List.count_append, List.count_singleton, Vector.getElem_set]
    by_cases hc : c.toNat = i
    · have hbyte : c = BitVec.ofNat 8 i := by
        rw [← hc, BitVec.ofNat_toNat, BitVec.setWidth_eq]
      subst hc
      simp [h c.toNat hlt, BitVec.ofNat_add]
    · have hbyte : c ≠ BitVec.ofNat 8 i := by
        intro heq
        apply hc
        rw [heq, BitVec.toNat_ofNat, Nat.mod_eq_of_lt hi]
      simp [hc, hbyte, h i hi]

theorem printLoop_spec {bs : List Byte} {d : Bins} (h : Holding bs d) {n i : ℕ} (hn : i + n = 256)
    (out : String) :
    printLoop d n i out =
      .ok (out ++ line (fun b => bs.count b % 2 ^ 64) (List.range' i n)) := by
  induction n generalizing i out with
  | zero => rfl
  | succ n ih =>
    have hlt : i < 256 := by omega
    rw [printLoop, load, dif_pos hlt, ok_bind, ih (by omega), h i hlt, BitVec.toNat_ofNat,
      List.range'_succ, line, String.append_assoc]

theorem countLoop_spec {done : List Byte} {d : Bins} (h : Holding done d) (rest : List Byte) :
    countLoop rest d =
      .ok (line (fun b => (done ++ rest).count b % 2 ^ 64) (List.range' 0 256)) := by
  induction rest generalizing done d with
  | nil =>
    rw [countLoop, printLoop_spec h (by decide), List.append_nil, String.empty_append]
  | cons c rest ih =>
    obtain ⟨d', hcount, h'⟩ := countByte_spec h c
    rw [countLoop, hcount, ok_bind, ih h', List.append_assoc, List.singleton_append]

theorem main_some (bs : List Byte) :
    main (some bs) = .ok (line (fun b => bs.count b % 2 ^ 64) (List.range' 0 256)) := by
  rw [main, countLoop_spec holding_nil bs]
  rfl

/-! ### Reading the line back -/

theorem toList_line_cons (bins : Byte → ℕ) (i : ℕ) (is : List ℕ) :
    (line bins (i :: is)).toList =
      Nat.toDigits 10 (bins (BitVec.ofNat 8 i)) ++ ' ' :: (line bins is).toList := by
  rw [← Nat.toList_repr, line, String.toList_append, String.toList_append, List.append_assoc]
  rfl

theorem line_inj {bins bins' : Byte → ℕ} {is : List ℕ} (h : line bins is = line bins' is) :
    ∀ i ∈ is, bins (BitVec.ofNat 8 i) = bins' (BitVec.ofNat 8 i) := by
  induction is with
  | nil => simp
  | cons i is ih =>
    have hlist := congrArg String.toList h
    rw [toList_line_cons, toList_line_cons] at hlist
    obtain ⟨hfirst, hrest⟩ := toDigits_append_inj (by decide) hlist
    exact List.forall_mem_cons.mpr ⟨hfirst, ih (String.toList_injective hrest)⟩

theorem count_mod {bs : List Byte} (h : bs.length < 2 ^ 64) (b : Byte) :
    bs.count b % 2 ^ 64 = bs.count b :=
  Nat.mod_eq_of_lt (List.count_le_length.trans_lt h)

/-- A line is printed for each file, and two files give the same line exactly if they have the
same bytes, in some order. -/
theorem distribution_eq_iff_perm {bs bs' : List Byte} (h : bs.length < 2 ^ 64)
    (h' : bs'.length < 2 ^ 64) :
    ∃ t t', main (some bs) = .ok t ∧ main (some bs') = .ok t' ∧ (t = t' ↔ bs.Perm bs') := by
  refine ⟨_, _, main_some bs, main_some bs', ?_, ?_⟩
  · intro heq
    rw [List.perm_iff_count]
    intro b
    have hb := line_inj heq b.toNat (List.mem_range'_1.mpr (by omega))
    rwa [BitVec.ofNat_toNat, BitVec.setWidth_eq, count_mod h, count_mod h'] at hb
  · intro hperm
    simp only [hperm.count_eq]

theorem distribution_eq_iff_perm_swapped :
    ∃ t t', main (some [1#8, 2#8]) = .ok t ∧ main (some [2#8, 1#8]) = .ok t' ∧
      (t = t' ↔ [1#8, 2#8].Perm [2#8, 1#8]) :=
  distribution_eq_iff_perm (by decide) (by decide)

/-! ### The bytes of the daemon -/

variable {devices : ℕ}

private theorem count_map_symm (e : Byte ≃ Byte) (bs : List Byte) (b : Byte) :
    (bs.map e.symm).count b = bs.count (e b) := by
  have hcount := List.count_map_of_injective bs e.symm e.symm.injective (e b)
  rwa [e.symm_apply_apply] at hcount

/-- For a device that is biased in an unknown way, the output of the daemon favours no byte value:
under any renaming of the 256 values the string of bytes is as likely as before, and so is the
line that is printed for it when its columns are exchanged. -/
theorem daemon_bytes_exchangeable {host : Host} (hh : Assumed host) (coins : List (PMF Bool))
    (its : List (List Bool) → List (Iteration devices))
    (hits : ∀ xs, (∀ x ∈ xs, x.length = 512) → Feeds host (its xs) (xs.flatten.map asciiChar))
    (e : Byte ≃ Byte) :
    (tossBlocks 512 coins).map (fun xs => (output host its xs).map e) =
      (tossBlocks 512 coins).map (output host its) ∧
    (tossBlocks 512 coins).map (fun xs => main (some (output host its xs))) =
      (tossBlocks 512 coins).map (fun xs => .ok
        (line (fun b => (output host its xs).count (e b) % 2 ^ 64) (List.range' 0 256))) := by
  have hlaw : ∀ e : Byte ≃ Byte, (tossBlocks 512 coins).map (fun xs => (output host its xs).map e) =
      (tossBlocks 512 coins).map (output host its) := by
    intro e
    have hmap := map_map_equiv (fun _ _ hy =>
      tossBlocks_map_apply_congr (lengthUniform_output hh hits) coins hy) e
    rwa [PMF.map_comp] at hmap
  refine ⟨hlaw e, ?_⟩
  have hprint := congrArg (PMF.map fun bs => main (some bs)) (hlaw e.symm)
  rw [PMF.map_comp, PMF.map_comp] at hprint
  refine hprint.symm.trans (congrArg (fun f => PMF.map f (tossBlocks 512 coins)) ?_)
  funext xs
  simp only [Function.comp_apply, main_some, count_map_symm]

/-- Forty blocks of a device that prefers zeros, with all bits of the bytes inverted. -/
theorem daemon_bytes_exchangeable_inverted :
    (tossBlocks 512 (List.replicate 40 thirdCoin)).map
        (fun xs => (output fileHost (fun xs => feed (xs.flatten.map asciiChar)) xs).map
          (Function.Involutive.toPerm (fun b : Byte => ~~~b) fun _ => BitVec.not_not)) =
      (tossBlocks 512 (List.replicate 40 thirdCoin)).map
        (output fileHost fun xs => feed (xs.flatten.map asciiChar)) := by
  refine (daemon_bytes_exchangeable assumed_fileHost _ _
    (fun xs hxs => feeds_feed fileHost ?_) _).1
  rw [List.length_map, length_flatten_of_forall hxs]
  omega

end K7nvhRng.ByteDistribution
