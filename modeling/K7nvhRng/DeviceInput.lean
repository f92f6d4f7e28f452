import K7nvhRng.ChunkLedger

/-!
# Runs that are fed a given string of characters

A schedule of iterations feeds a string when every chunk is read in full and the chunks
read, from whichever devices, make up the string. When it consists of bits, the groups of the
ledger are its blocks of 512.
-/

namespace K7nvhRng.DeviceInput
open AmlsArrays AmlsExactness ListBlocks PeresExtractor StoppableRuns DaemonLoop ChunkConversion
open ChunkLedger

variable {devices : ℕ}

def Event.chars : Event devices → List Byte
  | .tick _ => []
  | .read _ r => r.bytes.toList

/-- The schedule reads the characters `x` and meets no error of the system. -/
structure Feeds (host : Host) (its : List (Iteration devices)) (x : List Byte) : Prop where
  reads : ∀ i r, Event.read i r ∈ its.flatMap Iteration.events → r.n = 128
  ticks : ∀ rndcount, Event.tick rndcount ∈ its.flatMap Iteration.events →
    poolError host rndcount = none
  chars : (its.flatMap Iteration.events).flatMap Event.chars = x

private theorem fold_record {host : Host} {es : List (Event devices)} {x : List Bool}
    (hreads : ∀ i r, Event.read i r ∈ es → r.n = 128)
    (hticks : ∀ rndcount, Event.tick rndcount ∈ es → poolError host rndcount = none)
    (hchars : es.flatMap Event.chars = x.map asciiChar) (l : Ledger devices)
    (hl : ∀ c ∈ l.chunks, c.2.length = 128) :
    ∃ l', Outcome.fold (record host) es l = .running l' ∧
      (l'.chunks.map Prod.snd).flatten = (l.chunks.map Prod.snd).flatten ++ x ∧
      ∀ c ∈ l'.chunks, c.2.length = 128 := by
  induction es generalizing x l with
  | nil =>
    have hx : x = [] := by simpa [eq_comm] using hchars
    exact ⟨l, rfl, by rw [hx, List.append_nil], hl⟩
  | cons e es ih =>
    have hreads' : ∀ i r, Event.read i r ∈ es → r.n = 128 := fun i r hr => hreads i r (by simp [hr])
    have hticks' : ∀ rndcount, Event.tick rndcount ∈ es → poolError host rndcount = none :=
      fun rndcount hr => hticks rndcount (by simp [hr])
    rw [List.flatMap_cons] at hchars
    rw [Outcome.fold_cons]
    cases e with
    | tick rndcount =>
      rw [record, hticks rndcount (by simp)]
      exact ih hreads' hticks' hchars { l with marks := l.marks ++ [l.chunks] } hl
    | read i r =>
      obtain ⟨bits, x', rfl, hbits, hx'⟩ := List.map_eq_append_iff.mp hchars.symm
      have hlen : bits.length = 128 := by
        rw [← List.length_map asciiChar, hbits]
        exact Vector.length_toList
      rw [record, samples_of_bits host i (hreads i r (by simp)) hbits.symm]
      obtain ⟨l', hfold, hl', hlens⟩ := ih hreads' hticks' hx'.symm
        { l with chunks := l.chunks ++ [(i, bits)] } (by
          intro c hc
          rcases List.mem_append.mp hc with hc | hc
          · exact hl c hc
          · rw [List.mem_singleton.mp hc, hlen])
      exact ⟨l', hfold, by rw [hl']; simp, hlens⟩

theorem Feeds.ledger {host : Host} {its : List (Iteration devices)} {x : List Bool}
    (h : Feeds host its (x.map asciiChar)) :
    ∃ l, ChunkLedger.ledger host its = .running l ∧ (l.chunks.map Prod.snd).flatten = x ∧
      groups l.chunks = blocks 512 x := by
  obtain ⟨l, hfold, hflat, hlens⟩ := fold_record h.reads h.ticks h.chars (Ledger.empty devices)
    (by simp [Ledger.empty])
  have hflat' : (l.chunks.map Prod.snd).flatten = x := by simpa [Ledger.empty] using hflat
  refine ⟨l, hfold, hflat', ?_⟩
  have hmem : ∀ c ∈ l.chunks.map Prod.snd, c.length = 128 := by
    intro c hc
    obtain ⟨d, hd, rfl⟩ := List.mem_map.mp hc
    exact hlens d hd
  rw [groups, ← (blocks_flatten (by decide) (by decide) hmem).1, hflat']

theorem feeds_feed (host : Host) {x : List Byte} (hx : 128 ∣ x.length) :
    Feeds host (feed x) x where
  reads := by
    intro i r hr
    rw [events_feed, List.mem_map] at hr
    obtain ⟨c, -, hc⟩ := hr
    cases hc
    rfl
  ticks := by
    intro rndcount hr
    rw [events_feed, List.mem_map] at hr
    obtain ⟨c, -, hc⟩ := hr
    cases hc
  chars := by
    rw [events_feed, List.flatMap_map]
    conv_rhs => rw [← flatten_blocks_of_dvd hx, ← List.flatMap_id]
    exact List.flatMap_congr fun c hc => toList_readOf (length_of_mem_blocks hc)

/-! ### A string with many bits to extract -/

def alternating (n : ℕ) : List Bool := (List.replicate n [false, true]).flatten

theorem length_alternating (n : ℕ) : (alternating n).length = 2 * n := by
  simp [alternating, Nat.mul_comm]

theorem vonNeumann_alternating (n : ℕ) : vonNeumann (alternating n) = List.replicate n false := by
  rw [alternating, vonNeumann_flatten (by simp), List.flatMap_replicate]
  exact List.flatten_replicate_singleton

theorem length_extracted_alternating {n : ℕ} (hn : 256 ∣ n) :
    n ≤ ((blocks 512 (alternating n)).flatMap amlsBits).length := by
  have hblocks : (blocks 512 (alternating n)).flatMap vonNeumann = List.replicate n false := by
    rw [← vonNeumann_alternating, ← vonNeumann_flatten, flatten_blocks_of_dvd]
    · rw [length_alternating]
      omega
    · intro b hb
      rw [length_of_mem_blocks hb]
      decide
  have hlen := congrArg List.length hblocks
  rw [List.length_replicate, List.length_flatMap] at hlen
  rw [List.length_flatMap]
  refine hlen.symm.trans_le (List.sum_le_sum fun b hb => ?_)
  rw [amlsBits_eq_peres (length_of_mem_blocks hb).le, peres_eq]
  simp

end K7nvhRng.DeviceInput
