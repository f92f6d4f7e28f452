import K7nvhRng.ChunkLedger

/-!
# A failed delivery only cuts the output short

A byte that cannot be delivered ends the process at once. Compared with a host where every
delivery succeeds, the event in which this happens is cut short: it has given the same block
to `amls`, and has output and credited no more.
-/

namespace K7nvhRng.FailingDeliveries
open CheckedArrays AmlsArrays StoppableRuns DaemonLoop WhiteningBuffer ChunkLedger

variable {devices : ℕ}

def reliable (host : Host) : Host := { host with deliveryError := fun _ => none }

theorem assumed_reliable {host : Host} (hsigned : host.charSign = .signed)
    (hframes : 10 ≤ host.frames) : Assumed (reliable host) := ⟨hsigned, hframes, fun _ => rfl⟩

/-- The second state has processed the same blocks, and has output and credited at least as
much as the first. -/
def Behind (s t : State devices) : Prop :=
  s.processed = t.processed ∧ s.delivered <+: t.delivered ∧ s.credited ≤ t.credited

theorem Behind.refl (s : State devices) : Behind s s := ⟨rfl, List.prefix_rfl, Nat.le_refl _⟩

theorem Behind.trans (s t u : State devices) (h : Behind s t) (h' : Behind t u) : Behind s u :=
  ⟨h.1.trans h'.1, h.2.1.trans h'.2.1, Nat.le_trans h.2.2 h'.2.2⟩

/-! ### The output only grows -/

theorem behind_checked {α : Type} (x : Except Fault α) {s₀ s : State devices}
    {f : α → Run devices} (hs : Behind s₀ s) (hf : ∀ a, Behind s₀ (f a).state) :
    Behind s₀ (checked x s f).state := by
  cases x with
  | ok a => exact hf a
  | error e => exact hs

theorem behind_ite {p : Prop} [Decidable p] {s : State devices} {o o' : Run devices}
    (h : p → Behind s o.state) (h' : ¬p → Behind s o'.state) :
    Behind s (if p then o else o').state := by
  split
  · exact h ‹_›
  · exact h' ‹_›

private theorem deliver_grows (host : Host) (value : Byte) :
    Outcome.Grows Behind (deliver host value : State devices → Run devices) := by
  intro s
  unfold deliver
  split
  · exact Behind.refl s
  · exact ⟨rfl, List.prefix_append _ _, Nat.le_add_right _ _⟩

theorem mixByte_grows (host : Host) (l : ℕ) :
    Outcome.Grows Behind (mixByte host l : State devices → Run devices) := by
  intro s
  refine behind_checked _ (Behind.refl s) fun a => behind_checked _ (Behind.refl s) fun b => ?_
  exact deliver_grows host (a ^^^ b) { s with entCount := s.entCount + 1 }

private theorem flush_grows (host : Host) :
    Outcome.Grows Behind (flush host : State devices → Run devices) :=
  (Outcome.Grows.fold Behind.refl Behind.trans (mixByte_grows host) _).andThen Behind.trans
    fun s => Behind.refl s

private theorem behind_packed (sg : CharSign) (r : Byte) (bw : Vector Byte 1024)
    (s : State devices) :
    Behind s (advance { countBit sg r s with bufWhitened := bw }) := by
  unfold advance countBit
  split_ifs <;> exact Behind.refl s

private theorem packBit_grows (host : Host) (r : Byte) :
    Outcome.Grows Behind (packBit host r : State devices → Run devices) := by
  intro s
  have hcount : Behind s (countBit host.charSign r s) := by
    unfold countBit
    split_ifs <;> exact Behind.refl s
  refine behind_checked _ hcount fun c => behind_checked _ hcount fun bw => ?_
  have hpacked := behind_packed host.charSign r bw s
  exact behind_ite (fun _ => hpacked.trans _ _ _ (flush_grows host _)) fun _ => hpacked

theorem packLoop_grows (host : Host) (r : Block) (n k : ℕ) :
    Outcome.Grows Behind (packLoop host r n k : State devices → Run devices) := by
  induction n generalizing k with
  | zero => exact fun s => Behind.refl s
  | succ n ih =>
    intro s
    refine behind_checked _ (Behind.refl s) fun c => ?_
    refine behind_ite (fun _ => Behind.refl s) fun _ => ?_
    exact (packBit_grows host c).andThen Behind.trans (ih (k + 1)) s

/-! ### Comparison with the reliable host -/

theorem cutShort_checked {α : Type} (x : Except Fault α) {s : State devices}
    {f g : α → Run devices} (h : ∀ a, Outcome.CutShort Behind (f a) (g a)) :
    Outcome.CutShort Behind (checked x s f) (checked x s g) := by
  cases x with
  | ok a => exact h a
  | error e => exact .same _

theorem cutShort_ite {p : Prop} [Decidable p] {a a' b b' : Run devices}
    (h : p → Outcome.CutShort Behind a a') (h' : ¬p → Outcome.CutShort Behind b b') :
    Outcome.CutShort Behind (if p then a else b) (if p then a' else b') := by
  split
  · exact h ‹_›
  · exact h' ‹_›

private theorem deliver_cutShort (host : Host) (value : Byte) (s : State devices) :
    Outcome.CutShort Behind (deliver host value s) (deliver (reliable host) value s) := by
  unfold deliver
  split
  · exact .cut _ ⟨rfl, List.prefix_append _ _, Nat.le_add_right _ _⟩
  · exact .same _

private theorem flush_cutShort (host : Host) (s : State devices) :
    Outcome.CutShort Behind (flush host s) (flush (reliable host) s) := by
  refine Outcome.CutShort.andThen Behind.trans
    (Outcome.CutShort.fold Behind.refl Behind.trans (fun l t => ?_) (mixByte_grows _) _ s)
    (fun t => .same _) fun t => Behind.refl t
  exact cutShort_checked _ fun a => cutShort_checked _ fun b => deliver_cutShort host _ _

private theorem packBit_cutShort (host : Host) (r : Byte) (s : State devices) :
    Outcome.CutShort Behind (packBit host r s) (packBit (reliable host) r s) := by
  refine cutShort_checked _ fun c => cutShort_checked _ fun bw => ?_
  exact cutShort_ite (fun _ => flush_cutShort host _) fun _ => .same _

private theorem packLoop_cutShort (host : Host) (r : Block) (n k : ℕ) (s : State devices) :
    Outcome.CutShort Behind (packLoop host r n k s) (packLoop (reliable host) r n k s) := by
  induction n generalizing k s with
  | zero => exact .same _
  | succ n ih =>
    refine cutShort_checked _ fun c => ?_
    refine cutShort_ite (fun _ => .same _) fun _ => ?_
    exact (packBit_cutShort host c s).andThen Behind.trans (fun t => ih (k + 1) t)
      (packLoop_grows _ r n (k + 1))

theorem processBuffer_cutShort (host : Host) (s : State devices) :
    Outcome.CutShort Behind (processBuffer host s) (processBuffer (reliable host) s) := by
  refine cutShort_checked _ fun r => ?_
  exact (packLoop_cutShort host r.1 512 0 _).andThen Behind.trans (fun t => .same _)
    fun t => Behind.refl t

theorem step_cutShort (host : Host) (e : Event devices) (s : State devices) :
    Outcome.CutShort Behind (step host e s) (step (reliable host) e s) := by
  cases e with
  | tick rndcount => exact .same _
  | read i r =>
    refine cutShort_checked _ fun buf => cutShort_ite (fun _ => .same _) fun _ => ?_
    exact Outcome.CutShort.andThen_same _ fun t =>
      cutShort_ite (fun _ => processBuffer_cutShort host _) fun _ => .same _

end K7nvhRng.FailingDeliveries
