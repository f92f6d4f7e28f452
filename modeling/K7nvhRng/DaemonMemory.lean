import K7nvhRng.AmlsMemory
import K7nvhRng.DeliveryPrefix

/-!
# The memory of the daemon

The main loop once more, with the heap that `amls` allocates its blocks from. The buffer
`buf` is kept in a block of its own that is never freed. Compared with the loop over
arrays, which hands out as many blocks as are asked for, the run is the same, and the
result of `amls` is freed before the next chunk is read.
-/

namespace K7nvhRng.DaemonMemory
open CheckedArrays BlockHeap AmlsArrays AmlsMemory StoppableRuns DaemonLoop WhiteningBuffer
open ChunkLedger

variable {devices : ℕ}

def bufAddress : ℕ := 0

structure Process (devices : ℕ) where
  state : State devices
  memory : Memory

/-- Why the process ends: for a reason of the loop, or by a wrong access to memory. -/
inductive Failure where
  | loop (why : Stop)
  | memory (f : MemoryFault)

abbrev Execution (devices : ℕ) := Outcome Failure (Process devices)

/-- A part of the loop that leaves the heap alone. -/
def within (m : Memory) : Run devices → Execution devices
  | .running s => .running ⟨s, m⟩
  | .stopped why s => .stopped (.loop why) ⟨s, m⟩

/-- A call that works on the heap. -/
def accessing {α : Type} (x : Except MemoryFault α) (p : Process devices)
    (f : α → Execution devices) : Execution devices :=
  Outcome.check (x.mapError Failure.memory) p f

@[simp] theorem accessing_ok {α : Type} (a : α) (p : Process devices) (f : α → Execution devices) :
    accessing (.ok a) p f = f a := rfl

def recordBlock (s : State devices) : State devices :=
  { s with processed := s.processed ++ [s.buf] }

def startOver (s : State devices) : State devices := { s with bufPos := 0 }

/-- Run `amls` on the full buffer, pack its bits, free its result and start the buffer over. -/
def processBuffer (host : Host) (al : Allocator) (p : Process devices) : Execution devices :=
  let s := recordBlock p.state
  let m := p.memory.put bufAddress p.state.buf
  accessing (AmlsMemory.amls al host.charSign host.frames (some bufAddress) 512 m) ⟨s, m⟩ fun r =>
  accessing (r.2.read r.1) ⟨s, r.2⟩ fun amlsResult =>
  (within r.2 (packLoop host amlsResult 512 0 s)).andThen fun p =>
  accessing (p.memory.free r.1) p fun m =>
  .running ⟨startOver p.state, m⟩

/-- Store and convert a chunk that `read` was called for. -/
def receive (host : Host) (i : Fin devices) (r : ReadResult) (s : State devices) : Run devices :=
  checked (storeBytes s.buf s.bufPos r.bytes) s fun buf =>
  let s := { s with buf := buf }
  if r.n ≠ 128 then
    .stopped (readFailure (host.deviceName i) r.n r.error) s
  else
    (Outcome.fold (convertChar host i) (List.range 128) s).andThen fun s =>
    .running { s with bufPos := s.bufPos + 128 }

def acceptRead (host : Host) (al : Allocator) (i : Fin devices) (r : ReadResult)
    (p : Process devices) : Execution devices :=
  (within p.memory (receive host i r p.state)).andThen fun p =>
  if p.state.bufPos ≥ 512 then processBuffer host al p else .running p

def step (host : Host) (al : Allocator) (e : Event devices) (p : Process devices) :
    Execution devices :=
  match e with
  | .tick rndcount => within p.memory (tick host rndcount p.state)
  | .read i r => acceptRead host al i r p

def mainLoop (host : Host) (al : Allocator) (its : List (Iteration devices))
    (p : Process devices) : Execution devices :=
  Outcome.fold (step host al) (its.flatMap Iteration.events) p

/-! ### The number of allocations is not noticed -/

/-- The loop over arrays counts the allocations, which nothing but `amls` looks at. -/
def setMallocs (n : ℕ) (s : State devices) : State devices := { s with mallocs := n }

theorem checked_map {α : Type} {g : State devices → State devices} (x : Except Fault α)
    (s : State devices) {f f' : α → Run devices} (h : ∀ a, f' a = (f a).map g) :
    checked x (g s) f' = (checked x s f).map g :=
  Outcome.check_map _ s h

private theorem deliver_unnoticed (host : Host) (value : Byte) (n : ℕ) :
    Outcome.Unnoticed (setMallocs n) (deliver host value : State devices → Run devices) := by
  intro s
  unfold deliver
  rw [show (setMallocs n s).delivered = s.delivered from rfl]
  split <;> rfl

private theorem mixByte_unnoticed (host : Host) (l n : ℕ) :
    Outcome.Unnoticed (setMallocs n) (mixByte host l : State devices → Run devices) := fun s =>
  checked_map _ s fun _ => checked_map _ s fun _ =>
    deliver_unnoticed host _ n { s with entCount := s.entCount + 1 }

private theorem flush_unnoticed (host : Host) (n : ℕ) :
    Outcome.Unnoticed (setMallocs n) (flush host : State devices → Run devices) :=
  (Outcome.Unnoticed.fold (fun l => mixByte_unnoticed host l n) _).andThen fun _ => rfl

private theorem countBit_setMallocs (sg : CharSign) (r : Byte) (n : ℕ) (s : State devices) :
    countBit sg r (setMallocs n s) = setMallocs n (countBit sg r s) := by
  unfold countBit
  split <;> rfl

private theorem advance_setMallocs (n : ℕ) (s : State devices) :
    advance (setMallocs n s) = setMallocs n (advance s) := by
  unfold advance
  rw [show (setMallocs n s).bufWhitenedBit = s.bufWhitenedBit from rfl]
  split <;> rfl

private theorem packBit_unnoticed (host : Host) (r : Byte) (n : ℕ) :
    Outcome.Unnoticed (setMallocs n) (packBit host r : State devices → Run devices) := by
  intro s
  simp only [packBit, countBit_setMallocs]
  set t := countBit host.charSign r s
  refine checked_map _ t fun _ => checked_map _ t fun bw => ?_
  set u := advance { t with bufWhitened := bw } with hu
  have hadvance : advance { setMallocs n t with bufWhitened := bw } = setMallocs n u :=
    advance_setMallocs n { t with bufWhitened := bw }
  simp only [hadvance]
  by_cases hfull : u.bufWhitenedPos ≥ 1024
  · rw [if_pos hfull, if_pos (show (setMallocs n u).bufWhitenedPos ≥ 1024 from hfull)]
    exact flush_unnoticed host n u
  · rw [if_neg hfull, if_neg (show ¬(setMallocs n u).bufWhitenedPos ≥ 1024 from hfull)]
    rfl

private theorem packLoop_unnoticed (host : Host) (r : Block) (k j n : ℕ) :
    Outcome.Unnoticed (setMallocs n) (packLoop host r k j : State devices → Run devices) := by
  induction k generalizing j with
  | zero => exact fun s => rfl
  | succ k ih =>
    intro s
    refine checked_map _ s fun c => ?_
    split
    · rfl
    · exact (packBit_unnoticed host c n).andThen (ih (j + 1)) s

private theorem convertChar_unnoticed (host : Host) (i : Fin devices) (j n : ℕ) :
    Outcome.Unnoticed (setMallocs n) (convertChar host i j) := by
  intro s
  refine checked_map _ s fun c => ?_
  dsimp only
  split
  · rfl
  · split
    · exact checked_map _ s fun _ => rfl
    · exact checked_map _ s fun _ => rfl

private theorem receive_unnoticed (host : Host) (i : Fin devices) (r : ReadResult) (n : ℕ) :
    Outcome.Unnoticed (setMallocs n) (receive host i r) := by
  intro s
  refine checked_map _ s fun buf => ?_
  dsimp only
  split
  · rfl
  · have hfold : Outcome.Unnoticed (setMallocs n) fun s : State devices =>
        (Outcome.fold (convertChar host i) (List.range 128) s).andThen fun s =>
          .running { s with bufPos := s.bufPos + 128 } :=
      (Outcome.Unnoticed.fold (fun j => convertChar_unnoticed host i j n) _).andThen fun _ => rfl
    exact hfold { s with buf := buf }

private theorem tick_unnoticed (host : Host) (rndcount : Except SysError ℤ) (n : ℕ) :
    Outcome.Unnoticed (setMallocs n) (tick host rndcount : State devices → Run devices) := by
  intro s
  unfold tick
  cases host.sink <;> cases rndcount <;> rfl

private theorem processBuffer_eq (host : Host) (t : State devices) :
    DaemonLoop.processBuffer host t =
      checked (AmlsArrays.amls host.charSign host.heap host.frames t.buf 512 t.mallocs)
        (recordBlock t) fun r => (packLoop host r.1 512 0 (setMallocs r.2 (recordBlock t))).andThen
          fun s => .running (startOver s) := rfl

theorem acceptRead_eq (host : Host) (i : Fin devices) (r : ReadResult) (s : State devices) :
    DaemonLoop.acceptRead host i r s = (receive host i r s).andThen fun s =>
      if s.bufPos ≥ 512 then DaemonLoop.processBuffer host s else .running s := by
  unfold DaemonLoop.acceptRead receive checked
  cases storeBytes s.buf s.bufPos r.bytes with
  | error f => rfl
  | ok buf =>
    simp only [Except.mapError, Outcome.check]
    split
    · rfl
    · rw [Outcome.andThen_assoc]
      rfl

/-! ### Comparison with the loop over arrays -/

def Agrees (p : Process devices) (t : State devices) : Prop := ∃ n, t = setMallocs n p.state

/-- The same state, with nothing but the buffer in use. -/
def Balanced (p : Process devices) (t : State devices) : Prop :=
  Agrees p t ∧ p.memory.live = {bufAddress}

theorem within_simulates {f : State devices → Run devices}
    (hf : ∀ n, Outcome.Unnoticed (setMallocs n) f) {p : Process devices} {t : State devices}
    (h : Agrees p t) :
    Outcome.Simulates (fun q u => Agrees q u ∧ q.memory = p.memory) Agrees
      (within p.memory (f p.state)) ((f t).relabel Failure.loop) := by
  obtain ⟨n, rfl⟩ := h
  rw [hf n p.state]
  cases f p.state with
  | running s => exact .running ⟨⟨n, rfl⟩, rfl⟩
  | stopped why s => exact .stopped (Failure.loop why) ⟨n, rfl⟩

section Room
variable {host : Host} {al : Allocator} (hsigned : host.charSign = .signed)
  (hframes : 10 ≤ host.frames) (hroom : 40 ≤ al.room)
include hsigned hframes hroom

/-- One block is processed with the memory of 39 more, and its result is freed. -/
theorem processBuffer_simulates {p : Process devices} {t : State devices} (h : Balanced p t) :
    Outcome.Simulates Balanced Agrees (processBuffer host al p)
      ((DaemonLoop.processBuffer host t).relabel Failure.loop) := by
  obtain ⟨⟨n, rfl⟩, hlive⟩ := h
  set m := p.memory.put bufAddress p.state.buf with hm
  have hmlive : m.live = {bufAddress} := hlive
  have hbuf : m.contents bufAddress = p.state.buf := Heap.contents_put_self _ _ _
  obtain ⟨r, m', hamls, hgains, harrays⟩ := amls_arrays al hframes (h := m) (a := bufAddress)
    (by simp [hmlive]) 512 (Nat.le_refl 512) (by simpa [hmlive] using hroom)
  rw [← hsigned] at hamls harrays
  obtain ⟨mallocs', harray⟩ := harrays host.heap n
  rw [hbuf] at harray
  -- both sides pack the same block
  have hleft : processBuffer host al p =
      (within m' (packLoop host (m'.contents r) 512 0 (recordBlock p.state))).andThen fun p =>
        accessing (p.memory.free (some r)) p fun m => .running ⟨startOver p.state, m⟩ := by
    unfold processBuffer
    dsimp only
    rw [← hm, hamls, accessing_ok, Heap.read_of_mem hgains.mem, accessing_ok]
  have hright : DaemonLoop.processBuffer host (setMallocs n p.state) =
      ((packLoop host (m'.contents r) 512 0 (recordBlock p.state)).map (setMallocs mallocs')).andThen
        fun s => .running (startOver s) := by
    have hamls' : AmlsArrays.amls host.charSign host.heap host.frames (setMallocs n p.state).buf 512
        (setMallocs n p.state).mallocs = .ok (m'.contents r, mallocs') := harray
    rw [← packLoop_unnoticed, processBuffer_eq, hamls', checked_ok]
    rfl
  rw [hleft, hright]
  cases packLoop host (m'.contents r) 512 0 (recordBlock p.state) with
  | running u =>
    have hfree : m'.free (some r) = .ok (m'.drop r) := Heap.free_of_mem hgains.mem
    rw [within, Outcome.andThen_running, hfree, accessing_ok]
    refine .running ⟨⟨mallocs', rfl⟩, ?_⟩
    rw [Heap.live_drop, gains_erase hgains, hmlive]
  | stopped why u => exact .stopped (Failure.loop why) ⟨mallocs', rfl⟩

theorem step_simulates (e : Event devices) (p : Process devices) (t : State devices)
    (h : Balanced p t) :
    Outcome.Simulates Balanced Agrees (step host al e p)
      ((ChunkLedger.step host e t).relabel Failure.loop) := by
  cases e with
  | tick rndcount =>
    have htick := within_simulates (tick_unnoticed host rndcount) h.1
    rw [step, ChunkLedger.step]
    generalize within p.memory (tick host rndcount p.state) = o,
      (tick host rndcount t).relabel Failure.loop = o' at htick ⊢
    cases htick with
    | running hq => exact .running ⟨hq.1, hq.2 ▸ h.2⟩
    | stopped why hq => exact .stopped why hq
  | read i r =>
    have hreceive := within_simulates (receive_unnoticed host i r) h.1
    rw [step, acceptRead, ChunkLedger.step, acceptRead_eq, Outcome.relabel_andThen]
    generalize within p.memory (receive host i r p.state) = o,
      (receive host i r t).relabel Failure.loop = o' at hreceive ⊢
    cases hreceive with
    | @running q u hq =>
      have hbalanced : Balanced q u := ⟨hq.1, hq.2 ▸ h.2⟩
      have hpos : u.bufPos = q.state.bufPos := by
        obtain ⟨n, rfl⟩ := hq.1
        rfl
      rw [Outcome.andThen_running, Outcome.andThen_running, hpos]
      split
      · exact processBuffer_simulates hsigned hframes hroom hbalanced
      · exact .running hbalanced
    | stopped why hq => exact .stopped why hq

/-- The whole run, from a heap in which only the buffer is in use. -/
theorem mainLoop_simulates (its : List (Iteration devices)) {m : Memory}
    (hm : m.live = {bufAddress}) :
    Outcome.Simulates Balanced Agrees (mainLoop host al its ⟨State.init devices, m⟩)
      ((DaemonLoop.mainLoop host its).relabel Failure.loop) := by
  rw [mainLoop, mainLoop_eq, Outcome.relabel_fold]
  exact Outcome.Simulates.fold (step_simulates hsigned hframes hroom) _ ⟨⟨0, rfl⟩, hm⟩

end Room

end K7nvhRng.DaemonMemory
