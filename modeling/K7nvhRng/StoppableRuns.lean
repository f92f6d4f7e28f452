import Mathlib.Data.List.Basic

/-!
# Runs that may stop

A step either leaves the program running in a new state or stops it for a reason,
in the state reached so far. Steps are chained over a list of inputs; nothing after
a stop is executed, and the state in which the run stopped is kept. Two programs that
read the same inputs are compared by a simulation between their states, or by saying
that one of them may be cut short.
-/

namespace K7nvhRng.StoppableRuns

inductive Outcome (ε σ : Type) where
  | running (s : σ)
  | stopped (why : ε) (s : σ)

namespace Outcome
variable {ε σ ι α : Type}

def state : Outcome ε σ → σ
  | running s | stopped _ s => s

def andThen : Outcome ε σ → (σ → Outcome ε σ) → Outcome ε σ
  | running s, f => f s
  | stopped why s, _ => stopped why s

@[simp] theorem andThen_running (s : σ) (f : σ → Outcome ε σ) :
    (running s).andThen f = f s := rfl

@[simp] theorem andThen_stopped (why : ε) (s : σ) (f : σ → Outcome ε σ) :
    (stopped why s).andThen f = stopped why s := rfl

@[simp] theorem state_running (s : σ) : (running s : Outcome ε σ).state = s := rfl

theorem andThen_assoc (o : Outcome ε σ) (f g : σ → Outcome ε σ) :
    (o.andThen f).andThen g = o.andThen (fun s => (f s).andThen g) := by
  cases o <;> rfl

@[simp] theorem andThen_id (o : Outcome ε σ) : o.andThen running = o := by
  cases o <;> rfl

def fold (f : ι → σ → Outcome ε σ) : List ι → σ → Outcome ε σ
  | [], s => running s
  | i :: is, s => (f i s).andThen (fold f is)

@[simp] theorem fold_nil (f : ι → σ → Outcome ε σ) (s : σ) : fold f [] s = running s := rfl

@[simp] theorem fold_cons (f : ι → σ → Outcome ε σ) (i : ι) (is : List ι) (s : σ) :
    fold f (i :: is) s = (f i s).andThen (fold f is) := rfl

theorem fold_singleton (f : ι → σ → Outcome ε σ) (i : ι) (s : σ) : fold f [i] s = f i s :=
  andThen_id (f i s)

theorem fold_append (f : ι → σ → Outcome ε σ) (is js : List ι) (s : σ) :
    fold f (is ++ js) s = (fold f is s).andThen (fold f js) := by
  induction is generalizing s with
  | nil => rfl
  | cons i is ih =>
    simp only [List.cons_append, fold_cons, andThen_assoc]
    congr 1
    funext t
    exact ih t

theorem fold_congr {f g : ι → σ → Outcome ε σ} {is : List ι} (h : ∀ i ∈ is, f i = g i) :
    fold f is = fold g is := by
  induction is with
  | nil => rfl
  | cons i is ih =>
    obtain ⟨hi, his⟩ := List.forall_mem_cons.mp h
    funext s
    rw [fold_cons, fold_cons, hi, ih his]

def map {τ : Type} (f : σ → τ) : Outcome ε σ → Outcome ε τ
  | running s => running (f s)
  | stopped why s => stopped why (f s)

theorem map_eq_running_iff {τ : Type} {f : σ → τ} {o : Outcome ε σ} {t : τ} :
    o.map f = running t ↔ ∃ s, o = running s ∧ f s = t := by
  cases o with
  | running s => simp [map]
  | stopped why s => simp [map]

def check (x : Except ε α) (s : σ) (f : α → Outcome ε σ) : Outcome ε σ :=
  match x with
  | .ok a => f a
  | .error e => stopped e s

theorem fold_flatMap {κ : Type} (f : κ → σ → Outcome ε σ) (g : ι → List κ) (is : List ι) (s : σ) :
    fold f (is.flatMap g) s = fold (fun i => fold f (g i)) is s := by
  induction is generalizing s with
  | nil => rfl
  | cons i is ih =>
    rw [List.flatMap_cons, fold_append, fold_cons]
    congr 1
    funext t
    exact ih t

/-- A running state has the property `R`, and a stop has the property `Q`. -/
inductive Satisfies (R : σ → Prop) (Q : ε → σ → Prop) : Outcome ε σ → Prop where
  | running {s : σ} (h : R s) : Satisfies R Q (.running s)
  | stopped {why : ε} {s : σ} (h : Q why s) : Satisfies R Q (.stopped why s)

theorem Satisfies.andThen {R R' : σ → Prop} {Q : ε → σ → Prop} {o : Outcome ε σ}
    (ho : Satisfies R Q o) {f : σ → Outcome ε σ} (hf : ∀ s, R s → Satisfies R' Q (f s)) :
    Satisfies R' Q (o.andThen f) := by
  cases ho with
  | running h => exact hf _ h
  | stopped h => exact .stopped h

theorem Satisfies.imp {R R' : σ → Prop} {Q : ε → σ → Prop} {o : Outcome ε σ}
    (ho : Satisfies R Q o) (h : ∀ s, R s → R' s) : Satisfies R' Q o := by
  cases ho with
  | running hs => exact .running (h _ hs)
  | stopped hs => exact .stopped hs

/-- What holds initially and is kept by every step holds along every run. -/
theorem Satisfies.fold {R : σ → Prop} {Q : ε → σ → Prop} {f : ι → σ → Outcome ε σ} {is : List ι}
    (hstep : ∀ i ∈ is, ∀ s, R s → Satisfies R Q (f i s)) {s : σ} (h : R s) :
    Satisfies R Q (Outcome.fold f is s) := by
  induction is generalizing s with
  | nil => exact .running h
  | cons i is ih =>
    obtain ⟨hfirst, hrest⟩ := List.forall_mem_cons.mp hstep
    rw [fold_cons]
    exact (hfirst s h).andThen fun s' hs' => ih hrest hs'

theorem fold_map_running {β : Type} {R : List β → σ → Prop} {f : ι → σ → Outcome ε σ} {g : β → ι}
    (hstep : ∀ bs b s, R bs s → ∃ s', f (g b) s = running s' ∧ R (bs ++ [b]) s')
    {done : List β} {s : σ} (h : R done s) (bs : List β) :
    ∃ s', fold f (bs.map g) s = running s' ∧ R (done ++ bs) s' := by
  induction bs generalizing done s with
  | nil => exact ⟨s, rfl, by rwa [List.append_nil]⟩
  | cons b bs ih =>
    obtain ⟨s₁, hb, h₁⟩ := hstep done b s h
    obtain ⟨s', hfold, h'⟩ := ih h₁
    refine ⟨s', ?_, by simpa using h'⟩
    rw [List.map_cons, fold_cons, hb, andThen_running, hfold]

/-! ### Runs cut short -/

/-- The state of a run is never behind the one it started in, for an order of states. -/
def Grows (le : σ → σ → Prop) (f : σ → Outcome ε σ) : Prop := ∀ s, le s (f s).state

theorem Grows.andThen {le : σ → σ → Prop} (htrans : ∀ a b c, le a b → le b c → le a c)
    {f g : σ → Outcome ε σ} (hf : Grows le f) (hg : Grows le g) :
    Grows le fun s => (f s).andThen g := by
  intro s
  have hs := hf s
  dsimp only
  generalize f s = o at hs ⊢
  cases o with
  | running t => exact htrans s t _ hs (hg t)
  | stopped why t => exact hs

theorem Grows.fold {le : σ → σ → Prop} (hrefl : ∀ a, le a a)
    (htrans : ∀ a b c, le a b → le b c → le a c) {f : ι → σ → Outcome ε σ}
    (hf : ∀ i, Grows le (f i)) (is : List ι) : Grows le (Outcome.fold f is) := by
  induction is with
  | nil => exact fun s => hrefl s
  | cons i is ih => exact (hf i).andThen htrans ih

/-- The first run is the second one, or it has stopped in a state that the second one has
reached or passed. -/
inductive CutShort (le : σ → σ → Prop) : Outcome ε σ → Outcome ε σ → Prop where
  | same (o : Outcome ε σ) : CutShort le o o
  | cut (why : ε) {s : σ} {o : Outcome ε σ} (h : le s o.state) : CutShort le (.stopped why s) o

theorem CutShort.andThen {le : σ → σ → Prop} (htrans : ∀ a b c, le a b → le b c → le a c)
    {o o' : Outcome ε σ} (ho : CutShort le o o') {f g : σ → Outcome ε σ}
    (hfg : ∀ s, CutShort le (f s) (g s)) (hg : Grows le g) :
    CutShort le (o.andThen f) (o'.andThen g) := by
  cases ho with
  | same =>
    cases o with
    | running s => exact hfg s
    | stopped why s => exact .same _
  | cut why h =>
    cases o' with
    | running t => exact .cut why (htrans _ _ _ h (hg t))
    | stopped why' t => exact .cut why h

theorem CutShort.andThen_same {le : σ → σ → Prop} (o : Outcome ε σ) {f g : σ → Outcome ε σ}
    (hfg : ∀ s, CutShort le (f s) (g s)) : CutShort le (o.andThen f) (o.andThen g) := by
  cases o with
  | running s => exact hfg s
  | stopped why s => exact .same _

theorem CutShort.fold {le : σ → σ → Prop} (hrefl : ∀ a, le a a)
    (htrans : ∀ a b c, le a b → le b c → le a c) {f g : ι → σ → Outcome ε σ}
    (hfg : ∀ i s, CutShort le (f i s) (g i s)) (hg : ∀ i, Grows le (g i)) (is : List ι) (s : σ) :
    CutShort le (Outcome.fold f is s) (Outcome.fold g is s) := by
  induction is generalizing s with
  | nil => exact .same _
  | cons i is ih => exact (hfg i s).andThen htrans ih (Grows.fold hrefl htrans hg is)

def Extends {β : Type} (out : σ → List β) (s t : σ) : Prop := out s <+: out t

theorem Extends.refl {β : Type} (out : σ → List β) (s : σ) : Extends out s s := List.prefix_rfl

theorem Extends.trans {β : Type} {out : σ → List β} (s t u : σ) (h : Extends out s t)
    (h' : Extends out t u) : Extends out s u :=
  List.IsPrefix.trans h h'

/-- The first run is the second one as long as this has put out at most `n` items, and has else
stopped in front of the next one. -/
inductive CutAt {β : Type} (out : σ → List β) (n : ℕ) (why : ε) :
    Outcome ε σ → Outcome ε σ → Prop where
  | same {o : Outcome ε σ} (h : (out o.state).length ≤ n) : CutAt out n why o o
  | cut {s : σ} {o : Outcome ε σ} (hs : out s = (out o.state).take n)
      (hn : n < (out o.state).length) : CutAt out n why (.stopped why s) o

theorem CutAt.andThen {β : Type} {out : σ → List β} {n : ℕ} {why : ε} {o o' : Outcome ε σ}
    (ho : CutAt out n why o o') {f g : σ → Outcome ε σ}
    (hfg : ∀ s, (out s).length ≤ n → CutAt out n why (f s) (g s)) (hg : Grows (Extends out) g) :
    CutAt out n why (o.andThen f) (o'.andThen g) := by
  cases ho with
  | same h =>
    cases o with
    | running s => exact hfg s h
    | stopped why' s => exact .same h
  | cut hs hn =>
    cases o' with
    | stopped why' t => exact .cut hs hn
    | running t =>
      obtain ⟨more, hmore⟩ := hg t
      have hlt : n < (out t).length := hn
      refine .cut ?_ ?_
      · rw [andThen_running, ← hmore, List.take_append_of_le_length (Nat.le_of_lt hlt)]
        exact hs
      · rw [andThen_running, ← hmore, List.length_append]
        omega

theorem CutAt.fold {β : Type} {out : σ → List β} {n : ℕ} {why : ε} {f g : ι → σ → Outcome ε σ}
    (hfg : ∀ i s, (out s).length ≤ n → CutAt out n why (f i s) (g i s))
    (hg : ∀ i, Grows (Extends out) (g i)) (is : List ι) {s : σ} (hs : (out s).length ≤ n) :
    CutAt out n why (Outcome.fold f is s) (Outcome.fold g is s) := by
  induction is generalizing s with
  | nil => exact .same hs
  | cons i is ih =>
    exact (hfg i s hs).andThen (fun t ht => ih ht)
      (Grows.fold (Extends.refl out) Extends.trans hg is)

/-! ### Simulation -/

/-- Two runs go on together in states related by `R`, or stop together and for the same
reason in states related by `Q`. -/
inductive Simulates {τ : Type} (R Q : σ → τ → Prop) : Outcome ε σ → Outcome ε τ → Prop where
  | running {s : σ} {t : τ} (h : R s t) : Simulates R Q (.running s) (.running t)
  | stopped (why : ε) {s : σ} {t : τ} (h : Q s t) : Simulates R Q (.stopped why s) (.stopped why t)

/-- Programs that simulate each other step by step do so over every list of inputs. -/
theorem Simulates.fold {τ : Type} {R Q : σ → τ → Prop} {f : ι → σ → Outcome ε σ}
    {g : ι → τ → Outcome ε τ} (hstep : ∀ i s t, R s t → Simulates R Q (f i s) (g i t))
    (is : List ι) {s : σ} {t : τ} (h : R s t) :
    Simulates R Q (Outcome.fold f is s) (Outcome.fold g is t) := by
  induction is generalizing s t with
  | nil => exact .running h
  | cons i is ih =>
    have hi := hstep i s t h
    rw [fold_cons, fold_cons]
    generalize f i s = a, g i t = b at hi ⊢
    cases hi with
    | running h' => exact ih h'
    | stopped why hQ => exact .stopped why hQ

/-- A program that may stop earlier than another one is followed by it as long as it runs. -/
theorem fold_running_of_step {τ : Type} {R : σ → τ → Prop} {f : ι → σ → Outcome ε σ}
    {g : ι → τ → Outcome ε τ}
    (hstep : ∀ i s t s', R s t → f i s = .running s' → ∃ t', g i t = .running t' ∧ R s' t')
    {is : List ι} {s s' : σ} {t : τ} (h : R s t) (hrun : fold f is s = .running s') :
    ∃ t', fold g is t = .running t' ∧ R s' t' := by
  induction is generalizing s t with
  | nil =>
    cases hrun
    exact ⟨t, rfl, h⟩
  | cons i is ih =>
    rw [fold_cons] at hrun
    cases hi : f i s with
    | stopped why u =>
      rw [hi] at hrun
      cases hrun
    | running u =>
      rw [hi] at hrun
      obtain ⟨t₁, hg, h₁⟩ := hstep i s t u h hi
      obtain ⟨t', hfold, h'⟩ := ih h₁ hrun
      exact ⟨t', by rw [fold_cons, hg, andThen_running, hfold], h'⟩

def relabel {δ : Type} (f : ε → δ) : Outcome ε σ → Outcome δ σ
  | running s => running s
  | stopped why s => stopped (f why) s

theorem relabel_andThen {δ : Type} (f : ε → δ) (o : Outcome ε σ) (g : σ → Outcome ε σ) :
    (o.andThen g).relabel f = (o.relabel f).andThen fun s => (g s).relabel f := by
  cases o <;> rfl

theorem relabel_fold {δ : Type} (f : ε → δ) (g : ι → σ → Outcome ε σ) (is : List ι) (s : σ) :
    (fold g is s).relabel f = fold (fun i s => (g i s).relabel f) is s := by
  induction is generalizing s with
  | nil => rfl
  | cons i is ih =>
    rw [fold_cons, fold_cons, relabel_andThen]
    congr 1
    funext t
    exact ih t

/-! ### Changes that a program does not notice -/

/-- The program makes the same steps after the change `g` of its state, and keeps the change. -/
def Unnoticed (g : σ → σ) (f : σ → Outcome ε σ) : Prop := ∀ s, f (g s) = (f s).map g

theorem Unnoticed.andThen_map {g : σ → σ} {f f' : σ → Outcome ε σ} (o : Outcome ε σ)
    (h : ∀ s, f' (g s) = (f s).map g) : (o.map g).andThen f' = (o.andThen f).map g := by
  cases o with
  | running s => exact h s
  | stopped why s => rfl

theorem Unnoticed.andThen {g : σ → σ} {f f' : σ → Outcome ε σ} (hf : Unnoticed g f)
    (hf' : Unnoticed g f') : Unnoticed g fun s => (f s).andThen f' := by
  intro s
  dsimp only
  rw [hf s, Unnoticed.andThen_map (f s) hf']

theorem Unnoticed.fold {g : σ → σ} {f : ι → σ → Outcome ε σ} (hf : ∀ i, Unnoticed g (f i))
    (is : List ι) : Unnoticed g (Outcome.fold f is) := by
  induction is with
  | nil => exact fun s => rfl
  | cons i is ih => exact (hf i).andThen ih

theorem check_map {g : σ → σ} (x : Except ε α) (s : σ) {f f' : α → Outcome ε σ}
    (h : ∀ a, f' a = (f a).map g) : check x (g s) f' = (check x s f).map g := by
  cases x with
  | ok a => exact h a
  | error e => rfl

/-! ### Programs interrupted by a signal -/

/-- The states that a program reaches when a pending signal may be handled between any two of
its steps, with the places at which it has been handled. -/
inductive Interrupted {ℓ : Type} (f : ι → σ → Outcome ε σ) (pending : σ → Prop) (handler : σ → σ)
    (place : σ → ℓ) (start : σ) : List ℓ → σ → Prop where
  | start : Interrupted f pending handler place start [] start
  | step {places : List ℓ} {s t : σ} (i : ι) (h : Interrupted f pending handler place start places s)
      (hstep : f i s = .running t) : Interrupted f pending handler place start places t
  | signal {places : List ℓ} {s : σ} (h : Interrupted f pending handler place start places s)
      (hpending : pending s) :
      Interrupted f pending handler place start (places ++ [place s]) (handler s)

/-- What holds at the start and is kept by the program and by the handler holds throughout. -/
theorem Interrupted.invariant {ℓ : Type} {f : ι → σ → Outcome ε σ} {pending : σ → Prop}
    {handler : σ → σ} {place : σ → ℓ} {I : List ℓ → σ → Prop} {start s : σ} {places : List ℓ}
    (h : Interrupted f pending handler place start places s) (hstart : I [] start)
    (hstep : ∀ places i s t, I places s → f i s = .running t → I places t)
    (hsignal : ∀ places s, I places s → pending s → I (places ++ [place s]) (handler s)) :
    I places s := by
  induction h with
  | start => exact hstart
  | step i _ hi ih => exact hstep _ i _ _ ih hi
  | signal _ hpending ih => exact hsignal _ _ ih hpending

end Outcome

end K7nvhRng.StoppableRuns
