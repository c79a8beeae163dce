import MultithreadMayhem.Buffer.Client
import MultithreadMayhem.Foundation.ByThread
import MultithreadMayhem.Foundation.Ring
import MultithreadMayhem.Pthread.Count

/-!
# The bounded buffer with two semaphores and one mutex

`sem_buffer.c` statement by statement, for the same users as the buffer with
condition variables. A semaphore is its value; `sem_wait` can go on when the value
is positive, and both semaphore operations are done outside the mutex.
-/

namespace MultithreadMayhem.SemBuffer

open Foundation Pthread Buffer

/-- The globals of the buffer. `history` lists the accesses of the array since `buffer_init` and is
read by no statement; `data` belongs to the calling programs. -/
structure Shared (T D : Type) where
  buffer : ℕ → Int
  capacity : ℕ
  inIdx : ℕ
  outIdx : ℕ
  emptySlots : ℕ
  fullSlots : ℕ
  history : List (Access T Int)
  data : D

inductive Pc (K : Type)
  | client (k : K)
  | putWait (item : Int) (k : K)
  | putLock (item : Int) (k : K)
  | putStore (item : Int) (k : K)
  | putAdvance (k : K)
  | putUnlock (k : K)
  | putPost (k : K)
  | getWait (k : Int → K)
  | getLock (k : Int → K)
  | getRead (k : Int → K)
  | getAdvance (item : Int) (k : Int → K)
  | getUnlock (item : Int) (k : Int → K)
  | getPost (item : Int) (k : Int → K)

variable {T D K : Type}

/-- The globals before `main`: `in` and `out` are initialised to 0, the rest is not set yet. -/
def globals (data : D) : Shared T D where
  buffer := fun _ => 0
  capacity := 0
  inIdx := 0
  outIdx := 0
  emptySlots := 0
  fullSlots := 0
  history := []
  data := data

/-- `buffer_init(cap)`. The array comes from `malloc`, so it holds arbitrary values `mem`; `in` and
`out` keep their values. -/
def bufferInit (cap : ℕ) (mem : ℕ → Int) (s : Shared T D) : Shared T D :=
  { s with
    capacity := cap
    buffer := mem
    emptySlots := cap
    fullSlots := 0
    history := [] }

/-- `buffer_destroy()`. The freed array and the destroyed semaphores have arbitrary values; `in`, `out`
and `capacity` keep theirs. -/
def bufferDestroy (mem : ℕ → Int) (emptySlots fullSlots : ℕ) (s : Shared T D) : Shared T D :=
  { s with buffer := mem, emptySlots := emptySlots, fullSlots := fullSlots }

def bufferPut (t : T) (s : Shared T D) : Pc K → Act (Shared T D) Empty (Pc K)
  | .putWait item k =>
    if 0 < s.emptySlots then .exec { s with emptySlots := s.emptySlots - 1 } (.putLock item k)
    else .block
  | .putLock item k => .lock (.putStore item k)
  | .putStore item k =>
    .exec { s with buffer := Function.update s.buffer s.inIdx item
                   history := s.history ++ [.put t item] } (.putAdvance k)
  | .putAdvance k => .exec { s with inIdx := (s.inIdx + 1) % s.capacity } (.putUnlock k)
  | .putUnlock k => .unlock (.putPost k)
  | .putPost k => .exec { s with fullSlots := s.fullSlots + 1 } (.client k)
  | _ => .block

def bufferGet (t : T) (s : Shared T D) : Pc K → Act (Shared T D) Empty (Pc K)
  | .getWait k =>
    if 0 < s.fullSlots then .exec { s with fullSlots := s.fullSlots - 1 } (.getLock k) else .block
  | .getLock k => .lock (.getRead k)
  | .getRead k =>
    .exec { s with history := s.history ++ [.get t (s.buffer s.outIdx)] }
      (.getAdvance (s.buffer s.outIdx) k)
  | .getAdvance item k => .exec { s with outIdx := (s.outIdx + 1) % s.capacity } (.getUnlock item k)
  | .getUnlock item k => .unlock (.getPost item k)
  | .getPost item k => .exec { s with emptySlots := s.emptySlots + 1 } (.client (k item))
  | _ => .block

def code (client : Client T D K) (t : T) (pc : Pc K) (s : Shared T D) :
    Act (Shared T D) Empty (Pc K) :=
  match pc with
  | .client k =>
    match client t k s.data with
    | .put item k => .exec s (.putWait item k)
    | .get k => .exec s (.getWait k)
    | .step d k => .exec { s with data := d } (.client k)
    | .block => .block
    | .finish => .exit
  | .putWait .. | .putLock .. | .putStore .. | .putAdvance .. | .putUnlock .. | .putPost .. =>
    bufferPut t s pc
  | _ => bufferGet t s pc

def systemFrom [Fintype T] [DecidableEq T] (client : Client T D K) (s : Shared T D)
    (start : T → K) : System (State T (Shared T D) Empty (Pc K)) (Label T) :=
  Pthread.system (code client) s fun t => .client (start t)

def bufferSystem [Fintype T] [DecidableEq T] (client : Client T D K) (cap : ℕ) (mem : ℕ → Int)
    (data : D) (start : T → K) : System (State T (Shared T D) Empty (Pc K)) (Label T) :=
  Pthread.system (code client) (bufferInit cap mem (globals data)) fun t => .client (start t)

def Pc.inside : Pc K → Bool
  | .putStore .. | .putAdvance .. | .putUnlock .. | .getRead .. | .getAdvance ..
  | .getUnlock .. => true
  | _ => false

theorem code_disciplined (client : Client T D K) : Disciplined (code client) Pc.inside := by
  intro t pc s
  cases pc with
  | client k =>
    simp only [code]
    cases client t k s.data <;> rfl
  | putWait item k =>
    by_cases h : 0 < s.emptySlots <;> simp [code, bufferPut, h, Act.Respects, Pc.inside]
  | getWait k =>
    by_cases h : 0 < s.fullSlots <;> simp [code, bufferGet, h, Act.Respects, Pc.inside]
  | _ => simp [code, bufferPut, bufferGet, Act.Respects, Pc.inside]

theorem code_extendsBy (client : Client T D K) (t : T) (pc : Pc K) (s : Shared T D) :
    (code client t pc s).Leads (fun y _ => BoundedQueue.ExtendsBy t s.history y.history) s := by
  cases pc with
  | client k =>
    simp only [code]
    cases client t k s.data <;> first | trivial | exact .rfl
  | putWait item k =>
    simp only [code, bufferPut]
    split
    · exact .rfl
    · trivial
  | getWait k =>
    simp only [code, bufferGet]
    split
    · exact .rfl
    · trivial
  | putStore item k => exact .concat (.put t item)
  | getRead k => exact .concat (.get t (s.buffer s.outIdx))
  | _ => exact .rfl

/-- Where a thread stops: of its own accord or in a `sem_wait` on a semaphore of value 0. -/
theorem code_stopped {client : Client T D K} {t : T} {pc : Pc K} {s : Shared T D}
    (h : code client t pc s = .block ∨ code client t pc s = .exit) :
    (∃ k, pc = .client k ∧ (client t k s.data = .block ∨ client t k s.data = .finish)) ∨
      (∃ item k, pc = .putWait item k ∧ s.emptySlots = 0) ∨
      ∃ k, pc = .getWait k ∧ s.fullSlots = 0 := by
  cases pc with
  | client k =>
    refine .inl ⟨k, rfl, ?_⟩
    simp only [code] at h
    cases hcall : client t k s.data with
    | block => exact .inl rfl
    | finish => exact .inr rfl
    | _ =>
      rw [hcall] at h
      obtain h | h := h <;> cases h
  | putWait item k =>
    simp only [code, bufferPut] at h
    split at h
    · obtain h | h := h <;> cases h
    · exact .inr (.inl ⟨item, k, rfl, by omega⟩)
  | getWait k =>
    simp only [code, bufferGet] at h
    split at h
    · obtain h | h := h <;> cases h
    · exact .inr (.inr ⟨k, rfl, by omega⟩)
  | _ => obtain h | h := h <;> cases h

end MultithreadMayhem.SemBuffer
