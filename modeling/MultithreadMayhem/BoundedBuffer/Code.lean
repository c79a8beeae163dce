import MultithreadMayhem.Buffer.Client
import MultithreadMayhem.Foundation.ByThread
import MultithreadMayhem.Foundation.Ring
import MultithreadMayhem.Pthread.Count

/-!
# The bounded buffer with one mutex and two condition variables

`bounded_buffer.c` statement by statement. A control point is named after the
statement that comes next; the local `item` and the rest `k` of the calling
program travel with it.
-/

namespace MultithreadMayhem.BoundedBuffer

open Foundation Pthread Buffer

inductive Cv
  | canPut
  | canGet
  deriving DecidableEq, Repr

/-- The globals of the buffer. `inIdx` and `outIdx` are the indices `in` and `out`; `history` lists
the accesses of the array and is read by no statement; `data` belongs to the calling programs. -/
structure Shared (T D : Type) where
  buffer : ℕ → Int
  capacity : ℕ
  count : Int
  inIdx : ℕ
  outIdx : ℕ
  history : List (Access T Int)
  data : D

inductive Pc (K : Type)
  | client (k : K)
  | putLock (item : Int) (k : K)
  | putTest (item : Int) (k : K)
  | putStore (item : Int) (k : K)
  | putAdvance (k : K)
  | putCount (k : K)
  | putSignal (k : K)
  | putUnlock (k : K)
  | getLock (k : Int → K)
  | getTest (k : Int → K)
  | getRead (k : Int → K)
  | getAdvance (item : Int) (k : Int → K)
  | getCount (item : Int) (k : Int → K)
  | getSignal (item : Int) (k : Int → K)
  | getUnlock (item : Int) (k : Int → K)

variable {T D K : Type}

/-- `buffer_init(cap)`. The array comes from `malloc`, so it holds arbitrary values `mem`. -/
def bufferInit (cap : ℕ) (mem : ℕ → Int) (data : D) : Shared T D where
  buffer := mem
  capacity := cap
  count := 0
  inIdx := 0
  outIdx := 0
  history := []
  data := data

def bufferPut (t : T) (s : Shared T D) : Pc K → Act (Shared T D) Cv (Pc K)
  | .putLock item k => .lock (.putTest item k)
  | .putTest item k =>
    if s.count = s.capacity then .wait .canPut (.putTest item k) else .exec s (.putStore item k)
  | .putStore item k =>
    .exec { s with buffer := Function.update s.buffer s.inIdx item
                   history := s.history ++ [.put t item] } (.putAdvance k)
  | .putAdvance k => .exec { s with inIdx := (s.inIdx + 1) % s.capacity } (.putCount k)
  | .putCount k => .exec { s with count := s.count + 1 } (.putSignal k)
  | .putSignal k => .signal .canGet (.putUnlock k)
  | .putUnlock k => .unlock (.client k)
  | _ => .block

def bufferGet (t : T) (s : Shared T D) : Pc K → Act (Shared T D) Cv (Pc K)
  | .getLock k => .lock (.getTest k)
  | .getTest k => if s.count = 0 then .wait .canGet (.getTest k) else .exec s (.getRead k)
  | .getRead k =>
    .exec { s with history := s.history ++ [.get t (s.buffer s.outIdx)] }
      (.getAdvance (s.buffer s.outIdx) k)
  | .getAdvance item k => .exec { s with outIdx := (s.outIdx + 1) % s.capacity } (.getCount item k)
  | .getCount item k => .exec { s with count := s.count - 1 } (.getSignal item k)
  | .getSignal item k => .signal .canPut (.getUnlock item k)
  | .getUnlock item k => .unlock (.client (k item))
  | _ => .block

def code (client : Client T D K) (t : T) (pc : Pc K) (s : Shared T D) :
    Act (Shared T D) Cv (Pc K) :=
  match pc with
  | .client k =>
    match client t k s.data with
    | .put item k => .exec s (.putLock item k)
    | .get k => .exec s (.getLock k)
    | .step d k => .exec { s with data := d } (.client k)
    | .block => .block
    | .finish => .exit
  | .putLock .. | .putTest .. | .putStore .. | .putAdvance .. | .putCount .. | .putSignal ..
  | .putUnlock .. => bufferPut t s pc
  | _ => bufferGet t s pc

def bufferSystem [Fintype T] [DecidableEq T] (client : Client T D K) (cap : ℕ) (mem : ℕ → Int)
    (data : D) (start : T → K) : System (State T (Shared T D) Cv (Pc K)) (Label T) :=
  Pthread.system (code client) (bufferInit cap mem data) fun t => .client (start t)

def Pc.isPut : Pc K → Bool
  | .putLock .. | .putTest .. | .putStore .. | .putAdvance .. | .putCount .. | .putSignal ..
  | .putUnlock .. => true
  | _ => false

def Pc.isGet : Pc K → Bool
  | .getLock .. | .getTest .. | .getRead .. | .getAdvance .. | .getCount .. | .getSignal ..
  | .getUnlock .. => true
  | _ => false

def Pc.inside : Pc K → Bool
  | .client _ | .putLock .. | .getLock .. => false
  | _ => true

theorem code_disciplined (client : Client T D K) : Disciplined (code client) Pc.inside := by
  intro t pc s
  cases pc with
  | client k =>
    simp only [code]
    cases client t k s.data <;> rfl
  | putTest item k =>
    by_cases h : s.count = s.capacity <;> simp [code, bufferPut, h, Act.Respects, Pc.inside]
  | getTest k =>
    by_cases h : s.count = 0 <;> simp [code, bufferGet, h, Act.Respects, Pc.inside]
  | _ => simp [code, bufferPut, bufferGet, Act.Respects, Pc.inside]

theorem code_extendsBy (client : Client T D K) (t : T) (pc : Pc K) (s : Shared T D) :
    (code client t pc s).Leads (fun y _ => BoundedQueue.ExtendsBy t s.history y.history) s := by
  cases pc with
  | client k =>
    simp only [code]
    cases client t k s.data <;> first | trivial | exact .rfl
  | putTest item k =>
    simp only [code, bufferPut]
    split <;> exact .rfl
  | getTest k =>
    simp only [code, bufferGet]
    split <;> exact .rfl
  | putStore item k => exact .concat (.put t item)
  | getRead k => exact .concat (.get t (s.buffer s.outIdx))
  | _ => exact .rfl

theorem code_stored (client : Client T D K) (t : T) (pc : Pc K) (s : Shared T D) :
    (code client t pc s).Leads (fun y _ =>
      BoundedQueue.stored y.history = BoundedQueue.stored s.history ∨
        ∃ item k, pc = .putStore item k ∧
          BoundedQueue.stored y.history = BoundedQueue.stored s.history ++ [item]) s := by
  cases pc with
  | client k =>
    simp only [code]
    cases client t k s.data <;> first | trivial | exact .inl rfl
  | putTest item k =>
    simp only [code, bufferPut]
    split <;> exact .inl rfl
  | getTest k =>
    simp only [code, bufferGet]
    split <;> exact .inl rfl
  | putStore item k => exact .inr ⟨item, k, rfl, BoundedQueue.stored_append _ _⟩
  | getRead k => exact .inl (by simp)
  | _ => exact .inl rfl

theorem code_data (client : Client T D K) (t : T) (pc : Pc K) (s : Shared T D) :
    (code client t pc s).Leads
      (fun y _ => y.data = s.data ∨ ∃ k k', client t k s.data = .step y.data k') s := by
  cases pc with
  | client k =>
    simp only [code]
    cases hcall : client t k s.data with
    | step d k' => exact .inr ⟨k, k', hcall⟩
    | put item k' => exact .inl rfl
    | get k' => exact .inl rfl
    | block => trivial
    | finish => trivial
  | putTest item k =>
    simp only [code, bufferPut]
    split <;> exact .inl rfl
  | getTest k =>
    simp only [code, bufferGet]
    split <;> exact .inl rfl
  | _ => exact .inl rfl

/-- Where a thread stops of its own accord. -/
theorem code_stopped {client : Client T D K} {t : T} {pc : Pc K} {s : Shared T D}
    (h : code client t pc s = .block ∨ code client t pc s = .exit) :
    ∃ k, pc = .client k ∧ (client t k s.data = .block ∨ client t k s.data = .finish) := by
  cases pc with
  | client k =>
    refine ⟨k, rfl, ?_⟩
    simp only [code] at h
    cases hcall : client t k s.data with
    | block => exact .inl rfl
    | finish => exact .inr rfl
    | _ =>
      rw [hcall] at h
      obtain h | h := h <;> cases h
  | putTest item k =>
    simp only [code, bufferPut] at h
    split at h <;> obtain h | h := h <;> cases h
  | getTest k =>
    simp only [code, bufferGet] at h
    split at h <;> obtain h | h := h <;> cases h
  | _ => obtain h | h := h <;> cases h

end MultithreadMayhem.BoundedBuffer
