import MultithreadMayhem.BoundedBuffer.Code
import MultithreadMayhem.Pthread.Solo

/-!
# Undisturbed calls of the bounded buffer

What `buffer_put` and `buffer_get` do when their thread runs alone from a free
mutex: they return when no other thread is parked, or they park.
-/

namespace MultithreadMayhem.BoundedBuffer

open Foundation Pthread Buffer

variable {T D K : Type} [Fintype T] [DecidableEq T]

def Shared.put (x : Shared T D) (t : T) (item : Int) : Shared T D :=
  { x with
    buffer := Function.update x.buffer x.inIdx item
    history := x.history ++ [.put t item]
    inIdx := (x.inIdx + 1) % x.capacity
    count := x.count + 1 }

def Shared.get (x : Shared T D) (t : T) : Shared T D :=
  { x with
    history := x.history ++ [.get t (x.buffer x.outIdx)]
    outIdx := (x.outIdx + 1) % x.capacity
    count := x.count - 1 }

variable {client : Client T D K} {M : System (State T (Shared T D) Cv (Pc K)) (Label T)}
variable {s : State T (Shared T D) Cv (Pc K)} {t : T} {k : K} {x : Shared T D}

section Put

variable {k' : K} {item : Int} (hM : M.step = Pthread.step (code client))
variable (h : M.Reachable (s.place t (.client k) x none))
variable (hcall : client t k x.data = .put item k')

include hM h hcall

theorem reachable_putTest : M.Reachable (s.place t (.putTest item k') x (some t)) := by
  have hlock : M.Reachable (s.place t (.putLock item k') x none) :=
    reachable_exec hM h (by simp [code, hcall])
  exact reachable_lock hM hlock rfl rfl

theorem reachable_put (hroom : x.count ≠ x.capacity)
    (hn : ∀ u, u ≠ t → (s.status u).waitsOn .canGet = false) :
    M.Reachable (s.place t (.client k') (x.put t item) none) := by
  have hstore := reachable_exec hM (reachable_putTest hM h hcall) (if_neg hroom)
  have hadvance := reachable_exec hM hstore rfl
  have hcount := reachable_exec hM hadvance rfl
  have hsignal := reachable_exec hM hcount rfl
  have hunlock := reachable_signal hM hsignal rfl hn
  exact reachable_unlock hM hunlock rfl rfl

theorem reachable_putPark (hfull : x.count = x.capacity) :
    M.Reachable { s with
      shared := x, mutex := none
      status := Function.update s.status t (.parked .canPut (.putTest item k')) } :=
  reachable_wait hM (reachable_putTest hM h hcall) (if_pos hfull) rfl

end Put

section Get

variable {k' : Int → K} (hM : M.step = Pthread.step (code client))
variable (h : M.Reachable (s.place t (.client k) x none))
variable (hcall : client t k x.data = .get k')

include hM h hcall

theorem reachable_getTest : M.Reachable (s.place t (.getTest k') x (some t)) := by
  have hlock : M.Reachable (s.place t (.getLock k') x none) :=
    reachable_exec hM h (by simp [code, hcall])
  exact reachable_lock hM hlock rfl rfl

theorem reachable_get (hitem : x.count ≠ 0)
    (hn : ∀ u, u ≠ t → (s.status u).waitsOn .canPut = false) :
    M.Reachable (s.place t (.client (k' (x.buffer x.outIdx))) (x.get t) none) := by
  have hread := reachable_exec hM (reachable_getTest hM h hcall) (if_neg hitem)
  have hadvance := reachable_exec hM hread rfl
  have hcount := reachable_exec hM hadvance rfl
  have hsignal := reachable_exec hM hcount rfl
  have hunlock := reachable_signal hM hsignal rfl hn
  exact reachable_unlock hM hunlock rfl rfl

theorem reachable_getPark (hempty : x.count = 0) :
    M.Reachable { s with
      shared := x, mutex := none
      status := Function.update s.status t (.parked .canGet (.getTest k')) } :=
  reachable_wait hM (reachable_getTest hM h hcall) (if_pos hempty) rfl

end Get

end MultithreadMayhem.BoundedBuffer
