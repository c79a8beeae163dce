import MultithreadMayhem.Pthread.Solo
import MultithreadMayhem.SemBuffer.Fifo

/-!
# Undisturbed calls of the semaphore buffer

What `buffer_put` and `buffer_get` do when their thread runs alone, from a free
mutex and a positive semaphore to the return.
-/

namespace MultithreadMayhem.SemBuffer

open Foundation Pthread Buffer

variable {T D K : Type} [Fintype T] [DecidableEq T]

def Shared.put (x : Shared T D) (t : T) (item : Int) : Shared T D :=
  { x with
    buffer := Function.update x.buffer x.inIdx item
    history := x.history ++ [.put t item]
    inIdx := (x.inIdx + 1) % x.capacity
    emptySlots := x.emptySlots - 1
    fullSlots := x.fullSlots + 1 }

def Shared.get (x : Shared T D) (t : T) : Shared T D :=
  { x with
    history := x.history ++ [.get t (x.buffer x.outIdx)]
    outIdx := (x.outIdx + 1) % x.capacity
    fullSlots := x.fullSlots - 1
    emptySlots := x.emptySlots + 1 }

variable {client : Client T D K} {M : System (State T (Shared T D) Empty (Pc K)) (Label T)}
variable {s : State T (Shared T D) Empty (Pc K)} {t : T} {k : K} {x : Shared T D}

section Put

variable {k' : K} {item : Int} (hM : M.step = Pthread.step (code client))
variable (h : M.Reachable (s.place t (.client k) x none))
variable (hcall : client t k x.data = .put item k')

include hM h hcall

theorem reachable_putWait : M.Reachable (s.place t (.putWait item k') x none) :=
  reachable_exec hM h (by simp [code, hcall])

theorem reachable_putStore (hempty : 0 < x.emptySlots) :
    M.Reachable (s.place t (.putStore item k') { x with emptySlots := x.emptySlots - 1 }
      (some t)) := by
  have hlock := reachable_exec hM (reachable_putWait hM h hcall) (if_pos hempty)
  exact reachable_lock hM hlock rfl rfl

theorem reachable_put (hempty : 0 < x.emptySlots) :
    M.Reachable (s.place t (.client k') (x.put t item) none) := by
  have hadvance := reachable_exec hM (reachable_putStore hM h hcall hempty) rfl
  have hunlock := reachable_exec hM hadvance rfl
  have hpost := reachable_unlock hM hunlock rfl rfl
  exact reachable_exec hM hpost rfl

end Put

section Get

variable {k' : Int → K} (hM : M.step = Pthread.step (code client))
variable (h : M.Reachable (s.place t (.client k) x none))
variable (hcall : client t k x.data = .get k')

include hM h hcall

theorem reachable_getWait : M.Reachable (s.place t (.getWait k') x none) :=
  reachable_exec hM h (by simp [code, hcall])

theorem reachable_getRead (hfull : 0 < x.fullSlots) :
    M.Reachable (s.place t (.getRead k') { x with fullSlots := x.fullSlots - 1 } (some t)) := by
  have hlock := reachable_exec hM (reachable_getWait hM h hcall) (if_pos hfull)
  exact reachable_lock hM hlock rfl rfl

theorem reachable_get (hfull : 0 < x.fullSlots) :
    M.Reachable (s.place t (.client (k' (x.buffer x.outIdx))) (x.get t) none) := by
  have hadvance := reachable_exec hM (reachable_getRead hM h hcall hfull) rfl
  have hunlock := reachable_exec hM hadvance rfl
  have hpost := reachable_unlock hM hunlock rfl rfl
  exact reachable_exec hM hpost rfl

end Get

end MultithreadMayhem.SemBuffer
