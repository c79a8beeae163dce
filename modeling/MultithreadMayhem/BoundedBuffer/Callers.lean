import MultithreadMayhem.BoundedBuffer.Code
import MultithreadMayhem.Buffer.Atomic
import MultithreadMayhem.Pthread.Local

/-!
# What the callers of the bounded buffer have got

A thread stands in its program where its accesses in the history have brought it, and
the items that its calls of `buffer_get` have returned are those that it has taken out.
-/

namespace MultithreadMayhem.BoundedBuffer

open Foundation Pthread Buffer BoundedQueue

variable {T : Type}

/-- The control points of a caller, with the calls whose access is yet to come and the items that
its accesses have taken out. -/
inductive PlaceOf : Pc Caller → Caller → Prop
  | client (p : Caller) : PlaceOf (.client p) p
  | putLock (item : Int) (ops : List Op) (items : List Int) :
    PlaceOf (.putLock item ⟨ops, items⟩) ⟨.put item :: ops, items⟩
  | putTest (item : Int) (ops : List Op) (items : List Int) :
    PlaceOf (.putTest item ⟨ops, items⟩) ⟨.put item :: ops, items⟩
  | putStore (item : Int) (ops : List Op) (items : List Int) :
    PlaceOf (.putStore item ⟨ops, items⟩) ⟨.put item :: ops, items⟩
  | putAdvance (p : Caller) : PlaceOf (.putAdvance p) p
  | putCount (p : Caller) : PlaceOf (.putCount p) p
  | putSignal (p : Caller) : PlaceOf (.putSignal p) p
  | putUnlock (p : Caller) : PlaceOf (.putUnlock p) p
  | getLock (ops : List Op) (items : List Int) :
    PlaceOf (.getLock fun item => ⟨ops, items ++ [item]⟩) ⟨.get :: ops, items⟩
  | getTest (ops : List Op) (items : List Int) :
    PlaceOf (.getTest fun item => ⟨ops, items ++ [item]⟩) ⟨.get :: ops, items⟩
  | getRead (ops : List Op) (items : List Int) :
    PlaceOf (.getRead fun item => ⟨ops, items ++ [item]⟩) ⟨.get :: ops, items⟩
  | getAdvance (item : Int) (ops : List Op) (items : List Int) :
    PlaceOf (.getAdvance item fun item => ⟨ops, items ++ [item]⟩) ⟨ops, items ++ [item]⟩
  | getCount (item : Int) (ops : List Op) (items : List Int) :
    PlaceOf (.getCount item fun item => ⟨ops, items ++ [item]⟩) ⟨ops, items ++ [item]⟩
  | getSignal (item : Int) (ops : List Op) (items : List Int) :
    PlaceOf (.getSignal item fun item => ⟨ops, items ++ [item]⟩) ⟨ops, items ++ [item]⟩
  | getUnlock (item : Int) (ops : List Op) (items : List Int) :
    PlaceOf (.getUnlock item fun item => ⟨ops, items ++ [item]⟩) ⟨ops, items ++ [item]⟩

variable [DecidableEq T]

/-- The thread `t` has performed its program up to its control point. -/
def Performed (ops : T → List Op) (t : T) (x : Shared T Unit) (pc : Pc Caller) : Prop :=
  ∃ p, PlaceOf pc p ∧ Caller.After (ops t) t x.history p

theorem performed_own {ops : T → List Op} {t : T} {x : Shared T Unit} {pc : Pc Caller}
    (h : Performed ops t x pc) :
    (code (programs T) t pc x).Leads (fun y st => Performed ops t y st.pc) x := by
  obtain ⟨p, hpc, hp⟩ := h
  cases hpc with
  | client p =>
    match p with
    | ⟨[], items⟩ => trivial
    | ⟨.put item :: ops, items⟩ => exact ⟨_, .putLock item ops items, hp⟩
    | ⟨.get :: ops, items⟩ => exact ⟨_, .getLock ops items, hp⟩
  | putLock item ops items => exact ⟨_, .putTest item ops items, hp⟩
  | putTest item ops items =>
    simp only [code, bufferPut]
    split
    · exact ⟨_, .putTest item ops items, hp⟩
    · exact ⟨_, .putStore item ops items, hp⟩
  | putStore item ops items => exact ⟨_, .putAdvance ⟨ops, items⟩, hp.put⟩
  | putAdvance p => exact ⟨_, .putCount p, hp⟩
  | putCount p => exact ⟨_, .putSignal p, hp⟩
  | putSignal p => exact ⟨_, .putUnlock p, hp⟩
  | putUnlock p => exact ⟨_, .client p, hp⟩
  | getLock ops items => exact ⟨_, .getTest ops items, hp⟩
  | getTest ops items =>
    simp only [code, bufferGet]
    split
    · exact ⟨_, .getTest ops items, hp⟩
    · exact ⟨_, .getRead ops items, hp⟩
  | getRead ops items => exact ⟨_, .getAdvance (x.buffer x.outIdx) ops items, hp.get _⟩
  | getAdvance item ops items => exact ⟨_, .getCount item ops items, hp⟩
  | getCount item ops items => exact ⟨_, .getSignal item ops items, hp⟩
  | getSignal item ops items => exact ⟨_, .getUnlock item ops items, hp⟩
  | getUnlock item ops items => exact ⟨_, .client _, hp⟩

theorem performed_rule (ops : T → List Op) : LocalRule (code (programs T)) (Performed ops) := by
  constructor
  · intro t pc x h
    exact performed_own h
  · intro t u pc q x hne ht _
    refine (code_extendsBy (programs T) u q x).imp fun y _ hext => ?_
    obtain ⟨p, hpc, hp⟩ := ht
    exact ⟨p, hpc, hp.others hext hne⟩

variable [Fintype T] {cap : ℕ} {mem : ℕ → Int} {ops : T → List Op}
variable {s : State T (Shared T Unit) Cv (Pc Caller)}

theorem reachable_performed
    (h : (bufferSystem (programs T) cap mem () (callers ops)).Reachable s) (t : T) :
    Performed ops t s.shared (s.status t).pc :=
  (performed_rule ops).reachable (fun t => ⟨_, .client (callers ops t), .nil (ops t) t⟩) h t

/-- A thread between two calls has been returned the items that it has taken out. -/
theorem returned_eq (h : (bufferSystem (programs T) cap mem () (callers ops)).Reachable s) {t : T}
    {p : Caller} (hs : s.status t = .running (.client p)) :
    p.returned = takenBy t s.shared.history := by
  obtain ⟨p', hpc, hp⟩ := reachable_performed h t
  rw [hs] at hpc
  cases hpc
  exact hp.items.symm

end MultithreadMayhem.BoundedBuffer
