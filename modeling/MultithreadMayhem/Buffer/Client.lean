/-!
# Users of a buffer

A thread uses `buffer_put` and `buffer_get` from its own program. `K` is the
state of that program and `D` is data which the threads share outside the
buffer; a call carries the state in which the program goes on, for `buffer_get`
as a function of the returned item.
-/

namespace MultithreadMayhem.Buffer

inductive Call (D K : Type)
  | put (item : Int) (k : K)
  | get (k : Int → K)
  /-- A statement of the program that does not use the buffer. -/
  | step (d : D) (k : K)
  | block
  | finish

abbrev Client (T D K : Type) := T → K → D → Call D K

inductive Op
  | put (item : Int)
  | get
  deriving DecidableEq, Repr

/-- A thread that runs a fixed finite sequence of calls: the calls to come, and the items that its
calls of `buffer_get` have returned. -/
structure Caller where
  ops : List Op
  returned : List Int

def programs (T : Type) : Client T Unit Caller
  | _, ⟨.put item :: ops, items⟩, _ => .put item ⟨ops, items⟩
  | _, ⟨.get :: ops, items⟩, _ => .get fun item => ⟨ops, items ++ [item]⟩
  | _, ⟨[], _⟩, _ => .finish

def callers {T : Type} (ops : T → List Op) (t : T) : Caller := ⟨ops t, []⟩

end MultithreadMayhem.Buffer
