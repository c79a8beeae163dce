import MultithreadMayhem.BoundedBuffer.Code
import Mathlib.Algebra.BigOperators.Fin

/-!
# The producers, the consumers and `main`

The rest of `bounded_buffer.c` as a client of the buffer. `main` creates the
consumers and the producers, joins the producers, puts one `STOP` for each
consumer and joins the consumers. A thread does nothing before its
`pthread_create`, and `pthread_join` blocks until the thread has returned.
-/

namespace MultithreadMayhem.BoundedBuffer

open Foundation Pthread Buffer

def stop : Int := -1

inductive Thread (producers consumers : ℕ)
  | producer (p : Fin producers)
  | consumer (c : Fin consumers)
  | main
  deriving DecidableEq

namespace Thread

variable {producers consumers : ℕ}

def equiv : Fin producers ⊕ Fin consumers ⊕ Unit ≃ Thread producers consumers where
  toFun
    | .inl p => .producer p
    | .inr (.inl c) => .consumer c
    | .inr (.inr ()) => .main
  invFun
    | .producer p => .inl p
    | .consumer c => .inr (.inl c)
    | .main => .inr (.inr ())
  left_inv := by rintro (p | c | _) <;> rfl
  right_inv := by rintro (p | c | _) <;> rfl

instance : Fintype (Thread producers consumers) := Fintype.ofEquiv _ equiv

theorem sum_eq {M : Type} [AddCommMonoid M] (f : Thread producers consumers → M) :
    ∑ t, f t = ∑ p, f (.producer p) + (∑ c, f (.consumer c) + f .main) := by
  rw [← Equiv.sum_comp equiv f]
  simp only [Fintype.sum_sum_type, Fintype.sum_unique]
  rfl

end Thread

/-- The next statement of a thread outside the buffer. -/
inductive Program
  /-- Not created yet; its function begins at `k`. -/
  | start (k : Program)
  | produce (items : List Int)
  | zeroCount
  | zeroSum
  | take
  | test (item : Int)
  | addCount (item : Int)
  | addSum (item : Int)
  | createConsumers (i : ℕ)
  | createProducers (i : ℕ)
  | joinProducers (i : ℕ)
  | putStops (i : ℕ)
  | joinConsumers (i : ℕ)
  | returned

/-- What the threads share besides the buffer. `counted` lists the items that a consumer has counted
and is read by no statement. -/
structure Results (producers consumers : ℕ) where
  created : Thread producers consumers → Bool
  returned : Thread producers consumers → Bool
  consumedCount : Fin consumers → Int
  consumedSum : Fin consumers → Int
  counted : Fin consumers → List Int

variable {producers consumers : ℕ}

namespace Results

def init : Results producers consumers where
  created := fun _ => false
  returned := fun _ => false
  consumedCount := fun _ => 0
  consumedSum := fun _ => 0
  counted := fun _ => []

def create (d : Results producers consumers) (t : Thread producers consumers) :
    Results producers consumers :=
  { d with created := Function.update d.created t true }

def finish (d : Results producers consumers) (t : Thread producers consumers) :
    Results producers consumers :=
  { d with returned := Function.update d.returned t true }

def totalCount (d : Results producers consumers) : Int := ∑ c, d.consumedCount c

def totalSum (d : Results producers consumers) : Int := ∑ c, d.consumedSum c

end Results

def producedCount (items : Fin producers → List Int) : Int := ∑ p, ((items p).length : Int)

def producedSum (items : Fin producers → List Int) : Int := ∑ p, (items p).sum

def producer (p : Fin producers) (d : Results producers consumers) :
    Program → Call (Results producers consumers) Program
  | .produce (item :: items) => .put item (.produce items)
  | .produce [] => .step (d.finish (.producer p)) .returned
  | _ => .block

def consumer (c : Fin consumers) (d : Results producers consumers) :
    Program → Call (Results producers consumers) Program
  | .zeroCount => .step { d with consumedCount := Function.update d.consumedCount c 0 } .zeroSum
  | .zeroSum => .step { d with consumedSum := Function.update d.consumedSum c 0 } .take
  | .take => .get .test
  | .test item =>
    if item = stop then .step (d.finish (.consumer c)) .returned else .step d (.addCount item)
  | .addCount item =>
    .step { d with
      consumedCount := Function.update d.consumedCount c (d.consumedCount c + 1)
      counted := Function.update d.counted c (d.counted c ++ [item]) } (.addSum item)
  | .addSum item =>
    .step { d with consumedSum := Function.update d.consumedSum c (d.consumedSum c + item) } .take
  | _ => .block

/-- `main()`, up to the final comparison. -/
def main (d : Results producers consumers) : Program → Call (Results producers consumers) Program
  | .createConsumers i =>
    if h : i < consumers then .step (d.create (.consumer ⟨i, h⟩)) (.createConsumers (i + 1))
    else .step d (.createProducers 0)
  | .createProducers i =>
    if h : i < producers then .step (d.create (.producer ⟨i, h⟩)) (.createProducers (i + 1))
    else .step d (.joinProducers 0)
  | .joinProducers i =>
    if h : i < producers then
      if d.returned (.producer ⟨i, h⟩) then .step d (.joinProducers (i + 1)) else .block
    else .step d (.putStops 0)
  | .putStops i =>
    if i < consumers then .put stop (.putStops (i + 1)) else .step d (.joinConsumers 0)
  | .joinConsumers i =>
    if h : i < consumers then
      if d.returned (.consumer ⟨i, h⟩) then .step d (.joinConsumers (i + 1)) else .block
    else .step (d.finish .main) .returned
  | _ => .block

def program (producers consumers : ℕ) :
    Client (Thread producers consumers) (Results producers consumers) Program
  | _, .returned, _ => .finish
  | t, .start k, d => if d.created t then .step d k else .block
  | .producer p, k, d => producer p d k
  | .consumer c, k, d => consumer c d k
  | .main, k, d => main d k

def programStart (items : Fin producers → List Int) : Thread producers consumers → Program
  | .producer p => .start (.produce (items p))
  | .consumer _ => .start .zeroCount
  | .main => .createConsumers 0

def programSystem (consumers : ℕ) (cap : ℕ) (mem : ℕ → Int) (items : Fin producers → List Int) :
    System (State (Thread producers consumers)
      (Shared (Thread producers consumers) (Results producers consumers)) Cv (Pc Program))
      (Label (Thread producers consumers)) :=
  bufferSystem (program producers consumers) cap mem Results.init (programStart items)

end MultithreadMayhem.BoundedBuffer
