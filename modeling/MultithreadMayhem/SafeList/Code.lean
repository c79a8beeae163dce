import MultithreadMayhem.Foundation.LinkedHeap
import MultithreadMayhem.Pthread.Mutex
import Mathlib.Data.Fintype.Option

/-!
# The list with one lock

`safe_list.c`. The threads make any calls of `list_insert`, `list_contains` and
`list_remove`; `main` waits for them, makes calls of its own and destroys the list.
A statement that reads, writes or frees a node that is not allocated leads to
`fault`. The log tells the critical sections in the order in which they take effect.
-/

namespace MultithreadMayhem.SafeList

open Foundation Pthread

abbrev Thread (T : Type) := Option T

inductive Op
  | insert (val : Int32)
  | contains (val : Int32)
  | remove (val : Int32)
  deriving DecidableEq, Repr

/-- A critical section, with what it has found out. -/
inductive Section
  | insert (val : Int32)
  | contains (val : Int32) (found : Bool)
  | remove (val : Int32)
  | destroy
  deriving DecidableEq, Repr

def Section.apply (l : List Int32) : Section → List Int32
  | insert val => val :: l
  | contains _ _ => l
  | remove val => l.erase val
  | destroy => []

abbrev Log (T : Type) := List (Thread T × Section)

/-- The list after the sections, the latest of which comes first. -/
def contents {T : Type} (log : Log T) : List Int32 := log.foldr (fun e l => e.2.apply l) []

structure Shared (T : Type) where
  heap : Heap Int32
  head : Option ℕ
  /-- How often `malloc` was called. -/
  mallocs : ℕ
  finished : T → Bool
  log : Log T

inductive InsertPc
  | malloc
  | setValue (newNode : ℕ)
  | lock (newNode : ℕ)
  | setNext (newNode : ℕ)
  | setHead (newNode : ℕ)
  | unlock
  deriving DecidableEq, Repr

inductive ContainsPc
  | lock
  | start
  | loop (curr : Option ℕ)
  | advance (curr : ℕ)
  | unlock (found : Bool)
  | done (found : Bool)
  deriving DecidableEq, Repr

inductive RemovePc
  | lock
  | start
  | loop (curr prev : Option ℕ)
  | advance (curr : ℕ)
  | unlink (curr : ℕ) (prev : Option ℕ)
  | setHead (curr : ℕ) (next : Option ℕ)
  | setNext (curr prev : ℕ) (next : Option ℕ)
  | free (curr : ℕ)
  | unlock
  deriving DecidableEq, Repr

inductive DestroyPc
  | lock
  | start
  | loop (curr : Option ℕ)
  | advance (temp : ℕ)
  | free (temp : ℕ) (curr : Option ℕ)
  | setHead
  | unlock
  deriving DecidableEq, Repr

/-- `ops` are the calls that the thread still makes afterwards. -/
inductive Pc
  | join (ops : List Op)
  | client (ops : List Op)
  | insert (val : Int32) (pc : InsertPc) (ops : List Op)
  | contains (val : Int32) (pc : ContainsPc) (ops : List Op)
  | remove (val : Int32) (pc : RemovePc) (ops : List Op)
  | destroy (pc : DestroyPc)
  | finished
  /-- After an undefined access by the statement at `pc`. -/
  | fault (pc : Pc)
  deriving DecidableEq, Repr

abbrev Malloc := ℕ → Heap Int32 → ℕ × Node Int32

/-- `malloc` succeeds, with a node that is not allocated. -/
def Fresh (malloc : Malloc) : Prop := ∀ i (h : Heap Int32), h.node (malloc i h).1 = none

variable {T : Type}

def Shared.deref (x : Shared T) (a : ℕ) (k : Node Int32 → Act (Shared T) PEmpty Pc) :
    Option (Act (Shared T) PEmpty Pc) :=
  (x.heap.node a).map k

def listInsert (malloc : Malloc) (t : Thread T) (val : Int32) (ops : List Op) (x : Shared T) :
    InsertPc → Option (Act (Shared T) PEmpty Pc)
  | .malloc =>
    let (newNode, node) := malloc x.mallocs x.heap
    some (.exec { x with heap := x.heap.store newNode node, mallocs := x.mallocs + 1 }
      (.insert val (.setValue newNode) ops))
  | .setValue newNode =>
    x.deref newNode fun node =>
      .exec { x with heap := x.heap.store newNode { node with value := val } }
        (.insert val (.lock newNode) ops)
  | .lock newNode => some (.lock (.insert val (.setNext newNode) ops))
  | .setNext newNode =>
    x.deref newNode fun node =>
      .exec { x with heap := x.heap.store newNode { node with next := x.head } }
        (.insert val (.setHead newNode) ops)
  | .setHead newNode =>
    some (.exec { x with head := some newNode, log := (t, .insert val) :: x.log }
      (.insert val .unlock ops))
  | .unlock => some (.unlock (.client ops))

def listContains (t : Thread T) (val : Int32) (ops : List Op) (x : Shared T) :
    ContainsPc → Option (Act (Shared T) PEmpty Pc)
  | .lock => some (.lock (.contains val .start ops))
  | .start => some (.exec x (.contains val (.loop x.head) ops))
  | .loop none =>
    some (.exec { x with log := (t, .contains val false) :: x.log }
      (.contains val (.unlock false) ops))
  | .loop (some curr) =>
    x.deref curr fun node =>
      if node.value = val then
        .exec { x with log := (t, .contains val true) :: x.log } (.contains val (.unlock true) ops)
      else .exec x (.contains val (.advance curr) ops)
  | .advance curr => x.deref curr fun node => .exec x (.contains val (.loop node.next) ops)
  | .unlock found => some (.unlock (.contains val (.done found) ops))
  | .done _ => some (.exec x (.client ops))

def listRemove (t : Thread T) (val : Int32) (ops : List Op) (x : Shared T) :
    RemovePc → Option (Act (Shared T) PEmpty Pc)
  | .lock => some (.lock (.remove val .start ops))
  | .start => some (.exec x (.remove val (.loop x.head none) ops))
  | .loop none _ => some (.exec { x with log := (t, .remove val) :: x.log } (.remove val .unlock ops))
  | .loop (some curr) prev =>
    x.deref curr fun node =>
      if node.value = val then .exec x (.remove val (.unlink curr prev) ops)
      else .exec x (.remove val (.advance curr) ops)
  | .advance curr =>
    x.deref curr fun node => .exec x (.remove val (.loop node.next (some curr)) ops)
  | .unlink curr none =>
    x.deref curr fun node => .exec x (.remove val (.setHead curr node.next) ops)
  | .unlink curr (some prev) =>
    x.deref curr fun node => .exec x (.remove val (.setNext curr prev node.next) ops)
  | .setHead curr next => some (.exec { x with head := next } (.remove val (.free curr) ops))
  | .setNext curr prev next =>
    x.deref prev fun node =>
      .exec { x with heap := x.heap.store prev { node with next := next } }
        (.remove val (.free curr) ops)
  | .free curr =>
    x.deref curr fun _ =>
      .exec { x with heap := x.heap.free curr, log := (t, .remove val) :: x.log }
        (.remove val .unlock ops)
  | .unlock => some (.unlock (.client ops))

def listDestroy (t : Thread T) (x : Shared T) : DestroyPc → Option (Act (Shared T) PEmpty Pc)
  | .lock => some (.lock (.destroy .start))
  | .start => some (.exec x (.destroy (.loop x.head)))
  | .loop none => some (.exec x (.destroy .setHead))
  | .loop (some curr) => some (.exec x (.destroy (.advance curr)))
  | .advance temp => x.deref temp fun node => .exec x (.destroy (.free temp node.next))
  | .free temp curr =>
    x.deref temp fun _ => .exec { x with heap := x.heap.free temp } (.destroy (.loop curr))
  | .setHead =>
    some (.exec { x with head := none, log := (t, .destroy) :: x.log } (.destroy .unlock))
  | .unlock => some (.unlock .finished)

variable [DecidableEq T]

/-- The calls of a thread, one after the other. -/
def client (t : Thread T) (x : Shared T) : List Op → Act (Shared T) PEmpty Pc
  | .insert val :: ops => .exec x (.insert val .malloc ops)
  | .contains val :: ops => .exec x (.contains val .lock ops)
  | .remove val :: ops => .exec x (.remove val .lock ops)
  | [] =>
    match t with
    | some w => .exec { x with finished := Function.update x.finished w true } .finished
    | none => .exec x (.destroy .lock)

variable [Fintype T]

def statement (malloc : Malloc) (t : Thread T) (x : Shared T) :
    Pc → Option (Act (Shared T) PEmpty Pc)
  | .join ops => some (if ∀ w, x.finished w = true then .exec x (.client ops) else .block)
  | .client ops => some (client t x ops)
  | .insert val pc ops => listInsert malloc t val ops x pc
  | .contains val pc ops => listContains t val ops x pc
  | .remove val pc ops => listRemove t val ops x pc
  | .destroy pc => listDestroy t x pc
  | .finished => some .exit
  | .fault pc => some (.exec x (.fault pc))

def code (malloc : Malloc) (t : Thread T) (pc : Pc) (x : Shared T) : Act (Shared T) PEmpty Pc :=
  (statement malloc t x pc).getD (.exec x (.fault pc))

def programStart (ops : Thread T → List Op) : Thread T → Pc
  | some w => .client (ops (some w))
  | none => .join (ops none)

/-- The state after `list_init()`. -/
def listSystem (malloc : Malloc) (ops : Thread T → List Op) :
    System (State (Thread T) (Shared T) PEmpty Pc) (Label (Thread T)) :=
  Pthread.system (code malloc) ⟨.empty, none, 0, fun _ => false, []⟩ (programStart ops)

def Pc.inside : Pc → Bool
  | .insert _ pc _ =>
    match pc with
    | .setNext _ | .setHead _ | .unlock => true
    | _ => false
  | .contains _ pc _ =>
    match pc with
    | .lock | .done _ => false
    | _ => true
  | .remove _ pc _ => pc ≠ .lock
  | .destroy pc => pc ≠ .lock
  | .fault pc => pc.inside
  | _ => false

theorem code_disciplined (malloc : Malloc) :
    Disciplined (T := Thread T) (code malloc) Pc.inside := by
  intro t pc x
  cases pc with
  | join ops =>
    simp only [code, statement, Option.getD_some]
    split <;> rfl
  | client ops =>
    cases ops with
    | nil => cases t <;> rfl
    | cons op ops => cases op <;> rfl
  | insert val pc ops =>
    cases pc with
    | lock | unlock => exact ⟨rfl, rfl⟩
    | malloc | setHead => rfl
    | setValue a | setNext a =>
      simp only [code, statement, listInsert, Shared.deref]
      cases x.heap.node a <;> rfl
  | contains val pc ops =>
    cases pc with
    | lock | unlock => exact ⟨rfl, rfl⟩
    | start | done => rfl
    | loop curr =>
      cases curr with
      | none => rfl
      | some a =>
        simp only [code, statement, listContains, Shared.deref]
        cases x.heap.node a with
        | none => rfl
        | some node =>
          simp only [Option.map_some, Option.getD_some]
          split <;> rfl
    | advance a =>
      simp only [code, statement, listContains, Shared.deref]
      cases x.heap.node a <;> rfl
  | remove val pc ops =>
    cases pc with
    | lock | unlock => exact ⟨rfl, rfl⟩
    | start | setHead => rfl
    | loop curr prev =>
      cases curr with
      | none => rfl
      | some a =>
        simp only [code, statement, listRemove, Shared.deref]
        cases x.heap.node a with
        | none => rfl
        | some node =>
          simp only [Option.map_some, Option.getD_some]
          split <;> rfl
    | unlink a prev =>
      cases prev <;>
        simp only [code, statement, listRemove, Shared.deref] <;> cases x.heap.node a <;> rfl
    | advance a | free a =>
      simp only [code, statement, listRemove, Shared.deref]
      cases x.heap.node a <;> rfl
    | setNext curr a next =>
      simp only [code, statement, listRemove, Shared.deref]
      cases x.heap.node a <;> rfl
  | destroy pc =>
    cases pc with
    | lock | unlock => exact ⟨rfl, rfl⟩
    | start | setHead => rfl
    | loop curr => cases curr <;> rfl
    | advance a =>
      simp only [code, statement, listDestroy, Shared.deref]
      cases x.heap.node a <;> rfl
    | free a curr =>
      simp only [code, statement, listDestroy, Shared.deref]
      cases x.heap.node a <;> rfl
  | finished => rfl
  | fault pc => rfl

end MultithreadMayhem.SafeList
