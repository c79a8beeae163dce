import MultithreadMayhem.Foundation.System
import Mathlib.Logic.Relation

/-!
# The life of processes

An abstract table of processes over any type of names: each is in a stage of its life and
has at most one parent, and one of them is the root that orphans are given to. The rules
say what may happen to one process, and what the others must be like for it to happen.
-/

namespace MultithreadMayhem.Foundation

open Relation

universe u v

inductive Stage
  | absent
  | embryo
  | ready
  | running
  | blocked
  | zombie
  deriving DecidableEq

/-- The processes by name, with their parents. -/
@[ext]
structure ProcessTable (α : Type u) where
  stage : α → Stage
  parent : α → Option α
  root : Option α

namespace ProcessTable

variable {α : Type u} [DecidableEq α]

def empty : ProcessTable α := ⟨fun _ => .absent, fun _ => none, none⟩

def enter (t : ProcessTable α) (a : α) (st : Stage) : ProcessTable α :=
  { t with stage := Function.update t.stage a st }

def entrust (t : ProcessTable α) (a : α) (p : Option α) : ProcessTable α :=
  { t with parent := Function.update t.parent a p }

theorem entrust_self {t : ProcessTable α} {a : α} {p : Option α} (h : t.parent a = p) :
    t.entrust a p = t := by
  unfold entrust
  rw [← h, Function.update_eq_self]

/-- One event in the life of one process. -/
inductive Step (t : ProcessTable α) : ProcessTable α → Prop
  | create {a : α} (ha : t.stage a = .absent) (hp : t.parent a = none) : Step t (t.enter a .embryo)
  | abandon {a : α} (ha : t.stage a = .embryo) (hp : t.parent a = none) :
      Step t (t.enter a .absent)
  | elect {a : α} (ha : t.stage a = .embryo) (hroot : t.root = none) : Step t { t with root := some a }
  | adopt {a p : α} (ha : t.stage a = .embryo) (hnone : t.parent a = none)
      (hp : t.stage p = .running) : Step t (t.entrust a (some p))
  | launch {a : α} (ha : t.stage a = .embryo) (hp : t.parent a ≠ none ∨ t.root = some a) :
      Step t (t.enter a .ready)
  | dispatch {a : α} (ha : t.stage a = .ready) : Step t (t.enter a .running)
  | preempt {a : α} (ha : t.stage a = .running) : Step t (t.enter a .ready)
  | block {a : α} (ha : t.stage a = .running) : Step t (t.enter a .blocked)
  | wake {a : α} (ha : t.stage a = .blocked) : Step t (t.enter a .ready)
  /-- A process that is about to exit gives a child to the root. -/
  | orphan {a p r : α} (ha : t.parent a = some p) (hp : t.stage p = .running)
      (hr : t.root = some r) (hne : p ≠ r) : Step t (t.entrust a (some r))
  | exit {a : α} (ha : t.stage a = .running) (hroot : t.root ≠ some a)
      (hchildren : ∀ b, t.parent b ≠ some a) : Step t (t.enter a .zombie)
  | reap {a p : α} (ha : t.stage a = .zombie) (hp : t.parent a = some p)
      (hrun : t.stage p = .running) : Step t ((t.enter a .absent).entrust a none)

end ProcessTable

/-- A system whose steps are steps of a relation, or nothing, under an abstraction. -/
theorem System.Reachable.refines {S : Type u} {L : Type v} {T : Type u} {M : System S L}
    (abs : S → T) (R : T → T → Prop)
    (hstep : ∀ s l s', M.Reachable s → M.step s l = some s' → abs s' = abs s ∨ R (abs s) (abs s'))
    {s : S} (hs : M.Reachable s) : ReflTransGen R (abs M.init) (abs s) := by
  induction hs with
  | init => exact .refl
  | step hr ht ih =>
    obtain heq | hR := hstep _ _ _ hr ht
    · rwa [heq]
    · exact ih.tail hR

end MultithreadMayhem.Foundation
