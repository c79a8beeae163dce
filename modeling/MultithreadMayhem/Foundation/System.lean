import Mathlib.Logic.Function.Basic
import Mathlib.Data.List.Basic

/-!
# Labelled transition systems with a functional step

The label of a step resolves every choice (which thread runs, which waiter is
woken, what an allocation returns), so that a step is a partial function and a
finite run can be evaluated. Safety is induction over the reachable states;
claims about an interval of a run are claims about the paths inside a set of
states.
-/

namespace MultithreadMayhem.Foundation

universe u v

structure System (S : Type u) (L : Type v) where
  init : S
  step : S → L → Option S

namespace System

variable {S : Type u} {L : Type v} (M : System S L)

inductive Reachable : S → Prop
  | init : Reachable M.init
  | step {s s' : S} {l : L} : Reachable s → M.step s l = some s' → Reachable s'

/-- The state after the steps `ls`, if each of them can be taken. -/
def run (s : S) : List L → Option S
  | [] => some s
  | l :: ls => (M.step s l).bind fun t => run t ls

/-- The state after the steps `ls`, if all states on the way satisfy `Q`. -/
def runInside (Q : S → Prop) [DecidablePred Q] (s : S) : List L → Option S
  | [] => if Q s then some s else none
  | l :: ls => if Q s then (M.step s l).bind fun t => runInside Q t ls else none

/-- A run from `s` to `s'` all of whose states satisfy `Q`, the two ends included. -/
inductive Path (Q : S → Prop) : S → S → Prop
  | refl {s : S} : Q s → Path Q s s
  | step {s t u : S} {l : L} : Path Q s t → M.step t l = some u → Q u → Path Q s u

variable {M}

theorem Reachable.invariant (Inv : S → Prop) (hinit : Inv M.init)
    (hstep : ∀ s l s', M.Reachable s → Inv s → M.step s l = some s' → Inv s')
    {s : S} (h : M.Reachable s) : Inv s := by
  induction h with
  | init => exact hinit
  | step hr hs ih => exact hstep _ _ _ hr ih hs

theorem Reachable.of_run {s s' : S} (h : M.Reachable s) (ls : List L)
    (hrun : M.run s ls = some s') : M.Reachable s' := by
  induction ls generalizing s with
  | nil =>
    cases hrun
    exact h
  | cons l ls ih =>
    obtain ⟨t, ht, hrun⟩ := Option.bind_eq_some_iff.mp hrun
    exact ih (h.step ht) hrun

theorem reachable_of_run (ls : List L) {s : S} (h : M.run M.init ls = some s) : M.Reachable s :=
  Reachable.init.of_run ls h

theorem Path.left {Q : S → Prop} {s s' : S} (h : M.Path Q s s') : Q s := by
  induction h with
  | refl hq => exact hq
  | step _ _ _ ih => exact ih

theorem Path.right {Q : S → Prop} {s s' : S} (h : M.Path Q s s') : Q s' := by
  cases h with
  | refl hq => exact hq
  | step _ _ hq => exact hq

theorem Path.head {Q : S → Prop} {s t u : S} {l : L} (hs : Q s) (ht : M.step s l = some t)
    (h : M.Path Q t u) : M.Path Q s u := by
  induction h with
  | refl hq => exact .step (.refl hs) ht hq
  | step _ hu hq ih => exact .step ih hu hq

theorem path_of_runInside {Q : S → Prop} [DecidablePred Q] {s s' : S} (ls : List L)
    (h : M.runInside Q s ls = some s') : M.Path Q s s' := by
  induction ls generalizing s with
  | nil =>
    rw [runInside] at h
    split at h <;> cases h
    exact .refl ‹_›
  | cons l ls ih =>
    rw [runInside] at h
    split at h
    · obtain ⟨t, ht, h⟩ := Option.bind_eq_some_iff.mp h
      exact .head ‹_› ht (ih h)
    · cases h

theorem Path.mono {P Q : S → Prop} {s s' : S} (h : M.Path P s s') (hPQ : ∀ s, P s → Q s) :
    M.Path Q s s' := by
  induction h with
  | refl hp => exact .refl (hPQ _ hp)
  | step _ ht hp ih => exact .step ih ht (hPQ _ hp)

theorem Path.reachable {Q : S → Prop} {s s' : S} (h : M.Path Q s s') (hs : M.Reachable s) :
    M.Reachable s' := by
  induction h with
  | refl => exact hs
  | step _ ht _ ih => exact ih.step ht

/-- An invariant that a step keeps inside `Q` holds at the end of a path inside `Q`. -/
theorem Path.invariant {Q : S → Prop} (Inv : S → Prop) {s s' : S} (h : M.Path Q s s') (hs : Inv s)
    (hstep : ∀ t l u, Q t → Inv t → M.step t l = some u → Q u → Inv u) : Inv s' := by
  induction h with
  | refl => exact hs
  | step hp ht hq ih => exact hstep _ _ _ hp.right ih ht hq

end System

end MultithreadMayhem.Foundation
