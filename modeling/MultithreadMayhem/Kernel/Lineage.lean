import MultithreadMayhem.Kernel.ThreadGroups

/-!
# The history of forks, exits and waits

`Log.Proper` says which histories are those of a kernel in which every child is reaped
at most once, by the right process and with the right status. A wait copies out the
status of a child, reaps it and returns its pid; in between the thread has a debt.
-/

namespace MultithreadMayhem.Kernel

variable {n : ℕ} {C : Type}

/-- What a wait has done with a child and not yet finished. -/
inductive Debt
  | copied (v : Int)
  | reaped (v : Int)
  deriving DecidableEq

namespace Event

def family : Event n → Bool
  | fork _ _ | forkReturns _ _ | exit _ _ | copyout _ _ | reap _ _ _ | waitReturns _ _ => true
  | _ => false

def forked : Event n → Option Int
  | fork _ v => some v
  | _ => none

def exited : Event n → Option Int
  | exit v _ => some v
  | _ => none

def reaped : Event n → Option Int
  | reap _ _ v => some v
  | _ => none

def collected : Event n → Option Int
  | waitReturns _ v => if v = -1 then none else some v
  | _ => none

/-- What the thread owes after the event, if the event changes that. -/
def settles : Event n → Option (Option Debt)
  | copyout v _ => some (some (.copied v))
  | reap _ _ v => some (some (.reaped v))
  | waitReturns _ _ => some none
  | _ => none

end Event

/-- The statements of `fork`, `exit` and `wait` that have events. -/
inductive Frame.Marks (sh : Shared n) : Frame n → Event n → Prop
  | fork {p np : Fin n} {pid : Int} :
      Marks sh (kfork p (.setParent np pid)) (.fork (sh.proc p).pid pid)
  | forkReturns {p : Fin n} {v : Int} :
      Marks sh (kfork p (.done v)) (.forkReturns (sh.proc p).pid v)
  | exit {p : Fin n} {status : Int} :
      Marks sh (kexit p status .setState) (.exit (sh.proc p).pid status)
  | copyout {p j : Fin n} {addr : BitVec 64} {pid : Int} :
      Marks sh (kwait p addr (.copyout j pid)) (.copyout (sh.proc j).pid (sh.proc j).xstate)
  | reap {p j : Fin n} {addr : BitVec 64} {pid : Int} :
      Marks sh (kwait p addr (.freeproc j pid)) (.reap (sh.proc p).pid j (sh.proc j).pid)
  | waitReturns {p : Fin n} {addr : BitVec 64} {v : Int} :
      Marks sh (kwait p addr (.done v)) (.waitReturns (sh.proc p).pid v)
  | other {f : Frame n} {e : Event n} (he : e.family = false) : Marks sh f e

theorem Frame.event_marks {sh : Shared n} {f g : Frame n} {e : Event n}
    (he : f.event sh g = some e) : f.Marks sh e := by
  unfold Frame.event at he
  split at he
  case h_5 =>
    cases he
    exact .fork
  case h_6 =>
    cases he
    exact .forkReturns
  case h_7 =>
    cases he
    exact .exit
  case h_8 =>
    split at he
    · split at he <;> cases he
      exact .copyout
    · cases he
  case h_9 =>
    cases he
    exact .reap
  case h_10 =>
    cases he
    exact .waitReturns
  case h_11 =>
    split at he
    · cases he
      exact .other rfl
    · split at he <;> cases he
      exact .other rfl
    · cases he
  case h_12 =>
    split at he <;> cases he
    exact .other rfl
  all_goals cases he <;> exact .other rfl

namespace Event

variable {e : Event n}

theorem forked_of_family (h : e.family = false) : e.forked = none := by
  cases e <;> first | rfl | cases h

theorem exited_of_family (h : e.family = false) : e.exited = none := by
  cases e <;> first | rfl | cases h

theorem reaped_of_family (h : e.family = false) : e.reaped = none := by
  cases e <;> first | rfl | cases h

theorem settles_of_family (h : e.family = false) : e.settles = none := by
  cases e <;> first | rfl | cases h

end Event

namespace Log

theorem mem_filterMap_add {φ : Event n → Option Int} {log : Log n C} {t : Thread n C}
    {e : Option (Event n)} {v : Int} (h : v ∈ (log.add t e).filterMap fun e => φ e.2) :
    v ∈ log.filterMap (fun e => φ e.2) ∨ ∃ e', e = some e' ∧ φ e' = some v := by
  obtain _ | e' := e
  · exact .inl h
  · obtain ⟨te, hmem, hv⟩ := List.mem_filterMap.mp h
    obtain rfl | hmem := List.mem_cons.mp hmem
    · exact .inr ⟨e', rfl, hv⟩
    · exact .inl (List.mem_filterMap.mpr ⟨te, hmem, hv⟩)

def forked (log : Log n C) : List Int := log.filterMap fun e => e.2.forked

def exited (log : Log n C) : List Int := log.filterMap fun e => e.2.exited

def reaped (log : Log n C) : List Int := log.filterMap fun e => e.2.reaped

def collected (log : Log n C) : List Int := log.filterMap fun e => e.2.collected

variable [DecidableEq C]

def owed (t : Thread n C) : Log n C → Option Debt
  | [] => none
  | (u, e) :: log => if u = t then e.settles.getD (owed t log) else owed t log

/-- The process `v` has exited. It has been forked by the process `q` of the thread `t`, or `t` is
the thread of the process `first` and the one that has forked `v` has exited. -/
def Reared (log : Log n C) (first : Option (Fin n)) (q : Int) (t : Thread n C) (v : Int) : Prop :=
  v ∈ log.exited ∧ ∃ u f, (u, .fork f v) ∈ log ∧
    (f = q ∨ first.map .proc = some t ∧ f ∈ log.exited)

end Log

variable [DecidableEq C]

/-- What must have happened before an event of the thread `t`; `first` is `initproc`. -/
def Event.Proper (first : Option (Fin n)) (log : Log n C) (t : Thread n C) : Event n → Prop
  | fork _ v => v ∉ log.forked
  | forkReturns f v => v = -1 ∨ ∃ u, (u, .fork f v) ∈ log
  | exit v _ => v ∉ log.exited
  | copyout v status => ∃ u, (u, .exit v status) ∈ log
  | reap q _ v => v ∉ log.reaped ∧ (∀ w, log.owed t = some (.copied w) → w = v) ∧
      log.Reared first q t v
  | waitReturns q v => v = -1 ∧ log.owed t = none ∨
      v ≠ -1 ∧ log.owed t = some (.reaped v) ∧ log.Reared first q t v
  | _ => True

def Log.Proper (first : Option (Fin n)) : Log n C → Prop
  | [] => True
  | (t, e) :: log => e.Proper first log t ∧ Log.Proper first log

namespace Log

variable {log later before : Log n C} {first : Option (Fin n)} {t : Thread n C} {e : Event n}
  {v : Int}

theorem owed_cons_self (t : Thread n C) (e : Event n) (log : Log n C) :
    owed t ((t, e) :: log) = e.settles.getD (log.owed t) := if_pos rfl

theorem owed_cons_of_ne {u : Thread n C} (h : u ≠ t) (e : Event n) (log : Log n C) :
    owed t ((u, e) :: log) = log.owed t := if_neg h

theorem owed_cons_of_settles (h : e.settles = none) (u t : Thread n C) (log : Log n C) :
    owed t ((u, e) :: log) = log.owed t := by
  by_cases hu : u = t
  · subst u
    rw [owed_cons_self, h, Option.getD_none]
  · exact owed_cons_of_ne hu e log

omit [DecidableEq C] in
theorem subset_add (log : Log n C) (t : Thread n C) (e : Option (Event n)) : log ⊆ log.add t e := by
  cases e with
  | none => exact List.Subset.refl _
  | some e => exact List.subset_cons_self _ _

omit [DecidableEq C] in
theorem exited_mono {log' : Log n C} (hsub : log ⊆ log') : log.exited ⊆ log'.exited := by
  intro w hw
  obtain ⟨e, he, hw⟩ := List.mem_filterMap.mp hw
  exact List.mem_filterMap.mpr ⟨e, hsub he, hw⟩

omit [DecidableEq C] in
theorem Reared.mono {log' : Log n C} {q : Int} (h : log.Reared first q t v) (hsub : log ⊆ log') :
    log'.Reared first q t v := by
  obtain ⟨hv, u, f, hfork, hreaper⟩ := h
  exact ⟨exited_mono hsub hv, u, f, hsub hfork,
    hreaper.imp_right fun h => ⟨h.1, exited_mono hsub h.2⟩⟩

omit [DecidableEq C] in
theorem Reared.of_none {q : Int} (h : log.Reared none q t v) (first : Option (Fin n)) :
    log.Reared first q t v := by
  obtain ⟨hv, u, f, hfork, hf | ⟨hinit, -⟩⟩ := h
  · exact ⟨hv, u, f, hfork, .inl hf⟩
  · cases hinit

namespace Proper

theorem of_none (h : log.Proper none) (first : Option (Fin n)) : log.Proper first := by
  induction log with
  | nil => trivial
  | cons te log ih =>
    obtain ⟨t, e⟩ := te
    refine ⟨?_, ih h.2⟩
    have hold := h.1
    cases e with
    | reap q j v => exact ⟨hold.1, hold.2.1, hold.2.2.of_none first⟩
    | waitReturns q v => exact hold.imp_right fun h => ⟨h.1, h.2.1, h.2.2.of_none first⟩
    | _ => exact hold

end Proper

/-- The pids that waits have returned or owe are pids of reaped children, each at one place. -/
structure Accounted (log : Log n C) : Prop where
  nodup : log.collected.Nodup
  collected : ∀ v ∈ log.collected, v ∈ log.reaped
  owed : ∀ t v, log.owed t = some (.reaped v) → v ∈ log.reaped ∧ v ∉ log.collected
  once : ∀ t t' v, log.owed t = some (.reaped v) → log.owed t' = some (.reaped v) → t = t'

theorem Accounted.reap {q : Int} {j : Fin n} (h : log.Accounted) (hv : v ∉ log.reaped) :
    Accounted ((t, .reap q j v) :: log) := by
  have hnew : Log.owed t ((t, .reap q j v) :: log) = some (.reaped v) := owed_cons_self _ _ _
  have old {u : Thread n C} (hu : u ≠ t) :
      Log.owed u ((t, .reap q j v) :: log) = log.owed u := owed_cons_of_ne hu.symm _ _
  constructor
  · exact h.nodup
  · exact fun w hw => List.mem_cons_of_mem _ (h.collected w hw)
  · intro u w hw
    by_cases hu : u = t
    · subst u
      cases hnew.symm.trans hw
      exact ⟨List.mem_cons_self, fun hmem => hv (h.collected _ hmem)⟩
    · rw [old hu] at hw
      exact ⟨List.mem_cons_of_mem _ (h.owed u w hw).1, (h.owed u w hw).2⟩
  · intro u u' w hw hw'
    by_cases hu : u = t
    · subst u
      cases hnew.symm.trans hw
      by_contra hne
      rw [old (Ne.symm hne)] at hw'
      exact hv (h.owed u' _ hw').1
    · rw [old hu] at hw
      by_cases hu' : u' = t
      · subst u'
        cases hnew.symm.trans hw'
        exact absurd (h.owed u _ hw).1 hv
      · rw [old hu'] at hw'
        exact h.once u u' w hw hw'

theorem owed_reaped (he : ∀ d, e.settles = some (some d) → ∃ w, d = .copied w) {u : Thread n C}
    (hu : Log.owed u ((t, e) :: log) = some (.reaped v)) :
    log.owed u = some (.reaped v) ∧ (u = t → e.settles = none) := by
  obtain rfl | hne := eq_or_ne u t
  · rw [owed_cons_self] at hu
    obtain hsettles | ⟨_ | d, hsettles⟩ := Option.eq_none_or_eq_some e.settles
    · rw [hsettles, Option.getD_none] at hu
      exact ⟨hu, fun _ => hsettles⟩
    · rw [hsettles, Option.getD_some] at hu
      cases hu
    · obtain ⟨w, rfl⟩ := he d hsettles
      rw [hsettles, Option.getD_some] at hu
      cases hu
  · rw [owed_cons_of_ne hne.symm] at hu
    exact ⟨hu, fun heq => absurd heq hne⟩

theorem Accounted.waitReturns {q : Int} (h : log.Accounted)
    (howed : v = -1 ∧ log.owed t = none ∨ v ≠ -1 ∧ log.owed t = some (.reaped v)) :
    Accounted ((t, .waitReturns q v) :: log) := by
  have other {u : Thread n C} {w : Int}
      (hw : Log.owed u ((t, .waitReturns q v) :: log) = some (.reaped w)) :
      u ≠ t ∧ log.owed u = some (.reaped w) := by
    obtain ⟨hold, hsettles⟩ := owed_reaped (by rintro d ⟨⟩) hw
    exact ⟨fun hu => absurd (hsettles hu) (by rintro ⟨⟩), hold⟩
  have once : ∀ u u' w, Log.owed u ((t, .waitReturns q v) :: log) = some (.reaped w) →
      Log.owed u' ((t, .waitReturns q v) :: log) = some (.reaped w) → u = u' :=
    fun u u' w hw hw' => h.once u u' w (other hw).2 (other hw').2
  obtain ⟨rfl, hnone⟩ | ⟨hv, hsome⟩ := howed
  · exact ⟨h.nodup, h.collected, fun u w hw => h.owed u w (other hw).2, once⟩
  · have hcollected : Log.collected ((t, .waitReturns q v) :: log) = v :: log.collected := by
      rw [Log.collected, List.filterMap_cons]
      simp only [Event.collected, if_neg hv]
      rfl
    constructor
    · rw [hcollected]
      exact List.nodup_cons.mpr ⟨(h.owed t v hsome).2, h.nodup⟩
    · rw [hcollected]
      intro w hw
      obtain rfl | hw := List.mem_cons.mp hw
      · exact (h.owed t _ hsome).1
      · exact h.collected w hw
    · intro u w hw
      obtain ⟨hu, hold⟩ := other hw
      rw [hcollected]
      refine ⟨(h.owed u w hold).1, fun hmem => ?_⟩
      obtain rfl | hmem := List.mem_cons.mp hmem
      · exact hu (h.once u t _ hold hsome)
      · exact (h.owed u w hold).2 hmem
    · exact once

theorem Accounted.other (h : log.Accounted)
    (hsettles : ∀ d, e.settles = some (some d) → ∃ w, d = .copied w)
    (hcollected : Log.collected ((t, e) :: log) = log.collected)
    (hreaped : Log.reaped ((t, e) :: log) = log.reaped) : Accounted ((t, e) :: log) := by
  constructor
  · rw [hcollected]
    exact h.nodup
  · rw [hcollected, hreaped]
    exact h.collected
  · intro u w hw
    rw [hcollected, hreaped]
    exact h.owed u w (owed_reaped hsettles hw).1
  · intro u u' w hw hw'
    exact h.once u u' w (owed_reaped hsettles hw).1 (owed_reaped hsettles hw').1

end Log

end MultithreadMayhem.Kernel
