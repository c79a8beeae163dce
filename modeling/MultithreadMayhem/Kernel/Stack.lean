import MultithreadMayhem.Kernel.Machine
import MultithreadMayhem.Kernel.Plays

/-!
# Stacks of frames

A stack is well formed when every frame is called by the one below it or
interrupts it, and finds the locks that it expects of its callers. The locks of a
stack are those of its frames together.
-/

namespace MultithreadMayhem.Kernel

variable {n : ℕ} {C : Type}

def held : List (Frame n) → Multiset (Lock n)
  | [] => 0
  | f :: rest => f.locks + held rest

def built : List (Frame n) → Multiset (Fin n)
  | [] => 0
  | f :: rest => f.builds + built rest

def readied : List (Frame n) → Multiset (Fin n)
  | [] => 0
  | f :: rest => f.ready + readied rest

def known : List (Frame n) → List (Fin n × Procstate)
  | [] => []
  | f :: rest => f.knows ++ known rest

def leavingTop : List (Frame n) → Bool
  | [] => false
  | f :: _ => f.leaving

/-- The process that the bottom frame is dispatching; such a frame is alone on its stack. -/
def dispatched : List (Frame n) → Option (Fin n)
  | [f] => f.dispatching
  | _ => none

def bottomCurrent : List (Frame n) → Option (Fin n)
  | [] => none
  | [f] => f.current
  | _ :: g :: rest => bottomCurrent (g :: rest)

/-- The frame `f` is called by `g`, or interrupts it, or has stopped the kernel. -/
def Frame.Above (f g : Frame n) : Prop := f.fn = .isr ∨ f.fn = .panic ∨ g.Awaits f.fn

def Frame.IsBase (f : Frame n) : Prop := f.fn = .idle ∨ ∃ p, f.fn = .process p

def StackOk (t : Thread n C) : List (Frame n) → Prop
  | [] => True
  | [f] => f.IsBase ∧ f.fn.On t ∧ f.WF
  | f :: g :: rest => f.Above g ∧ f.fn.Pre (held (g :: rest)) ∧ f.fn.On t ∧ f.WF ∧
      StackOk t (g :: rest)

/-- What can be on top of a stack that a scheduler switches to. -/
def Resumable (q : Fin n) (fs : List (Frame n)) : Prop :=
  ∃ f rest, fs = f :: rest ∧ (f = .sched q .done ∨ f = .forkret q .release)

section Basic

variable {t : Thread n C} {f g : Frame n} {rest fs : List (Frame n)}

@[simp]
theorem held_nil : held ([] : List (Frame n)) = 0 := rfl

@[simp]
theorem held_cons : held (f :: rest) = f.locks + held rest := rfl

@[simp]
theorem built_nil : built ([] : List (Frame n)) = 0 := rfl

@[simp]
theorem built_cons : built (f :: rest) = f.builds + built rest := rfl

@[simp]
theorem readied_cons : readied (f :: rest) = f.ready + readied rest := rfl

@[simp]
theorem known_cons : known (f :: rest) = f.knows ++ known rest := rfl

@[simp]
theorem leavingTop_cons : leavingTop (f :: rest) = f.leaving := rfl

theorem mem_held_of_known {e : Fin n × Procstate} (he : e ∈ known fs) :
    Lock.proc e.1 ∈ held fs := by
  induction fs with
  | nil => cases he
  | cons f rest ih =>
    rw [held_cons, Multiset.mem_add]
    obtain he | he := List.mem_append.mp he
    · exact .inl (Frame.knows_locked he)
    · exact .inr (ih he)

theorem readied_subset : readied fs ⊆ built fs := by
  induction fs with
  | nil => exact Multiset.zero_subset _
  | cons f rest ih =>
    intro j hj
    obtain hj | hj := Multiset.mem_add.mp hj
    · exact Multiset.mem_add.mpr (.inl (f.ready_subset hj))
    · exact Multiset.mem_add.mpr (.inr (ih hj))

theorem StackOk.tail (h : StackOk t (f :: rest)) : StackOk t rest := by
  cases rest with
  | nil => trivial
  | cons g rest => exact h.2.2.2.2

theorem StackOk.drop {pre : List (Frame n)} (h : StackOk t (pre ++ fs)) : StackOk t fs := by
  induction pre with
  | nil => exact h
  | cons f pre ih => exact ih h.tail

theorem StackOk.on (h : StackOk t (f :: rest)) : f.fn.On t := by
  cases rest with
  | nil => exact h.2.1
  | cons g rest => exact h.2.2.1

theorem StackOk.wf (h : StackOk t (f :: rest)) : f.WF := by
  cases rest with
  | nil => exact h.2.2
  | cons g rest => exact h.2.2.2.1

theorem StackOk.pre (h : StackOk t (f :: rest)) : f.fn.Pre (held rest) := by
  cases rest with
  | nil =>
    obtain hf | ⟨p, hf⟩ := h.1
    · rw [hf]
      rfl
    · rw [hf]
      rfl
  | cons g rest => exact h.2.1

theorem StackOk.replace (h : StackOk t (f :: rest)) (hfn : g.fn = f.fn) (hwf : g.WF) :
    StackOk t (g :: rest) := by
  cases rest with
  | nil =>
    refine ⟨?_, hfn ▸ h.on, hwf⟩
    obtain hf | ⟨p, hf⟩ := h.1
    · exact .inl (hfn.trans hf)
    · exact .inr ⟨p, hfn.trans hf⟩
  | cons g' rest =>
    obtain ⟨ha, hp, ho, _, hr⟩ := h
    refine ⟨?_, hfn ▸ hp, hfn ▸ ho, hwf, hr⟩
    unfold Frame.Above
    rw [hfn]
    exact ha

theorem Frame.Awaits.fn_ne_base {fn : Fn n} (h : g.Awaits fn) :
    fn ≠ .idle ∧ (∀ p, fn ≠ .process p) ∧ fn ≠ .panic := by
  cases h.calls <;> exact ⟨nofun, nofun, nofun⟩

theorem StackOk.rest_eq_nil (h : StackOk t (f :: rest)) (hf : f.IsBase) : rest = [] := by
  cases rest with
  | nil => rfl
  | cons g rest =>
    obtain ha | ha | ha := h.1
    · obtain hf | ⟨p, hf⟩ := hf <;> rw [hf] at ha <;> cases ha
    · obtain hf | ⟨p, hf⟩ := hf <;> rw [hf] at ha <;> cases ha
    · obtain hf | ⟨p, hf⟩ := hf
      · exact absurd hf ha.fn_ne_base.1
      · exact absurd hf (ha.fn_ne_base.2.1 p)

theorem Frame.Awaits.not_idle {fn : Fn n} (h : g.Awaits fn) :
    g.fn ≠ .panic ∧ g.current = none ∧ g.dispatching = none := by
  cases h.calls with
  | @extWakeup kind | @extKilled kind | @extYield kind | @extSleep kind =>
    cases kind <;> exact ⟨nofun, rfl, rfl⟩
  | _ => exact ⟨nofun, rfl, rfl⟩

theorem Frame.Awaits.resume {fn : Fn n} (h : g.Awaits fn) (v : Val n) :
    (g.resume v).builds = fn.makes v + g.builds ∧ (g.resume v).ready = fn.makes v + g.ready ∧
      (g.resume v).leaving = false ∧ (g.resume v).dispatching = none ∧
      (g.resume v).current = none ∧ (g.resume v).knows ⊆ g.knows := by
  cases h.calls with
  | initAllocproc | forkAllocproc =>
    obtain _ | _ | p := v
    · exact ⟨rfl, rfl, rfl, rfl, rfl, nofun⟩
    · exact ⟨rfl, rfl, rfl, rfl, rfl, nofun⟩
    · exact ⟨rfl, rfl, rfl, rfl, rfl, nofun⟩
  | allocpid =>
    cases v <;>
      exact ⟨(zero_add _).symm, (zero_add _).symm, rfl, rfl, rfl, List.Subset.refl _⟩
  | kexec | waitKilled | sysFork | sysExit | sysWait | sysPid | sysOther =>
    cases v <;> exact ⟨(zero_add _).symm, (zero_add _).symm, rfl, rfl, rfl, nofun⟩
  | _ => exact ⟨(zero_add _).symm, (zero_add _).symm, rfl, rfl, rfl, nofun⟩

theorem mem_locks_of_current {b : Fin n} (h : f.current = some b) : Lock.proc b ∈ f.locks := by
  unfold Frame.current at h
  split at h <;> cases h <;> exact Multiset.mem_singleton_self _

theorem mem_locks_of_dispatching {b : Fin n} (h : f.dispatching = some b) :
    Lock.proc b ∈ f.locks := by
  unfold Frame.dispatching at h
  split at h <;> cases h <;> exact Multiset.mem_singleton_self _

theorem mem_held_of_dispatched {b : Fin n} (h : dispatched fs = some b) :
    Lock.proc b ∈ held fs := by
  obtain _ | ⟨f, _ | _⟩ := fs
  · cases h
  · exact Multiset.mem_add.mpr (.inl (mem_locks_of_dispatching h))
  · cases h

theorem mem_held_of_bottomCurrent {b : Fin n} (h : bottomCurrent fs = some b) :
    Lock.proc b ∈ held fs := by
  induction fs with
  | nil => cases h
  | cons f rest ih =>
    rw [held_cons, Multiset.mem_add]
    cases rest with
    | nil => exact .inl (mem_locks_of_current h)
    | cons g rest => exact .inr (ih h)

theorem bottomCurrent_replace (h : g.current = f.current) :
    bottomCurrent (g :: rest) = bottomCurrent (f :: rest) := by
  cases rest with
  | nil => exact h
  | cons => rfl

theorem bottomCurrent_above (h : StackOk t (f :: g :: rest)) (hf : f.fn ≠ .panic) :
    bottomCurrent (g :: rest) = none := by
  induction rest generalizing f g with
  | nil =>
    obtain hi | hp | ha := h.1
    · have hpre := h.pre
      rw [hi] at hpre
      cases hc : bottomCurrent [g] with
      | none => rfl
      | some b =>
        have hmem := mem_held_of_bottomCurrent hc
        rw [show held [g] = 0 from hpre] at hmem
        cases hmem
    · exact absurd hp hf
    · exact ha.not_idle.2.1
  | cons g' rest ih =>
    obtain hi | hp | ha := h.1
    · have hpre := h.pre
      rw [hi] at hpre
      cases hc : bottomCurrent (g :: g' :: rest) with
      | none => rfl
      | some b =>
        have hmem := mem_held_of_bottomCurrent hc
        rw [show held (g :: g' :: rest) = 0 from hpre] at hmem
        cases hmem
    · exact absurd hp hf
    · exact ih h.tail ha.not_idle.1

end Basic

theorem leaving_locked {t : Thread n C} {fs : List (Frame n)} (h : StackOk t fs)
    (hl : leavingTop fs = true) : ∃ q, t = .proc q ∧ Lock.proc q ∈ held fs := by
  cases fs with
  | nil => cases hl
  | cons f rest =>
    have hon := h.on
    have hpre := h.pre
    have own {q : Fin n} (ht : t = .proc q) (hq : Lock.proc q ∈ f.locks) :
        ∃ q, t = .proc q ∧ Lock.proc q ∈ held (f :: rest) :=
      ⟨q, ht, Multiset.mem_add.mpr (.inl hq)⟩
    rw [leavingTop_cons] at hl
    obtain ⟨p, rfl⟩ | ⟨p, ch, lk, rfl⟩ | ⟨p, status, rfl | rfl⟩ | ⟨p, pc, rfl⟩ :=
      Frame.cases_leaving hl
    · exact own hon (Multiset.mem_singleton_self _)
    · exact own hon (Multiset.mem_singleton_self _)
    · exact own hon (Multiset.mem_cons_of_mem (Multiset.mem_singleton_self _))
    · exact own hon (Multiset.mem_singleton_self _)
    · refine ⟨p, hon, Multiset.mem_add.mpr (.inr ?_)⟩
      rw [show held rest = {.proc p} from hpre]
      exact Multiset.mem_singleton_self _

theorem StackOk.quiet {t : Thread n C} {fs : List (Frame n)} (h : StackOk t fs)
    (hl : held fs = 0) : leavingTop fs = false ∧ dispatched fs = none := by
  constructor
  · cases hf : leavingTop fs with
    | false => rfl
    | true =>
      obtain ⟨_, _, hmem⟩ := leaving_locked h hf
      rw [hl] at hmem
      cases hmem
  · cases hd : dispatched fs with
    | none => rfl
    | some b =>
      have hmem := mem_held_of_dispatched hd
      rw [hl] at hmem
      cases hmem

end MultithreadMayhem.Kernel
