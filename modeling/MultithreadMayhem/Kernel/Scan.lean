import Mathlib.Data.List.FinRange
import MultithreadMayhem.Foundation.FirstMin
import MultithreadMayhem.Kernel.Machine

/-!
# One pass of the scheduler over the table

A pass is a run in which the CPU takes the steps of its scheduler while the others
do anything that respects the locks of the slots. The run records each slot with
the state and the priority that the scheduler found when it examined it.
-/

namespace MultithreadMayhem.Kernel

open Foundation

variable {n nofile : ℕ} {C : Type} {c : C} {p b : Fin n} {best : Option (Fin n)}
  {pc : SchedulerPc n}

structure Examined (n : ℕ) where
  slot : Fin n
  state : Procstate
  priority : Int

namespace SchedulerPc

def scanning : SchedulerPc n → Bool
  | .loop _ _ | .acquire _ _ | .test _ _ | .releaseBest _ _ | .releaseSlot _ _ => true
  | _ => false

def examines (sh : Shared n) : SchedulerPc n → List (Examined n)
  | .test p _ => [⟨p, (sh.proc p).state, (sh.proc p).priority⟩]
  | _ => []

end SchedulerPc

/-- The CPU `c` executes its scheduler and nothing else. -/
def State.At (s : State n C) (c : C) (pc : SchedulerPc n) : Prop :=
  s.running c = .cpu c ∧ s.stack (.cpu c) = [.scheduler pc]

/-- A change by others that leaves the CPU `c` and the slots whose locks it holds alone. -/
structure Respects (c : C) (s s' : State n C) : Prop where
  running : s'.running c = s.running c
  stack : s'.stack (.cpu c) = s.stack (.cpu c)
  holder : ∀ j, s'.holder (.proc j) = some c ↔ s.holder (.proc j) = some c
  proc : ∀ j, s.holder (.proc j) = some c → s'.shared.proc j = s.shared.proc j

/-- A run from the start of a pass of the CPU `c`, with the slots that it has examined. -/
inductive ScanRun [DecidableEq C] (nofile : ℕ) (c : C) :
    State n C → List (Examined n) → State n C → Prop
  | start {s : State n C} (hs : s.At c (.loop 0 none)) (hl : ∀ j, s.holder (.proc j) ≠ some c) :
      ScanRun nofile c s [] s
  | own {s t u : State n C} {es : List (Examined n)} {pc : SchedulerPc n}
      (h : ScanRun nofile c s es t) (ht : t.At c pc) (hpc : pc.scanning = true)
      (hu : t.step nofile (c, .run) = some u) : ScanRun nofile c s (es ++ pc.examines t.shared) u
  | other {s t u : State n C} {es : List (Examined n)} (h : ScanRun nofile c s es t)
      (hu : Respects c t u) : ScanRun nofile c s es u

/-- What the scheduler knows when it has examined the slots below `i`; `mine` are the slots whose
locks it holds. -/
structure Scanned (c : C) (es : List (Examined n)) (s : State n C) (i : ℕ)
    (best : Option (Fin n)) (mine : Fin n → Prop) : Prop where
  slots : es.map Examined.slot = (List.finRange n).take i
  unpicked : best = none → ∀ e ∈ es, e.state ≠ .runnable
  picked : ∀ b ∈ best, ∃ e, FirstMin Examined.priority (·.state = .runnable) es e ∧ e.slot = b ∧
    (s.shared.proc b).state = .runnable ∧ (s.shared.proc b).priority = e.priority
  holder : ∀ j, s.holder (.proc j) = some c ↔ mine j

namespace Scanned

variable {es : List (Examined n)} {s s' : State n C} {i : ℕ} {mine : Fin n → Prop}

theorem respects (h : Scanned c es s i best mine) (hmine : ∀ b ∈ best, mine b)
    (hs : Respects c s s') : Scanned c es s' i best mine := by
  refine ⟨h.slots, h.unpicked, fun b hb => ?_, fun j => (hs.holder j).trans (h.holder j)⟩
  have hproc := hs.proc b ((h.holder b).mpr (hmine b hb))
  rw [hproc]
  exact h.picked b hb

theorem lt_of_mem (h : Scanned c es s p best mine) (hb : b ∈ best) : b < p := by
  obtain ⟨e, he, rfl, -⟩ := h.picked b hb
  have hmem : e.slot ∈ (List.finRange n).take p := h.slots ▸ List.mem_map_of_mem he.mem
  obtain ⟨k, hk, hek⟩ := List.mem_take_iff_getElem.mp hmem
  rw [List.getElem_finRange] at hek
  rw [← hek, Fin.lt_def]
  exact (lt_min_iff.mp hk).1

theorem snoc (h : Scanned c es s p best mine) (st : Procstate) (prio : Int) :
    (es ++ [Examined.mk p st prio]).map Examined.slot = (List.finRange n).take (p + 1) := by
  have hp : p.val < (List.finRange n).length := by
    rw [List.length_finRange]
    exact p.isLt
  rw [List.map_append, h.slots, List.take_succ_eq_append_getElem hp, List.getElem_finRange]
  rfl

theorem acquire_ne (h : Scanned c es s p best (· ∈ best)) : s.holder (.proc p) ≠ some c := by
  intro hp
  exact lt_irrefl p (h.lt_of_mem ((h.holder p).mp hp))

end Scanned

def ScanInv (c : C) (es : List (Examined n)) (s : State n C) : SchedulerPc n → Prop
  | .loop i best => Scanned c es s i best (· ∈ best)
  | .acquire p best => Scanned c es s p best (· ∈ best)
  | .test p best => Scanned c es s p best fun j => j = p ∨ j ∈ best
  | .releaseBest p b => b ≠ p ∧ Scanned c es s (p + 1) (some p) fun j => j = p ∨ j = b
  | .releaseSlot p best => p ∉ best ∧ Scanned c es s (p + 1) best fun j => j = p ∨ j ∈ best
  | .setState b => Scanned c es s n (some b) (· = b)
  | .start => Scanned c es s n none fun _ => False
  | _ => False

namespace ScanInv

variable {es : List (Examined n)} {s s' : State n C}

theorem respects (h : ScanInv c es s pc) (hs : Respects c s s') : ScanInv c es s' pc := by
  cases pc with
  | loop i best => exact Scanned.respects h (fun _ hb => hb) hs
  | acquire p best => exact Scanned.respects h (fun _ hb => hb) hs
  | test p best => exact Scanned.respects h (fun _ hb => .inr hb) hs
  | releaseBest p b => exact ⟨h.1, h.2.respects (fun _ hb => .inl (Option.some.inj hb).symm) hs⟩
  | releaseSlot p best => exact ⟨h.1, h.2.respects (fun _ hb => .inr hb) hs⟩
  | setState b => exact Scanned.respects h (fun _ hb => (Option.some.inj hb).symm) hs
  | start => exact Scanned.respects h nofun hs
  | _ => exact h

end ScanInv

section Own

variable [DecidableEq C] {es : List (Examined n)} {s s' t u : State n C}

theorem State.At.step {x : Choice} (ht : t.At c pc) (hx : x ≠ .interrupt) :
    t.step nofile (c, x) =
      t.act c (.cpu c) (.scheduler pc) [] (scheduler (t.ctx nofile c x) pc) := by
  simp only [State.step, ht.1, ht.2]
  cases x with
  | interrupt => exact absurd rfl hx
  | _ => rfl

theorem Scanned.test (h : Scanned c es t p best fun j => j = p ∨ j ∈ best)
    (hbest : p ∉ best) (hu : t.act c (.cpu c) (.scheduler (.test p best)) []
      (scheduler (t.ctx nofile c .run) (.test p best)) = some u) (ht : t.At c (.test p best)) :
    ∃ pc', u.At c pc' ∧
      ScanInv c (es ++ [⟨p, (t.shared.proc p).state, (t.shared.proc p).priority⟩]) u pc' := by
  have goes (pc' : SchedulerPc n) (hu : some { t.setStack (.cpu c) [.scheduler pc'] with
      shared := t.shared } = some u) : u.At c pc' ∧ u.holder = t.holder ∧
        u.shared.proc = t.shared.proc := by
    cases hu
    exact ⟨⟨ht.1, Function.update_self _ _ _⟩, rfl, rfl⟩
  have hslots := h.snoc (t.shared.proc p).state (t.shared.proc p).priority
  change t.act c (.cpu c) (.scheduler (.test p best)) []
    (if (t.shared.proc p).state = .runnable then _ else _) = some u at hu
  by_cases hst : (t.shared.proc p).state = .runnable
  · rw [if_pos hst] at hu
    cases best with
    | none =>
      obtain ⟨hat, hholder, hproc⟩ := goes _ hu
      refine ⟨_, hat, hslots, by rintro ⟨⟩, fun b hb => ?_, fun j => ?_⟩
      · obtain rfl := Option.some.inj hb
        rw [hproc]
        exact ⟨_, .of_none (h.unpicked rfl) hst, rfl, hst, rfl⟩
      · rw [hholder, h.holder]
        exact ⟨fun hj => by obtain rfl | hj := hj; exacts [rfl, nomatch hj],
          fun hj => .inl (Option.some.inj hj).symm⟩
    | some b =>
      obtain ⟨e, he, rfl, hstate, hprio⟩ := h.picked b rfl
      have hne : e.slot ≠ p := fun heq => hbest (congrArg some heq)
      dsimp only at hu
      split at hu
      · rename_i hlt
        obtain ⟨hat, hholder, hproc⟩ := goes _ hu
        refine ⟨_, hat, hne, hslots, by rintro ⟨⟩, fun b' hb' => ?_, fun j => ?_⟩
        · obtain rfl := Option.some.inj hb'
          rw [hproc]
          refine ⟨_, he.replace hst ?_, rfl, hst, rfl⟩
          rw [← hprio]
          exact hlt
        · rw [hholder, h.holder]
          exact or_congr_right ⟨fun hj => (Option.some.inj hj).symm, fun hj => hj ▸ rfl⟩
      · rename_i hge
        obtain ⟨hat, hholder, hproc⟩ := goes _ hu
        refine ⟨_, hat, hbest, hslots, by rintro ⟨⟩, fun b' hb' => ?_, fun j => ?_⟩
        · obtain rfl := Option.some.inj hb'
          rw [hproc]
          refine ⟨e, he.keep fun _ => ?_, rfl, hstate, hprio⟩
          rw [← hprio]
          exact not_lt.mp hge
        · rw [hholder]
          exact h.holder j
  · rw [if_neg hst] at hu
    obtain ⟨hat, hholder, hproc⟩ := goes _ hu
    refine ⟨_, hat, hbest, hslots, fun hnone a ha => ?_, fun b hb => ?_, fun j => ?_⟩
    · obtain ha | ha := List.mem_append.mp ha
      · exact h.unpicked hnone a ha
      · rw [List.mem_singleton.mp ha]
        exact hst
    · obtain ⟨e, he, hslot, hb⟩ := h.picked b hb
      rw [hproc]
      exact ⟨e, he.keep fun hp => absurd hp hst, hslot, hb⟩
    · rw [hholder]
      exact h.holder j

theorem ScanInv.own (h : ScanInv c es t pc) (ht : t.At c pc) (hpc : pc.scanning = true)
    (hu : t.step nofile (c, .run) = some u) :
    ∃ pc', u.At c pc' ∧ ScanInv c (es ++ pc.examines t.shared) u pc' := by
  have hrun : Choice.run ≠ .interrupt := by rintro ⟨⟩
  rw [ht.step hrun] at hu
  cases pc with
  | loop i best =>
    have h : Scanned c es t i best (· ∈ best) := h
    change ∃ pc', u.At c pc' ∧ ScanInv c (es ++ []) u pc'
    rw [List.append_nil]
    simp only [scheduler] at hu
    split at hu
    · cases hu
      exact ⟨_, ⟨ht.1, Function.update_self _ _ _⟩, h.slots, h.unpicked, h.picked, h.holder⟩
    · rename_i hi
      have hslots : es.map Examined.slot = (List.finRange n).take n := by
        rw [h.slots, List.take_of_length_le (List.length_finRange).le,
          List.take_of_length_le (by simpa using Nat.not_lt.mp hi)]
      cases best with
      | none =>
        cases hu
        refine ⟨_, ⟨ht.1, Function.update_self _ _ _⟩, hslots, h.unpicked, by rintro _ ⟨⟩, fun j => ?_⟩
        exact (h.holder j).trans ⟨by rintro ⟨⟩, by rintro ⟨⟩⟩
      | some b =>
        cases hu
        refine ⟨_, ⟨ht.1, Function.update_self _ _ _⟩, hslots, by rintro ⟨⟩, h.picked, fun j => ?_⟩
        exact (h.holder j).trans ⟨fun hj => (Option.some.inj hj).symm, fun hj => hj ▸ rfl⟩
  | acquire p best =>
    have h : Scanned c es t p best (· ∈ best) := h
    change ∃ pc', u.At c pc' ∧ ScanInv c (es ++ []) u pc'
    rw [List.append_nil]
    simp only [scheduler, State.act, if_neg h.acquire_ne] at hu
    split at hu
    · cases hu
      refine ⟨_, ⟨ht.1, Function.update_self _ _ _⟩, h.slots, h.unpicked, h.picked, fun j => ?_⟩
      change Function.update t.holder (.proc p) (some c) (.proc j) = some c ↔ _
      by_cases hj : j = p
      · subst j
        simp
      · rw [Function.update_of_ne fun heq => hj (Lock.proc.inj heq), h.holder]
        simp [hj]
    · cases hu
  | test p best =>
    have h : Scanned c es t p best fun j => j = p ∨ j ∈ best := h
    exact h.test (fun hb => lt_irrefl p (h.lt_of_mem hb)) hu ht
  | releaseBest p b =>
    obtain ⟨hne, h⟩ := h
    change ∃ pc', u.At c pc' ∧ ScanInv c (es ++ []) u pc'
    rw [List.append_nil]
    simp only [scheduler, State.act, if_pos ((h.holder b).mpr (.inr rfl))] at hu
    cases hu
    refine ⟨_, ⟨ht.1, Function.update_self _ _ _⟩, h.slots, h.unpicked, h.picked, fun j => ?_⟩
    change Function.update t.holder (.proc b) none (.proc j) = some c ↔ _
    by_cases hj : j = b
    · subst j
      simp [hne.symm]
    · rw [Function.update_of_ne fun heq => hj (Lock.proc.inj heq), h.holder]
      simp [hj, eq_comm]
  | releaseSlot p best =>
    obtain ⟨hne, h⟩ := h
    change ∃ pc', u.At c pc' ∧ ScanInv c (es ++ []) u pc'
    rw [List.append_nil]
    simp only [scheduler, State.act, if_pos ((h.holder p).mpr (.inl rfl))] at hu
    cases hu
    refine ⟨_, ⟨ht.1, Function.update_self _ _ _⟩, h.slots, h.unpicked, h.picked, fun j => ?_⟩
    change Function.update t.holder (.proc p) none (.proc j) = some c ↔ _
    by_cases hj : j = p
    · subst j
      simpa using hne
    · rw [Function.update_of_ne fun heq => hj (Lock.proc.inj heq), h.holder]
      simp [hj]
  | _ => cases hpc

theorem ScanRun.inv (h : ScanRun nofile c s es t) : ∃ pc, t.At c pc ∧ ScanInv c es t pc := by
  induction h with
  | start hs hl =>
    exact ⟨_, hs, rfl, nofun, nofun, fun j => ⟨fun hj => absurd hj (hl j), nofun⟩⟩
  | own h ht hpc hu ih =>
    obtain ⟨pc', ht', hinv⟩ := ih
    cases ht.2.symm.trans ht'.2
    exact hinv.own ht hpc hu
  | other h hu ih =>
    obtain ⟨pc, ht, hinv⟩ := ih
    exact ⟨pc, ⟨hu.running.trans ht.1, hu.stack.trans ht.2⟩, hinv.respects hu⟩

end Own

end MultithreadMayhem.Kernel
