import MultithreadMayhem.Kernel.Scan
import MultithreadMayhem.Kernel.Switch

/-!
# The passes of the kernel

In a run of the whole kernel the steps of the other CPUs respect the locks that a
scanning CPU holds, and an interrupt is taken only while it holds none. So every
pass in a run of the kernel is a `ScanRun`.
-/

namespace MultithreadMayhem.Kernel

open Foundation

variable {n nofile : ℕ} {C : Type} [DecidableEq C] {c c' : C} {s s' t u : State n C}
  {pc : SchedulerPc n} {es : List (Examined n)}

namespace Sound

theorem others (h : Sound s) (ht : Transition nofile s c' s') (hc : c ≠ c') :
    s'.running c = s.running c ∧ s'.stack (s.running c) = s.stack (s.running c) ∧
      (∀ l, s'.holder l = some c ↔ s.holder l = some c) ∧
      ∀ j, s.holder (.proc j) = some c → s'.shared.proc j = s.shared.proc j := by
  have stack {fs : List (Frame n)} :
      Function.update s.stack (s.running c') fs (s.running c) = s.stack (s.running c) :=
    h.stack_other hc
  have running {r : Thread n C} : Function.update s.running c' r c = s.running c :=
    Function.update_of_ne hc _ _
  cases ht with
  | @acquire x f next rest l hs ha hl =>
    refine ⟨rfl, stack, fun l' => ?_, fun _ _ => rfl⟩
    change Function.update s.holder l (some c') l' = some c ↔ _
    by_cases hll : l' = l
    · subst l'
      rw [Function.update_self, hl]
      exact ⟨fun heq => absurd (Option.some.inj heq).symm hc, nofun⟩
    · rw [Function.update_of_ne hll]
  | @release x f next rest l hs ha hl =>
    refine ⟨rfl, stack, fun l' => ?_, fun _ _ => rfl⟩
    change Function.update s.holder l none l' = some c ↔ _
    by_cases hll : l' = l
    · subst l'
      rw [Function.update_self, hl]
      exact ⟨nofun, fun heq => absurd (Option.some.inj heq).symm hc⟩
    · rw [Function.update_of_ne hll]
  | @exec x f next rest sh hs ha =>
    have hp := h.plays hs ha
    refine ⟨rfl, stack, fun _ => Iff.rfl, fun j hj => ?_⟩
    by_contra hne
    have hmem : Lock.proc j ∈ held (s.stack (s.running c')) := by
      rw [hs]
      exact Multiset.mem_add.mpr (.inl (hp.2.1 j hne))
    rw [h.holder_of_mem hmem] at hj
    exact hc (Option.some.inj hj).symm
  | @setContext x f next rest p hs ha =>
    have hp := h.plays hs ha
    obtain ⟨rfl, rfl⟩ := hp
    have hidle : s.Idle p := by
      refine h.idle_of_used (.inl (h.built (s.running c') p ?_))
      rw [hs]
      exact Multiset.mem_add.mpr (.inl (Multiset.mem_singleton_self p))
    refine ⟨rfl, ?_, fun _ => Iff.rfl, fun _ _ => rfl⟩
    rw [State.setStack_stack, Function.update_of_ne (hidle c)]
    exact stack
  | swtchTo hs ha => exact ⟨running, stack, fun _ => Iff.rfl, fun _ _ => rfl⟩
  | swtchBack hs ha => exact ⟨running, stack, fun _ => Iff.rfl, fun _ _ => rfl⟩
  | _ => exact ⟨rfl, stack, fun _ => Iff.rfl, fun _ _ => rfl⟩

theorem handler (h : Sound s) (hr : s.running c = .cpu c) {f : Frame n} {fs : List (Frame n)}
    (hstack : s.stack (.cpu c) = f :: fs ++ [.scheduler pc]) (ht : Transition nofile s c s') :
    s'.running c = .cpu c ∧ ∃ fs', s'.stack (.cpu c) = fs' ++ [.scheduler pc] := by
  have hok := h.stack (.cpu c)
  rw [hstack] at hok
  have same {fs' : List (Frame n)} :
      Function.update s.stack (s.running c) fs' (.cpu c) = fs' := by
    rw [hr]
    exact Function.update_self _ _ _
  -- The base frame is that of the scheduler, so the handler does not end up in one of its own.
  have base (hbase : f.IsBase) : False := by
    have hnil := hok.rest_eq_nil hbase
    cases fs <;> cases hnil
  cases ht with
  | @ret x f' g rest v hs ha =>
    have hd := h.disciplined hs ha
    rw [hr, hstack] at hs
    cases fs with
    | nil =>
      cases hs
      obtain hi | hp | hawaits := hok.1
      · exact absurd hi hd.2.1
      · exact absurd hp hd.2.2
      · exact hawaits.elim
    | cons g' fs =>
      cases hs
      exact ⟨hr, _ :: fs, same⟩
  | @iret x f' g rest hs ha =>
    rw [hr, hstack] at hs
    cases fs with
    | nil =>
      cases hs
      exact ⟨hr, [], same⟩
    | cons g' fs =>
      cases hs
      exact ⟨hr, _ :: fs, same⟩
  | @setProc x f' next rest p hs ha =>
    have hp := h.plays hs ha
    rw [hr, hstack] at hs
    cases hs
    obtain ⟨b, rfl, -⟩ | ⟨b, rfl, -⟩ := hp
    · exact (base (.inl rfl)).elim
    · exact (base (.inl rfl)).elim
  | @swtchTo x f' next rest p hs ha =>
    have hp := h.plays hs ha
    rw [hr, hstack] at hs
    cases hs
    obtain ⟨rfl, -⟩ := hp
    exact (base (.inl rfl)).elim
  | @swtchBack x f' next rest hs ha =>
    have hp := h.plays hs ha
    rw [hr, hstack] at hs
    cases hs
    obtain ⟨q, rfl, -⟩ := hp
    cases hok.on
  | @setContext x f' next rest p hs ha =>
    rw [hr, hstack] at hs
    cases hs
    have hne : (Thread.cpu c : Thread n C) ≠ .proc p := nofun
    refine ⟨hr, next :: fs, ?_⟩
    rw [State.setStack_stack, Function.update_of_ne hne]
    exact same
  | @call x f' callee next rest hs ha =>
    rw [hr, hstack] at hs
    cases hs
    exact ⟨hr, callee :: next :: fs, same⟩
  | @acquire x f' next rest l hs ha hl =>
    rw [hr, hstack] at hs
    cases hs
    exact ⟨hr, next :: fs, same⟩
  | @release x f' next rest l hs ha hl =>
    rw [hr, hstack] at hs
    cases hs
    exact ⟨hr, next :: fs, same⟩
  | @exec x f' next rest sh hs ha =>
    rw [hr, hstack] at hs
    cases hs
    exact ⟨hr, next :: fs, same⟩
  | @acquireAgain x f' next rest l hs ha hl =>
    rw [hr, hstack] at hs
    cases hs
    exact ⟨hr, _ :: f :: fs, same⟩
  | @releaseOther x f' next rest l hs ha hl =>
    rw [hr, hstack] at hs
    cases hs
    exact ⟨hr, _ :: f :: fs, same⟩
  | @panic x f' rest msg hs ha =>
    rw [hr, hstack] at hs
    cases hs
    exact ⟨hr, _ :: f :: fs, same⟩
  | @interrupt f' rest hs hf hn =>
    rw [hr, hstack] at hs
    cases hs
    exact ⟨hr, _ :: f :: fs, same⟩

theorem interrupt_at (h : Sound t) (hat : t.At c pc)
    (hu : t.step nofile (c, .interrupt) = some u) :
    held [Frame.scheduler pc] = 0 ∧ u.running c = .cpu c ∧
      u.stack (.cpu c) = .ext .handler (.run []) :: [] ++ [.scheduler pc] ∧ u.shared = t.shared := by
  have hcard := h.noff c
  rw [hat.1, hat.2] at hcard
  simp only [State.step, hat.1, hat.2] at hu
  split at hu
  · rename_i hn
    cases hu
    exact ⟨Multiset.card_eq_zero.mp (hcard.symm.trans hn), hat.1, Function.update_self _ _ _, rfl⟩
  · cases hu

end Sound

/-- A run of the kernel during a pass of the CPU `c`. Besides the statements of the pass it has steps
of other CPUs and of interrupt handlers on the CPU `c`. -/
inductive KernelScan (nofile : ℕ) (c : C) : State n C → List (Examined n) → State n C → Prop
  | start {s : State n C} (hs : s.At c (.loop 0 none)) : KernelScan nofile c s [] s
  | own {s t u : State n C} {es : List (Examined n)} {pc : SchedulerPc n} {x : Choice}
      (h : KernelScan nofile c s es t) (ht : t.At c pc) (hpc : pc.scanning = true)
      (hx : x ≠ .interrupt) (hu : t.step nofile (c, x) = some u) :
      KernelScan nofile c s (es ++ pc.examines t.shared) u
  | other {s t u : State n C} {es : List (Examined n)} {l : C × Choice}
      (h : KernelScan nofile c s es t) (hl : l.1 = c → l.2 = .interrupt ∨ ∀ pc, ¬t.At c pc)
      (hu : t.step nofile l = some u) : KernelScan nofile c s es u

omit [DecidableEq C] in
theorem Sound.holder_ne (h : Sound s) (ht : s.At c pc) (hpc : held [Frame.scheduler pc] = 0)
    (j : Fin n) : s.holder (.proc j) ≠ some c := by
  intro hj
  have hmem := (h.holder _ _).mp hj
  rw [ht.1, ht.2, hpc] at hmem
  cases hmem

inductive Interrupted (nofile : ℕ) (c : C) (s : State n C) (es : List (Examined n)) (u : State n C) :
    Prop
  | scan {pc : SchedulerPc n} (hat : u.At c pc) (h : ScanRun nofile c s es u)
  | handler {t : State n C} {pc : SchedulerPc n} {f : Frame n} {fs : List (Frame n)}
      (hr : u.running c = .cpu c) (hstack : u.stack (.cpu c) = f :: fs ++ [.scheduler pc])
      (hpc : held [Frame.scheduler pc] = 0) (hsound : Sound t) (hat : t.At c pc)
      (h : ScanRun nofile c s es t)

theorem Interrupted.returned (hsound : Sound t) (hat : t.At c pc)
    (hpc : held [Frame.scheduler pc] = 0) (h : ScanRun nofile c s es t) (hu : Sound u)
    (hr : u.running c = .cpu c) {fs : List (Frame n)}
    (hstack : u.stack (.cpu c) = fs ++ [.scheduler pc]) : Interrupted nofile c s es u := by
  cases fs with
  | nil =>
    have hat' : u.At c pc := ⟨hr, hstack⟩
    have hmine (j : Fin n) := hsound.holder_ne hat hpc j
    refine .scan hat' (h.other ⟨hr.trans hat.1.symm, hstack.trans hat.2.symm, fun j => ?_, fun j hj => ?_⟩)
    · exact iff_of_false (hu.holder_ne hat' hpc j) (hmine j)
    · exact absurd hj (hmine j)
  | cons f fs => exact .handler hr hstack hpc hsound hat h

theorem KernelScan.interrupted (h : KernelScan nofile c s es u) (hs : Sound s) :
    Sound u ∧ Interrupted nofile c s es u := by
  induction h with
  | start hat => exact ⟨hs, .scan hat (.start hat (hs.holder_ne hat rfl))⟩
  | @own t u es pc x h ht hpc hx hu ih =>
    obtain ⟨hsound, hscan⟩ := ih
    refine ⟨hsound.step hu, ?_⟩
    have hrun : t.step nofile (c, .run) = some u := by
      have hrun : Choice.run ≠ .interrupt := nofun
      rw [← hu, ht.step hrun, ht.step hx]
      cases pc <;> rfl
    cases hscan with
    | scan _ h =>
      have h := h.own ht hpc hrun
      obtain ⟨pc', hat, -⟩ := h.inv
      exact .scan hat h
    | handler _ hstack =>
      rw [ht.2] at hstack
      cases (List.append_eq_nil_iff.mp (List.cons.inj hstack).2.symm).2
  | @other t u es l h hl hu ih =>
    obtain ⟨hsound, hscan⟩ := ih
    have ht := State.step_transition hu
    have hsound' := hsound.transition ht
    refine ⟨hsound', ?_⟩
    by_cases hc : c = l.1
    · subst hc
      cases hscan with
      | @scan pc hat h =>
        obtain hx | hx := hl rfl
        · obtain ⟨c, x⟩ := l
          obtain rfl : x = .interrupt := hx
          obtain ⟨hpc, hr, hstack, -⟩ := hsound.interrupt_at hat hu
          exact .handler hr hstack hpc hsound hat h
        · exact absurd hat (hx pc)
      | handler hr hstack hpc hsound₀ hat h =>
        obtain ⟨hr', fs', hstack'⟩ := hsound.handler hr hstack ht
        exact .returned hsound₀ hat hpc h hsound' hr' hstack'
    · obtain ⟨hr, hstack, hholder, hproc⟩ := hsound.others ht hc
      cases hscan with
      | scan hat h =>
        rw [hat.1] at hstack
        exact .scan ⟨hr.trans hat.1, hstack.trans hat.2⟩
          (h.other ⟨hr, hstack, fun j => hholder _, hproc⟩)
      | handler hr' hstack' hpc hsound₀ hat h =>
        rw [hr'] at hstack
        exact .handler (hr.trans hr') (hstack.trans hstack') hpc hsound₀ hat h

/-- Whenever the CPU is in its pass, the run of the kernel is one of the pass with other steps that
respect its locks. -/
theorem KernelScan.scanRun (h : KernelScan nofile c s es u) (hs : Sound s) (hu : u.At c pc) :
    ScanRun nofile c s es u := by
  cases (h.interrupted hs).2 with
  | scan _ h => exact h
  | handler _ hstack =>
    rw [hu.2] at hstack
    cases (List.append_eq_nil_iff.mp (List.cons.inj hstack).2.symm).2

end MultithreadMayhem.Kernel
