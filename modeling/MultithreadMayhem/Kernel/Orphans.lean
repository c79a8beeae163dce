import MultithreadMayhem.Kernel.Debts

/-!
# The children of a process that leaves

A process that has been given away has `initproc` as its parent, and the process that has
forked it has exited or is in `kexit` behind `reparent`, with `wait_lock` held until it is
a zombie. So no wait of `initproc` finds such a child before the one that has forked it
has exited.
-/

namespace MultithreadMayhem.Kernel

open Foundation

variable {n nofile : ℕ} {C : Type} {x : Ctx n} {a : Act n} {f g : Frame n} {j p r : Fin n}
  {rest : List (Frame n)} {e : Option (Event n)} {status v : Int}

namespace KexitPc

def giving : KexitPc → Bool
  | reparenting | wakeup | waking | acquire | setXstate | setState => true
  | _ => false

variable {pc : KexitPc}

theorem living_of_giving (h : pc.giving = true) : pc.living = true := by
  cases pc <;> first | rfl | cases h

theorem locked_of_giving (h : pc.giving = true) :
    Lock.waitLock ∈ (Frame.kexit p status pc).locks := by
  cases pc with
  | reparenting | wakeup | waking | acquire => exact Multiset.mem_singleton_self _
  | setXstate | setState => exact Multiset.mem_cons_self Lock.waitLock {.proc p}
  | _ => cases h

theorem next_of_giving (ha : code x (.kexit p status pc) = a) (hnext : a.next = some g)
    (h : pc.giving = true) :
    pc = setState ∨ ∃ pc' : KexitPc, g = .kexit p status pc' ∧ pc'.giving = true := by
  obtain ⟨pc', rfl, hgoes⟩ := kexit_goes ha hnext
  generalize a.shared x.shared = sh at hgoes
  cases hgoes with
  | setState => exact .inl rfl
  | wakeup | acquire | setXstate => exact .inr ⟨_, rfl, rfl⟩
  | _ => cases h

theorem resume_of_giving (p : Fin n) (status : Int) (v : Val n) (h : pc.giving = true) :
    ∃ pc' : KexitPc, (Frame.kexit p status pc).resume v = .kexit p status pc' ∧
      pc'.giving = true := by
  cases pc <;> first | exact ⟨_, rfl, rfl⟩ | cases h

end KexitPc

/-- The process `r` is in `kexit` and gives its children away. -/
def State.Leaving (s : State n C) (r : Fin n) : Prop :=
  ∃ status pc, Frame.kexit r status pc ∈ s.stack (.proc r) ∧ pc.giving = true

/-- The process with the pid `v` has exited or gives its children away. -/
def State.Gone (s : State n C) (log : Log n C) (v : Int) : Prop :=
  v ∈ log.exited ∨ ∃ r, (s.shared.proc r).pid = v ∧ s.Leaving r

theorem Shared.Alive.live {sh : Shared n} (h : sh.Alive j) : sh.states j ≠ .unused := by
  intro hj
  rw [Shared.Alive, hj] at h
  cases h

theorem mem_held {fs : List (Frame n)} {l : Lock n} (hf : f ∈ fs) (hl : l ∈ f.locks) : l ∈ held fs := by
  induction fs with
  | nil => cases hf
  | cons g fs ih =>
    obtain rfl | hf := List.mem_cons.mp hf
    · exact Multiset.mem_add.mpr (.inl hl)
    · exact Multiset.mem_add.mpr (.inr (ih hf))

variable [DecidableEq C] {s s' : State n C} {c : C} {log : Log n C} {t : Thread n C}

omit [DecidableEq C] in
theorem Numbered.live (hn : Numbered s c f s' e) (h : Sound s) (hs : s.stack (s.running c) = f :: rest)
    (hj : s'.shared.states j ≠ .unused) : (s'.shared.proc j).pid = (s.shared.proc j).pid ∧
      (s.shared.states j ≠ .unused ∨ f = .allocproc (.init j)) := by
  cases hn with
  | same hf hids => exact ⟨hids.pid j, .inl fun hold => hj ((hids.unused j).mpr hold)⟩
  | advance hf hsh =>
    rw [hsh] at hj ⊢
    exact ⟨rfl, .inl hj⟩
  | @setPid i v hf hsh =>
    subst hf
    rw [hsh, Shared.states_setProc] at hj
    rw [hsh, Shared.setProc_proc]
    obtain rfl | hji := eq_or_ne j i
    · rw [Function.update_self] at hj
      have hunused : s.shared.states j = .unused := by
        refine h.known c (j, .unused) ?_
        rw [hs]
        exact List.mem_cons_self
      exact absurd hunused hj
    · rw [Function.update_of_ne hji] at hj ⊢
      exact ⟨rfl, .inl hj⟩
  | @init i hf hsh =>
    subst hf
    rw [hsh, Shared.states_setImage, Shared.states_setProc] at hj
    rw [hsh, Shared.setImage_proc, Shared.setProc_proc]
    obtain rfl | hji := eq_or_ne j i
    · rw [Function.update_self]
      exact ⟨rfl, .inr rfl⟩
    · rw [Function.update_of_ne hji] at hj ⊢
      exact ⟨rfl, .inl hj⟩
  | @free i g e hf hsh =>
    rw [hsh, Shared.states_freeproc] at hj
    rw [hsh, Shared.freeproc_proc]
    obtain rfl | hji := eq_or_ne j i
    · rw [Function.update_self] at hj
      exact absurd rfl hj
    · rw [Function.update_of_ne hji] at hj ⊢
      exact ⟨rfl, .inl hj⟩

theorem Turn.live (hturn : Turn nofile s c f rest s' e) (h : Sound s)
    (hs : s.stack (s.running c) = f :: rest) (hj : s.shared.Alive j) :
    s'.shared.states j ≠ .unused := by
  obtain ⟨hsh, -⟩ | ⟨y, g, ha, -, -, hw⟩ := hturn.written
  · rw [hsh]
    exact hj.live
  · intro hunused
    obtain ⟨hold, -⟩ | ⟨e', hfrees, -⟩ := hw.unused hunused
    · exact hj.live hold
    · obtain hst | hst := hfrees.ends (h.relies hs y)
      · rw [Shared.Alive, show s.shared.states j = .used from hst] at hj
        cases hj
      · rw [Shared.Alive, show s.shared.states j = .zombie from hst] at hj
        cases hj

theorem Turn.leaving (hturn : Turn nofile s c f rest s' e) (h : Sound s)
    (hs : s.stack (s.running c) = f :: rest) (hr : s.Leaving r) (halive : s.shared.Alive r) :
    s'.Leaving r ∨ ∃ status, e = some (.exit (s.shared.proc r).pid status) := by
  obtain ⟨status, pc, hmem, hgiving⟩ := hr
  cases hturn.remains hs hmem with
  | kept hmem' => exact .inl ⟨status, pc, hmem', hgiving⟩
  | @next y a g ht hf ha hnext hmem' hsh =>
    subst hf
    obtain rfl | ⟨pc', rfl, hgiving'⟩ := KexitPc.next_of_giving ha hnext hgiving
    · right
      obtain ⟨hsame, -⟩ | ⟨y, g, -, he, -⟩ := hturn.written
      · -- The process would be a zombie already.
        subst ha
        have hzombie : s.shared.states r = .zombie := by
          rw [← hsame, hsh]
          change (s.shared.setState r .zombie).states r = .zombie
          rw [Shared.states_setState, Function.update_self]
        rw [Shared.Alive, hzombie] at halive
        cases halive
      · exact ⟨status, he⟩
    · exact .inl ⟨status, pc', hmem', hgiving'⟩
  | ret ht hf ha =>
    subst hf
    exact absurd ha kexit_not_ret
  | @resume y v rest' ht ha hrest hmem' hsh =>
    obtain ⟨pc', heq, hgiving'⟩ := KexitPc.resume_of_giving r status v hgiving
    rw [heq] at hmem'
    exact .inl ⟨status, pc', hmem', hgiving'⟩
  | switch hf hfn =>
    subst hf
    obtain hfn | hfn | ⟨q, hfn⟩ := hfn <;> cases hfn
  | @reset q ht hf =>
    cases ht
    subst hf
    have hused : s.shared.states r = .used := by
      refine h.built (s.running c) r ?_
      rw [hs]
      exact Multiset.mem_add.mpr (.inl (Multiset.mem_singleton_self r))
    rw [Shared.Alive, hused] at halive
    cases halive

omit [DecidableEq C] in
/-- While a wait holds `wait_lock` no process gives its children away. -/
theorem Sound.not_leaving_of_wait (h : Sound s) {addr : BitVec 64} {pc : KwaitPc n}
    (hwait : s.Top c (.kwait p addr pc)) (hlock : Lock.waitLock ∈ (Frame.kwait p addr pc).locks)
    (halive : s.shared.Alive r) : ¬s.Leaving r := by
  rintro ⟨status, pc', hmem, hgiving⟩
  have hheld := mem_held hmem (KexitPc.locked_of_giving hgiving)
  by_cases hidle : s.Idle r
  · have hresume : Resumable r (s.stack (.proc r)) := by
      refine h.resumable r hidle ?_
      rw [Shared.Alive] at halive
      revert halive
      cases s.shared.states r <;> decide
    rw [hresume.held (h.stack _)] at hheld
    cases Multiset.mem_singleton.mp hheld
  · obtain ⟨c', hc'⟩ := not_forall_not.mp hidle
    obtain rfl : c = c' := h.cpu_eq (hwait.mem_held hlock) (by rwa [hc'])
    obtain ⟨rest, hs⟩ := hwait
    rw [hc'] at hs
    have hin : Frame.kwait p addr pc ∈ s.stack (.proc r) := by
      rw [hs]
      exact List.mem_cons_self
    cases (h.stack _).family_unique hin hmem (.inr (.inr rfl)) (.inr (.inl rfl))

/-- The invariants of the kernel that the history is compared with. -/
structure Grounds (nofile : ℕ) (s : State n C) (log : Log n C) : Prop where
  sound : Sound s
  booted : Booted s
  tidy : Tidy nofile s
  kin : Kin s
  children : Children s
  pids : Pids s log

/-- Every process with a parent has been forked by it, or was given away to `initproc`. -/
def State.Line (s : State n C) (log : Log n C) : Prop := ∀ j p, s.shared.parent j = some p →
  ∃ u f, (u, Event.fork f (s.shared.proc j).pid) ∈ log ∧
    (f = (s.shared.proc p).pid ∨ s.shared.initproc = some p ∧ s.Gone log f)

theorem Grounds.of_reachable {b : C} {y : State n C × Log n C}
    (hy : (history n nofile b).Reachable y) (hfew : y.2.Few) : Grounds nofile y.1 y.2 where
  sound := .of_reachable hy.fst
  booted := .of_reachable hy.fst
  tidy := .of_reachable hy.fst
  kin := .of_reachable hy.fst
  children := .of_reachable hy.fst
  pids := .of_reachable hy hfew

namespace Grounds

variable {log' : Log n C}

omit [DecidableEq C] in
theorem live_of_parent (hg : Grounds nofile s log) (hj : s.shared.parent j = some p) :
    s.shared.states j ≠ .unused := by
  intro hunused
  cases (hg.tidy.unused j hunused).parent.symm.trans hj

theorem pid_eq (hg : Grounds nofile s log) (hg' : Grounds nofile s' log')
    (hs : s.stack (s.running c) = f :: rest) (hturn : Turn nofile s c f rest s' e)
    (hp : s.shared.Alive p) : (s'.shared.proc p).pid = (s.shared.proc p).pid :=
  ((hturn.numbered hg.sound hg'.sound hs).live hg.sound hs (hturn.live hg.sound hs hp)).1

theorem started_keep (hg : Grounds nofile s log) (hs : s.stack (s.running c) = f :: rest)
    (hturn : Turn nofile s c f rest s' e) (hstarted : s.shared.started = true) :
    s'.shared.started = true ∧ s'.shared.initproc = s.shared.initproc := by
  obtain ⟨hsh, -⟩ | ⟨y, g, ha, -⟩ := hturn.written
  · rw [hsh]
    exact ⟨hstarted, rfl⟩
  · exact ⟨started_mono ha hstarted, hg.booted.initproc_eq hg.sound hs ha hstarted⟩

theorem gone_step (hg : Grounds nofile s log) (hg' : Grounds nofile s' log')
    (hs : s.stack (s.running c) = f :: rest) (hturn : Turn nofile s c f rest s' e)
    (halive : ∀ r, s.Leaving r → s.shared.Alive r) (hv : s.Gone log v) :
    s'.Gone (log.add (s.running c) e) v := by
  obtain hv | ⟨r, rfl, hr⟩ := hv
  · exact .inl (Log.exited_mono (Log.subset_add _ _ _) hv)
  obtain hr' | ⟨status, rfl⟩ := hturn.leaving hg.sound hs hr (halive r hr)
  · exact .inr ⟨r, hg.pid_eq hg' hs hturn (halive r hr), hr'⟩
  · exact .inl List.mem_cons_self

omit [DecidableEq C] in
theorem leaving_of_reparent (hg : Grounds nofile s log) {pc : ReparentPc n}
    (hs : s.stack (s.running c) = .reparent p pc :: rest) : s.Leaving p := by
  have hok := hg.sound.stack (s.running c)
  rw [hs] at hok
  have hon : s.running c = .proc p := hok.on
  cases rest with
  | nil => obtain hf | ⟨q, hf⟩ := hok.1 <;> cases hf
  | cons r rest =>
    obtain hi | hp | hawaits := hok.1
    · cases hi
    · cases hp
    · obtain ⟨status, rfl⟩ := hawaits.of_reparent
      refine ⟨status, .reparenting, ?_, rfl⟩
      rw [← hon, hs]
      exact List.mem_cons_of_mem _ List.mem_cons_self

theorem line_step (hg : Grounds nofile s log) (hg' : Grounds nofile s' log')
    (hs : s.stack (s.running c) = f :: rest) (hturn : Turn nofile s c f rest s' e)
    (halive : ∀ r, s.Leaving r → s.shared.Alive r) (hline : s.Line log) :
    s'.Line (log.add (s.running c) e) := by
  intro j p hj
  have hsub : log ⊆ log.add (s.running c) e := Log.subset_add _ _ _
  have hn := hturn.numbered hg.sound hg'.sound hs
  have pid {i : Fin n} (hi : s'.shared.states i ≠ .unused) :
      (s'.shared.proc i).pid = (s.shared.proc i).pid := (hn.live hg.sound hs hi).1
  have hpidj := pid (hg'.live_of_parent hj)
  have hpidp := pid (hg'.kin.parents j p hj).2.live
  -- The parent stays.
  have same (hold : s.shared.parent j = some p) (hinit : s'.shared.initproc = s.shared.initproc) :
      ∃ u f, (u, Event.fork f (s'.shared.proc j).pid) ∈ log.add (s.running c) e ∧
        (f = (s'.shared.proc p).pid ∨ s'.shared.initproc = some p ∧
          s'.Gone (log.add (s.running c) e) f) := by
    obtain ⟨u, v, hfork, hreaper⟩ := hline j p hold
    rw [hpidj, hpidp, hinit]
    exact ⟨u, v, hsub hfork,
      hreaper.imp_right fun h => ⟨h.1, hg.gone_step hg' hs hturn halive h.2⟩⟩
  obtain ⟨hsh, -⟩ | ⟨y, g, ha, he, hstack, hw⟩ := hturn.written
  · rw [hsh] at hj
    exact same hj (by rw [hsh])
  · have hkin : f.Kin s.shared :=
      hg.kin.frames (s.running c) f (by rw [hs]; exact List.mem_cons_self)
    cases hw.parent j with
    | same hparent =>
      have hold : s.shared.parent j = some p := hparent.symm.trans hj
      exact same hold (hg.booted.initproc_eq hg.sound hs ha (hg.kin.parents j p hold).1)
    | @fork q pid hf hparent =>
      obtain rfl := Option.some.inj (hparent.symm.trans hj)
      subst hf
      obtain ⟨-, -, rfl⟩ := hkin
      subst he
      rw [hpidj, hpidp]
      exact ⟨_, _, List.mem_cons_self, .inl rfl⟩
    | @reparent q hf hparent =>
      subst hf
      obtain ⟨hstarted, hne, -⟩ := hkin
      obtain ⟨u, v, hfork, rfl | ⟨hinit, -⟩⟩ := hline j q (hg.tidy.moving c q j ⟨rest, hs⟩)
      · have hinit : s'.shared.initproc = some p :=
          (hg.booted.initproc_eq hg.sound hs ha hstarted).trans (hparent.symm.trans hj)
        rw [hpidj, hinit]
        exact ⟨u, _, hsub hfork, .inr ⟨rfl, hg.gone_step hg' hs hturn halive
          (.inr ⟨q, rfl, hg.leaving_of_reparent hs⟩)⟩⟩
      · exact absurd hinit hne
    | free hf hparent => cases hparent.symm.trans hj

end Grounds

end MultithreadMayhem.Kernel
