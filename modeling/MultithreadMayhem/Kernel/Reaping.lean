import MultithreadMayhem.Kernel.Orphans

/-!
# Every child is reaped once

The pid of a process that has been forked, has exited or has been reaped is in the
history once, since a process with this pid is then in a later stage of its life or
gone. The parent of a zombie is the process that has forked it, or `initproc` if that
process has exited.
-/

namespace MultithreadMayhem.Kernel

open Foundation

variable {n nofile : ℕ} {C : Type} {x : Ctx n} {a : Act n} {f g r : Frame n} {i j p : Fin n}
  {rest : List (Frame n)} {e : Option (Event n)} {v : Int}

theorem Frame.Vouches.mono {sh : Shared n} {log log' : Log n C} (h : r.Vouches sh log)
    (hsub : log ⊆ log') : r.Vouches sh log' := by
  cases r with
  | kexit p status pc => exact h
  | kwait p addr pc => exact fun v hv => (h v hv).imp_right fun h => ⟨h.1, h.2.mono hsub⟩
  | kfork p pc => exact fun v hv => (h v hv).imp_right fun ⟨u, hu⟩ => ⟨u, hsub hu⟩
  | _ => trivial

variable [DecidableEq C] {s s' : State n C} {c : C} {log log' : Log n C} {t : Thread n C}

/-- The stages of the life of a process, and what the history says about it. -/
structure Reaping (s : State n C) (log : Log n C) : Prop where
  owed : ∀ t, log.owed t = owing (s.stack t)
  vouched : ∀ t, ∀ f ∈ s.stack t, f.Vouches s.shared log
  line : s.Line log
  marked : ∀ v, v ∈ log.forked ∨ v ∈ log.exited ∨ v ∈ log.reaped → v ∈ log.allocated
  forked : ∀ j, s.shared.states j ≠ .unused → (s.shared.proc j).pid ∈ log.forked →
    s.shared.parent j ≠ none
  exited : ∀ j, s.shared.states j ≠ .unused → (s.shared.proc j).pid ∈ log.exited →
    s.shared.states j = .zombie
  reaped : ∀ j, s.shared.states j ≠ .unused → (s.shared.proc j).pid ∉ log.reaped
  zombie : ∀ j, s.shared.states j = .zombie →
    ∃ u, (u, Event.exit (s.shared.proc j).pid (s.shared.proc j).xstate) ∈ log
  proper : log.Proper s.shared.initproc

namespace Reaping

omit [DecidableEq C] in
theorem Sound.zombie_of_found (h : Sound s) {addr : BitVec 64} {pc : KwaitPc n} {pid : Int}
    (hs : s.stack (s.running c) = .kwait p addr pc :: rest) (hpc : pc.found = some (j, pid)) :
    s.shared.states j = .zombie := by
  refine h.known c (j, .zombie) ?_
  rw [hs]
  cases pc with
  | copyout | freeproc =>
    cases hpc
    exact List.mem_cons_self
  | _ => cases hpc

theorem alive_of_leaving (hr : Reaping s log) (hp : s.Leaving p) : s.shared.Alive p := by
  obtain ⟨status, pc, hmem, hgiving⟩ := hp
  exact hr.vouched _ _ hmem (KexitPc.living_of_giving hgiving)

theorem reared (hr : Reaping s log) (hg : Grounds nofile s log) {addr : BitVec 64} {pid : Int}
    (hs : s.stack (s.running c) = .kwait p addr (.freeproc j pid) :: rest) :
    s.shared.started = true ∧
      log.Reared s.shared.initproc (s.shared.proc p).pid (.proc p) (s.shared.proc j).pid := by
  have hparent : s.shared.parent j = some p := hg.children.mine c p addr _ j ⟨rest, hs⟩ rfl
  have hzombie := Sound.zombie_of_found hg.sound hs rfl
  refine ⟨(hg.kin.parents j p hparent).1, ?_⟩
  obtain ⟨u, hexit⟩ := hr.zombie j hzombie
  refine ⟨List.mem_filterMap.mpr ⟨_, hexit, rfl⟩, ?_⟩
  obtain ⟨u, f, hfork, hreaper⟩ := hr.line j p hparent
  refine ⟨u, f, hfork, hreaper.imp_right fun ⟨hinit, hgone⟩ => ⟨?_, ?_⟩⟩
  · rw [hinit]
    rfl
  · obtain hgone | ⟨q, -, hleaving⟩ := hgone
    · exact hgone
    · have hlock : Lock.waitLock ∈ (Frame.kwait p addr (.freeproc j pid)).locks :=
        KwaitPc.child_held rfl
      exact absurd hleaving
        (hg.sound.not_leaving_of_wait ⟨rest, hs⟩ hlock (hr.alive_of_leaving hleaving))

theorem wait_keeps (hg : Grounds nofile s log) (hg' : Grounds nofile s' log')
    (hs : s.stack (s.running c) = f :: rest) (hturn : Turn nofile s c f rest s' e)
    (hp : s.shared.Alive p) (hv : s.shared.started = true ∧
      log.Reared s.shared.initproc (s.shared.proc p).pid (.proc p) v) :
    s'.shared.started = true ∧ (log.add (s.running c) e).Reared s'.shared.initproc
      (s'.shared.proc p).pid (.proc p) v := by
  obtain ⟨hstarted', hinit⟩ := hg.started_keep hs hturn hv.1
  rw [hinit, hg.pid_eq hg' hs hturn hp]
  exact ⟨hstarted', hv.2.mono (Log.subset_add _ _ _)⟩

theorem fork_keeps (hg : Grounds nofile s log) (hg' : Grounds nofile s' log')
    (hs : s.stack (s.running c) = f :: rest) (hturn : Turn nofile s c f rest s' e)
    (hp : s.shared.Alive p) (hv : ∃ u, (u, Event.fork (s.shared.proc p).pid v) ∈ log) :
    ∃ u, (u, Event.fork (s'.shared.proc p).pid v) ∈ log.add (s.running c) e := by
  obtain ⟨u, hu⟩ := hv
  rw [hg.pid_eq hg' hs hturn hp]
  exact ⟨u, Log.subset_add _ _ _ hu⟩

theorem stable (hr : Reaping s log) (hg : Grounds nofile s log) (hg' : Grounds nofile s' log')
    (hs : s.stack (s.running c) = f :: rest) (hturn : Turn nofile s c f rest s' e)
    (hmem : r ∈ s.stack t)
    (hrest : t = s.running c → s'.shared = s.shared ∨ r ∈ rest) :
    r.Vouches s'.shared (log.add (s.running c) e) := by
  have hold := hr.vouched t r hmem
  cases r with
  | kexit p status pc =>
    intro hliving
    have halive : s.shared.Alive p := hold hliving
    obtain ⟨hsh, -⟩ | ⟨y, g, ha, -, -, hw⟩ := hturn.written
    · rwa [hsh]
    obtain halive' | ⟨status', rfl⟩ := hw.alive (hg.sound.relies hs y) ha halive
    · exact halive'
    -- The process is in one call of `kexit` only.
    have hok := hg.sound.stack (s.running c)
    rw [hs] at hok
    have hon : s.running c = .proc p := hok.on
    have hont : t = .proc p := (hg.sound.stack t).of_mem hmem
    obtain hsh | hin := hrest (hont.trans hon.symm)
    · rwa [hsh]
    · exact absurd (.inr (.inl rfl)) (hok.not_family_below (.inr (.inl rfl)) hin)
  | kwait p addr pc =>
    have halive : s.shared.Alive p := hg.kin.frames t _ hmem
    exact fun v hv => (hold v hv).imp_right (wait_keeps hg hg' hs hturn halive)
  | kfork p pc =>
    have halive : s.shared.Alive p := (hg.kin.frames t _ hmem).1
    exact fun v hv => (hold v hv).imp_right (fork_keeps hg hg' hs hturn halive)
  | _ => trivial

theorem next (hr : Reaping s log) (hg : Grounds nofile s log) (hg' : Grounds nofile s' log')
    (hs : s.stack (s.running c) = f :: rest) (hturn : Turn nofile s c f rest s' e) {y : Choice}
    (ha : code (s.ctx nofile c y) f = a) (hnext : a.next = some g)
    (hsh : s'.shared = a.shared s.shared)
    (he : e = f.event s.shared g ∨ ∃ callee, a = .call callee g) :
    g.Vouches s'.shared (log.add (s.running c) e) := by
  have hmem : f ∈ s.stack (s.running c) := by
    rw [hs]
    exact List.mem_cons_self
  have hold := hr.vouched _ _ hmem
  have hkin := hg.kin.frames _ _ hmem
  have hfn := (hg.sound.disciplined hs ha).next_fn hnext
  cases f with
  | kexit p status pc =>
    rw [hsh]
    refine kexit_vouches ha hnext fun hliving hne => ?_
    have halive : s.shared.Alive p := hold hliving
    cases a with
    | exec sh g =>
      obtain halive | ⟨status', hf⟩ :=
        (hg.sound.write hs ha).alive (hg.sound.relies hs y) ha halive
      · exact halive
      · cases hf
        exact absurd rfl hne
    | _ => exact halive
  | kwait p addr pc =>
    have halive : s.shared.Alive p := hkin
    have keeps {v : Int} := wait_keeps (v := v) hg hg' hs hturn halive
    rw [hsh] at keeps ⊢
    refine kwait_vouches ha hnext (fun j pid hpc => ?_) fun v hv => (hold v hv).imp_right keeps
    subst hpc
    rw [← hg.children.read c p addr _ j pid ⟨rest, hs⟩ rfl]
    exact keeps (hr.reared hg hs)
  | kfork p pc =>
    have halive : s.shared.Alive p := hkin.1
    have hpid := hg.pid_eq hg' hs hturn halive
    have keeps {v : Int} := fork_keeps (v := v) hg hg' hs hturn halive
    rw [hsh] at keeps hpid ⊢
    refine kfork_vouches ha hnext (fun np pid hpc => ?_) fun v hv => (hold v hv).imp_right keeps
    subst hpc
    obtain rfl | ⟨callee, rfl⟩ := he
    · change ∃ u, (u, Event.fork ((a.shared s.shared).proc p).pid pid) ∈ _
      rw [hpid]
      exact ⟨_, List.mem_cons_self⟩
    · cases ha
  | _ =>
    cases g with
    | kexit q status pc =>
      obtain ⟨status', pc', hf⟩ := Frame.eq_kexit_of_fn hfn.symm
      cases hf
    | kwait q addr pc =>
      obtain ⟨addr', pc', hf⟩ := Frame.eq_kwait_of_fn hfn.symm
      cases hf
    | kfork q pc =>
      obtain ⟨pc', hf⟩ := Frame.eq_kfork_of_fn hfn.symm
      cases hf
    | _ => trivial

theorem vouched_step (hr : Reaping s log) (hg : Grounds nofile s log) (hg' : Grounds nofile s' log')
    (hs : s.stack (s.running c) = f :: rest) (hturn : Turn nofile s c f rest s' e)
    (hmem : r ∈ s'.stack t) : r.Vouches s'.shared (log.add (s.running c) e) := by
  obtain ⟨pre, below, hstack⟩ := List.append_of_mem hmem
  cases hturn.comes hs hstack with
  | @old above hold hquiet =>
    have hin : r ∈ s.stack t := by
      rw [hold]
      exact List.mem_append_right _ List.mem_cons_self
    refine hr.stable hg hg' hs hturn hin fun heq => ?_
    obtain ⟨-, hsh⟩ | hpre := hquiet heq
    · exact .inl hsh
    · right
      rw [heq, hs] at hold
      obtain _ | ⟨f', above⟩ := above
      · exact absurd rfl hpre
      · rw [(List.cons.inj hold).2]
        exact List.mem_append_right _ List.mem_cons_self
  | @next y a htr ha hnext hsh hbelow he => exact hr.next hg hg' hs hturn ha hnext hsh he
  | @call y g htr ha hbelow hsh =>
    rw [hsh]
    exact call_vouches ha fun p hp => hg.sound.callee_alive hs ha hp
  | @resume y v r' htr ha hrest hawaits hsh hh =>
    rw [hsh, hh]
    have hin : r' ∈ s.stack (s.running c) := by
      rw [hs, hrest]
      exact List.mem_cons_of_mem _ List.mem_cons_self
    exact (resume_vouches hawaits (hr.vouched _ _ hin)).mono (Log.subset_add _ _ _)
  | other hh => obtain rfl | ⟨msg, rfl⟩ | ⟨pc, rfl⟩ | ⟨q, rfl⟩ | ⟨q, rfl⟩ := hh <;> trivial

omit [DecidableEq C] in
theorem of_forked (hg : Grounds nofile s log) (hs : s.stack (s.running c) = f :: rest)
    {e : Event n} (hm : f.Marks s.shared e) (hv : e.forked = some v) :
    ∃ p i, f = .kfork p (.setParent i v) ∧ (s.shared.proc i).pid = v ∧
      s.shared.states i ≠ .unused ∧ s.shared.parent i = none := by
  cases hm with
  | @fork p i pid =>
    cases hv
    have hmem : Frame.kfork p (.setParent i v) ∈ s.stack (s.running c) := by
      rw [hs]
      exact List.mem_cons_self
    obtain ⟨-, hnone, hpid⟩ := hg.kin.frames _ _ hmem
    refine ⟨p, i, rfl, hpid, ?_, hnone⟩
    rw [hg.sound.built _ i (mem_built hmem (Multiset.mem_singleton_self i))]
    rintro ⟨⟩
  | other he => cases (Event.forked_of_family he).symm.trans hv
  | _ => cases hv

theorem of_exited (hr : Reaping s log) (hs : s.stack (s.running c) = f :: rest) {e : Event n}
    (hm : f.Marks s.shared e) (hv : e.exited = some v) :
    ∃ p status, f = .kexit p status .setState ∧ (s.shared.proc p).pid = v ∧ s.shared.Alive p := by
  cases hm with
  | @exit p status =>
    cases hv
    have hvouches : (Frame.kexit p status .setState).Vouches s.shared log :=
      hr.vouched (s.running c) _ (by rw [hs]; exact List.mem_cons_self)
    exact ⟨p, status, rfl, rfl, hvouches rfl⟩
  | other he => cases (Event.exited_of_family he).symm.trans hv
  | _ => cases hv

omit [DecidableEq C] in
theorem of_reaped (hg : Grounds nofile s log) (hs : s.stack (s.running c) = f :: rest)
    {e : Event n} (hm : f.Marks s.shared e) (hv : e.reaped = some v) :
    ∃ p addr i pid, f = .kwait p addr (.freeproc i pid) ∧ (s.shared.proc i).pid = v ∧
      s.shared.states i = .zombie := by
  cases hm with
  | reap =>
    cases hv
    exact ⟨_, _, _, _, rfl, rfl, Sound.zombie_of_found hg.sound hs rfl⟩
  | other he => cases (Event.reaped_of_family he).symm.trans hv
  | _ => cases hv

omit [DecidableEq C] in
theorem allocated_of_live (hg : Grounds nofile s log) (hj : s.shared.states j ≠ .unused) :
    (s.shared.proc j).pid ∈ log.allocated := by
  obtain ⟨u, hmem⟩ := Log.mem_of_latest (hg.pids.latest j hj)
  exact Log.mem_allocated hmem

theorem marks (hturn : Turn nofile s c f rest s' e) {e' : Event n} (he : e = some e') :
    f.Marks s.shared e' := by
  obtain ⟨g, hevent⟩ := hturn.eq_event e' he
  exact Frame.event_marks hevent

theorem marked_step (hr : Reaping s log) (hg : Grounds nofile s log)
    (hs : s.stack (s.running c) = f :: rest) (hturn : Turn nofile s c f rest s' e)
    (hv : v ∈ (log.add (s.running c) e).forked ∨ v ∈ (log.add (s.running c) e).exited ∨
      v ∈ (log.add (s.running c) e).reaped) : v ∈ (log.add (s.running c) e).allocated := by
  have old (hv : v ∈ log.allocated) : v ∈ (log.add (s.running c) e).allocated := by
    obtain ⟨te, hmem, hv⟩ := List.mem_filterMap.mp hv
    exact List.mem_filterMap.mpr ⟨te, Log.subset_add _ _ _ hmem, hv⟩
  refine old ?_
  obtain hv | hv | hv := hv
  · obtain hv | ⟨e', he, hv⟩ := Log.mem_filterMap_add hv
    · exact hr.marked v (.inl hv)
    · obtain ⟨p, i, -, rfl, hlive, -⟩ := of_forked hg hs (marks hturn he) hv
      exact allocated_of_live hg hlive
  · obtain hv | ⟨e', he, hv⟩ := Log.mem_filterMap_add hv
    · exact hr.marked v (.inr (.inl hv))
    · obtain ⟨p, status, -, rfl, halive⟩ := hr.of_exited hs (marks hturn he) hv
      exact allocated_of_live hg halive.live
  · obtain hv | ⟨e', he, hv⟩ := Log.mem_filterMap_add hv
    · exact hr.marked v (.inr (.inr hv))
    · obtain ⟨p, addr, i, pid, -, rfl, hzombie⟩ := of_reaped hg hs (marks hturn he) hv
      refine allocated_of_live hg ?_
      rw [hzombie]
      rintro ⟨⟩

theorem live_cases (hr : Reaping s log) (hg : Grounds nofile s log) (hg' : Grounds nofile s' log')
    (hs : s.stack (s.running c) = f :: rest) (hturn : Turn nofile s c f rest s' e)
    (hj : s'.shared.states j ≠ .unused) : (s'.shared.proc j).pid = (s.shared.proc j).pid ∧
      0 < (s.shared.proc j).pid ∧ (s.shared.states j ≠ .unused ∨
        (s.shared.proc j).pid ∉ log.forked ∧ (s.shared.proc j).pid ∉ log.exited ∧
          (s.shared.proc j).pid ∉ log.reaped) := by
  obtain ⟨hpid, hlive | rfl⟩ :=
    (hturn.numbered hg.sound hg'.sound hs).live hg.sound hs hj
  · exact ⟨hpid, (hg.pids.live j hlive).1, .inl hlive⟩
  · obtain ⟨hpos, hnew⟩ := hg.pids.initial c j ⟨rest, hs⟩
    exact ⟨hpid, hpos, .inr ⟨fun h => hnew (hr.marked _ (.inl h)),
      fun h => hnew (hr.marked _ (.inr (.inl h))), fun h => hnew (hr.marked _ (.inr (.inr h)))⟩⟩

theorem forked_step (hr : Reaping s log) (hg : Grounds nofile s log) (hg' : Grounds nofile s' log')
    (hs : s.stack (s.running c) = f :: rest) (hturn : Turn nofile s c f rest s' e)
    (hj : s'.shared.states j ≠ .unused)
    (hv : (s'.shared.proc j).pid ∈ (log.add (s.running c) e).forked) :
    s'.shared.parent j ≠ none := by
  obtain ⟨hpid, hpos, hlive⟩ := hr.live_cases hg hg' hs hturn hj
  rw [hpid] at hv
  obtain hv | ⟨e', he, hv⟩ := Log.mem_filterMap_add hv
  · obtain hlive | ⟨hnew, -⟩ := hlive
    · have hold := hr.forked j hlive hv
      obtain ⟨hsh, -⟩ | ⟨y, g, ha, -, -, hw⟩ := hturn.written
      · rwa [hsh]
      · refine (hw.parent j).raised hold (fun p hf => ?_) fun e' hfrees => hj ?_
        · subst hf
          have hkin := hg.kin.frames (s.running c) _ (by rw [hs]; exact List.mem_cons_self)
          obtain ⟨i, hi, -⟩ := hg.kin.rooted hkin.1
          change s.shared.initproc ≠ none
          rw [hi]
          rintro ⟨⟩
        · rw [hfrees.exec ha, Shared.states_freeproc, Function.update_self]
    · exact absurd hv hnew
  · obtain ⟨p, i, rfl, hi, -⟩ := of_forked hg hs (marks hturn he) hv
    obtain rfl := hg.pids.distinct i j hi (hi ▸ hpos.ne')
    obtain ⟨-, hboundary⟩ | ⟨y, g, ha, -⟩ := hturn.written
    · cases marks hturn he with
      | fork => cases hboundary _ he
      | other hfamily => cases (Event.forked_of_family hfamily).symm.trans hv
    · rw [← (Act.exec.inj ha).1]
      change Function.update s.shared.parent i (some p) i ≠ none
      rw [Function.update_self]
      rintro ⟨⟩

theorem zombie_keep (hg : Grounds nofile s log) (hs : s.stack (s.running c) = f :: rest)
    (hturn : Turn nofile s c f rest s' e) (hj : s'.shared.states j ≠ .unused)
    (hold : s.shared.states j = .zombie) : s'.shared.states j = .zombie := by
  obtain ⟨hsh, -⟩ | ⟨y, g, ha, -, -, hw⟩ := hturn.written
  · rwa [hsh]
  have hrel : f.Relies (s.ctx nofile c y) (s.running c) := hg.sound.relies hs y
  cases hw.state_write hrel ha j with
  | same hst => exact hst.trans hold
  | move halive =>
    rw [Shared.Alive, show (s.ctx nofile c y).shared.states j = .zombie from hold] at halive
    cases halive
  | init hf =>
    subst hf
    cases hold.symm.trans (hrel.knows (j, .unused) (List.mem_singleton_self _))
  | publish hf =>
    obtain rfl | ⟨p, pid, rfl⟩ := hf
    · cases hold.symm.trans (hrel.builds j (Multiset.mem_singleton_self j))
    · cases hold.symm.trans (hrel.builds j (Multiset.mem_singleton_self j))
  | exit hf hrun => cases hold.symm.trans hrun
  | free hf hunused => exact absurd hunused hj

theorem exited_step (hr : Reaping s log) (hg : Grounds nofile s log) (hg' : Grounds nofile s' log')
    (hs : s.stack (s.running c) = f :: rest) (hturn : Turn nofile s c f rest s' e)
    (hj : s'.shared.states j ≠ .unused)
    (hv : (s'.shared.proc j).pid ∈ (log.add (s.running c) e).exited) :
    s'.shared.states j = .zombie := by
  obtain ⟨hpid, hpos, hlive⟩ := hr.live_cases hg hg' hs hturn hj
  rw [hpid] at hv
  obtain hv | ⟨e', he, hv⟩ := Log.mem_filterMap_add hv
  · obtain hlive | ⟨-, hnew, -⟩ := hlive
    · exact zombie_keep hg hs hturn hj (hr.exited j hlive hv)
    · exact absurd hv hnew
  · obtain ⟨p, status, rfl, hp, -⟩ := hr.of_exited hs (marks hturn he) hv
    obtain rfl := hg.pids.distinct p j hp (hp ▸ hpos.ne')
    obtain ⟨-, hboundary⟩ | ⟨y, g, ha, -⟩ := hturn.written
    · cases marks hturn he with
      | exit => cases hboundary _ he
      | other hfamily => cases (Event.exited_of_family hfamily).symm.trans hv
    · rw [← (Act.exec.inj ha).1]
      change (s.shared.setState p .zombie).states p = .zombie
      rw [Shared.states_setState, Function.update_self]

theorem reaped_step (hr : Reaping s log) (hg : Grounds nofile s log) (hg' : Grounds nofile s' log')
    (hs : s.stack (s.running c) = f :: rest) (hturn : Turn nofile s c f rest s' e)
    (hj : s'.shared.states j ≠ .unused) :
    (s'.shared.proc j).pid ∉ (log.add (s.running c) e).reaped := by
  intro hv
  obtain ⟨hpid, hpos, hlive⟩ := hr.live_cases hg hg' hs hturn hj
  rw [hpid] at hv
  obtain hv | ⟨e', he, hv⟩ := Log.mem_filterMap_add hv
  · obtain hlive | ⟨-, -, hnew⟩ := hlive
    · exact hr.reaped j hlive hv
    · exact hnew hv
  · obtain ⟨p, addr, i, pid, rfl, hi, -⟩ := of_reaped hg hs (marks hturn he) hv
    obtain rfl := hg.pids.distinct i j hi (hi ▸ hpos.ne')
    obtain ⟨-, hboundary⟩ | ⟨y, g, ha, -⟩ := hturn.written
    · cases marks hturn he with
      | reap => cases hboundary _ he
      | other hfamily => cases (Event.reaped_of_family hfamily).symm.trans hv
    · refine hj ?_
      rw [← (Act.exec.inj ha).1]
      change (s.shared.freeproc i).states i = .unused
      rw [Shared.states_freeproc, Function.update_self]

theorem zombie_step (hr : Reaping s log) (hg : Grounds nofile s log) (hg' : Grounds nofile s' log')
    (hs : s.stack (s.running c) = f :: rest) (hturn : Turn nofile s c f rest s' e)
    (hj : s'.shared.states j = .zombie) :
    ∃ u, (u, Event.exit (s'.shared.proc j).pid (s'.shared.proc j).xstate) ∈
      log.add (s.running c) e := by
  have hlive : s'.shared.states j ≠ .unused := by
    rw [hj]
    rintro ⟨⟩
  obtain ⟨hpid, -⟩ := hr.live_cases hg hg' hs hturn hlive
  have old (hold : s.shared.states j = .zombie)
      (hxstate : (s'.shared.proc j).xstate = (s.shared.proc j).xstate) :
      ∃ u, (u, Event.exit (s'.shared.proc j).pid (s'.shared.proc j).xstate) ∈
        log.add (s.running c) e := by
    rw [hpid, hxstate]
    obtain ⟨u, hu⟩ := hr.zombie j hold
    exact ⟨u, Log.subset_add _ _ _ hu⟩
  obtain ⟨hsh, -⟩ | ⟨y, g, ha, he, -, hw⟩ := hturn.written
  · rw [hsh] at hj
    exact old hj (by rw [hsh])
  have hrel : f.Relies (s.ctx nofile c y) (s.running c) := hg.sound.relies hs y
  obtain hold | ⟨status, rfl⟩ := hw.zombie hj
  · refine old hold ?_
    cases hw.ids j with
    | same hpid hxstate => exact hxstate
    | setPid hf =>
      subst hf
      cases hold.symm.trans (hrel.knows (j, .unused) (List.mem_singleton_self _))
    | @setXstate status hf =>
      subst hf
      have hrun : s.shared.states j = .running := hrel.self hrel.on rfl
      cases hrun.symm.trans hold
    | free hf =>
      rw [hf.exec ha, Shared.states_freeproc, Function.update_self] at hj
      cases hj
  · have hxstate : (s'.shared.proc j).xstate = status := by
      rw [← hg.children.stored c j status ⟨rest, hs⟩, ← (Act.exec.inj ha).1]
      change ((s.shared.setState j .zombie).proc j).xstate = _
      rw [Shared.setState, Shared.setProc_proc, Function.update_self]
    subst he
    rw [hpid, hxstate]
    exact ⟨_, List.mem_cons_self⟩

/-- The event of the step comes after what must have happened before it. -/
theorem event_proper (hr : Reaping s log) (hg : Grounds nofile s log)
    (hs : s.stack (s.running c) = f :: rest) {e : Event n} (hm : f.Marks s.shared e) :
    e.Proper s.shared.initproc log (s.running c) := by
  have hmem : f ∈ s.stack (s.running c) := by
    rw [hs]
    exact List.mem_cons_self
  have hok := hg.sound.stack (s.running c)
  rw [hs] at hok
  have hvouches := hr.vouched _ _ hmem
  have howed := hr.owed (s.running c)
  rw [hs] at howed
  -- Only the executed frame owes anything.
  have owed_self {p : Fin n} {addr : BitVec 64} {pc : KwaitPc n} (hf : f = .kwait p addr pc) :
      log.owed (s.running c) = f.owes := by
    have hrest : owing rest = none := by
      refine owing_eq_none fun g hg q hq => ?_
      subst hf
      exact hok.not_family_below (.inr (.inr rfl)) hg (.inr (.inr hq))
    rw [howed, owing, List.findSome?_cons]
    cases howes : f.owes with
    | none => exact hrest
    | some d => rfl
  cases hm with
  | @fork p np pid =>
    intro hforked
    obtain ⟨p', i, hf, hpid, hlive, hnone⟩ :=
      of_forked hg hs (e := .fork (s.shared.proc p).pid pid) .fork rfl
    cases hf
    exact hr.forked np hlive (hpid ▸ hforked) hnone
  | forkReturns => exact hvouches _ rfl
  | @exit p status =>
    intro hexited
    have halive : s.shared.Alive p := hvouches rfl
    have hzombie := hr.exited p halive.live hexited
    rw [Shared.Alive, hzombie] at halive
    cases halive
  | copyout => exact hr.zombie _ (Sound.zombie_of_found hg.sound hs rfl)
  | @reap p j addr pid =>
    have hpid : (s.shared.proc j).pid = pid := hg.children.read c p addr _ j pid ⟨rest, hs⟩ rfl
    have hon : s.running c = .proc p := hok.on
    refine ⟨hr.reaped j ?_, fun w hw => ?_, ?_⟩
    · rw [Sound.zombie_of_found hg.sound hs rfl]
      rintro ⟨⟩
    · rw [owed_self rfl] at hw
      change (if addr = 0 then none else some (Debt.copied pid)) = _ at hw
      split at hw
      · cases hw
      · cases hw
        exact hpid.symm
    · rw [hon]
      exact (hr.reared hg hs).2
  | @waitReturns p addr v =>
    have hon : s.running c = .proc p := hok.on
    have howes : log.owed (s.running c) = if v = -1 then none else some (.reaped v) := owed_self rfl
    by_cases hv : v = -1
    · rw [if_pos hv] at howes
      exact .inl ⟨hv, howes⟩
    · rw [if_neg hv] at howes
      obtain hv' | ⟨-, hreared⟩ := hvouches v rfl
      · exact absurd hv' hv
      · rw [hon] at howes ⊢
        exact .inr ⟨hv, howes, hreared⟩
  | other he => cases e <;> trivial

theorem proper_step (hr : Reaping s log) (hg : Grounds nofile s log)
    (hs : s.stack (s.running c) = f :: rest) (hturn : Turn nofile s c f rest s' e) :
    (log.add (s.running c) e).Proper s'.shared.initproc := by
  have hadd : (log.add (s.running c) e).Proper s.shared.initproc := by
    cases he : e with
    | none => exact hr.proper
    | some e => exact ⟨hr.event_proper hg hs (marks hturn he), hr.proper⟩
  obtain ⟨hsh, -⟩ | ⟨y, g, ha, -⟩ := hturn.written
  · rwa [hsh]
  obtain hsame | ⟨p, rfl⟩ := (code_deed ha).initproc_eq
  · rwa [hsame]
  · have hnone : (Frame.userinit (.setInitproc p)).Kin s.shared :=
      hg.kin.frames (s.running c) _ (by rw [hs]; exact List.mem_cons_self)
    rw [show s.shared.initproc = none from hnone] at hadd
    exact hadd.of_none _

theorem step (hr : Reaping s log) (hg : Grounds nofile s log) (hg' : Grounds nofile s' log')
    (hs : s.stack (s.running c) = f :: rest) (hturn : Turn nofile s c f rest s' e) :
    Reaping s' (log.add (s.running c) e) where
  owed := hturn.owed hr.owed hg.children hg.pids hg.kin hg.sound hs
  vouched _ _ hmem := hr.vouched_step hg hg' hs hturn hmem
  line := hg.line_step hg' hs hturn (fun _ => hr.alive_of_leaving) hr.line
  marked _ := hr.marked_step hg hs hturn
  forked _ := hr.forked_step hg hg' hs hturn
  exited _ := hr.exited_step hg hg' hs hturn
  reaped _ := hr.reaped_step hg hg' hs hturn
  zombie _ := hr.zombie_step hg hg' hs hturn
  proper := hr.proper_step hg hs hturn

theorem boot (b : C) : Reaping (State.boot b : State n C) [] where
  owed t := by
    refine (owing_eq_none fun f hf p hp => ?_).symm
    obtain ⟨pc, rfl⟩ := State.boot_main hf
    cases hp
  vouched t f hf := by
    obtain ⟨pc, rfl⟩ := State.boot_main hf
    trivial
  line := by rintro j p ⟨⟩
  marked _ hv := by obtain hv | hv | hv := hv <;> cases hv
  forked _ hj := absurd rfl hj
  exited _ hj := absurd rfl hj
  reaped _ hj := absurd rfl hj
  zombie := by rintro j ⟨⟩
  proper := trivial

theorem of_reachable {b : C} {y : State n C × Log n C} (hy : (history n nofile b).Reachable y)
    (hfew : y.2.Few) : Reaping y.1 y.2 := by
  refine hy.invariant (fun y => y.2.Few → Reaping y.1 y.2) (fun _ => boot b) ?_ hfew
  intro y l z hr ih hstep hfew
  have hr' := hr.step hstep
  obtain ⟨hstep, hlog⟩ := System.step_recorded hstep
  have h := Sound.of_reachable hr.fst
  obtain ⟨f, rest, e, hs, hturn, he⟩ := h.turn hstep
  rw [he, Log.add_eq] at hlog
  have hold : y.2.Few := by
    rw [hlog, ← Log.add_eq] at hfew
    exact Log.few_of_append hfew
  have hg' := Grounds.of_reachable hr' hfew
  rw [hlog]
  exact (ih hold).step (.of_reachable hr hold) hg' hs hturn

end Reaping

end MultithreadMayhem.Kernel
