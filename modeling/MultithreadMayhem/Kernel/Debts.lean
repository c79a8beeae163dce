import MultithreadMayhem.Kernel.Waits

/-!
# The debts of the threads

The frames of a thread know what the history says it owes: from the copy of a status to
the reap of the child, and from the reap to the return of the wait.
-/

namespace MultithreadMayhem.Kernel

open Foundation

variable {n nofile : ℕ} {C : Type} {x : Ctx n} {f g r : Frame n} {j p : Fin n}
  {rest : List (Frame n)} {sh : Shared n} {e : Option (Event n)} {t : Thread n C}

section Events

theorem event_settles {e : Event n} (he : f.event sh g = some e) :
    e.settles = none ∨
    (∃ p addr j pid, f = .kwait p addr (.copyout j pid) ∧
      e = .copyout (sh.proc j).pid (sh.proc j).xstate) ∨
    (∃ p addr j pid, f = .kwait p addr (.freeproc j pid) ∧
      e = .reap (sh.proc p).pid j (sh.proc j).pid) ∨
    ∃ p addr v, f = .kwait p addr (.done v) ∧ e = .waitReturns (sh.proc p).pid v := by
  cases Frame.event_marks he with
  | fork | forkReturns | exit => exact .inl rfl
  | copyout => exact .inr (.inl ⟨_, _, _, _, rfl, rfl⟩)
  | reap => exact .inr (.inr (.inl ⟨_, _, _, _, rfl, rfl⟩))
  | waitReturns => exact .inr (.inr (.inr ⟨_, _, _, rfl, rfl⟩))
  | other he => exact .inl (Event.settles_of_family he)

theorem copyout_exec (x : Ctx n) (p j : Fin n) (addr : BitVec 64) (pid : Int) :
    ∃ g, code x (.kwait p addr (.copyout j pid)) = .exec x.shared g := by
  simp only [code, kwait]
  repeat' split
  all_goals exact ⟨_, rfl⟩

theorem copyout_event {addr : BitVec 64} {pid : Int}
    (ha : code x (.kwait p addr (.copyout j pid)) = .exec sh g)
    (he : e = (Frame.kwait p addr (.copyout j pid)).event x.shared g) :
    (g.owes = none ∧ e = none) ∨
      (g.owes = some (.copied pid) ∧ e = some (.copyout (x.proc j).pid (x.proc j).xstate)) := by
  subst he
  obtain ⟨pc', rfl, hgoes⟩ := kwait_goes ha rfl
  change KwaitPc.Goes x p addr (.copyout j pid) pc' sh at hgoes
  cases hgoes with
  | copied =>
    obtain haddr | haddr := eq_or_ne addr 0
    · exact .inl ⟨if_pos haddr, if_pos haddr⟩
    · exact .inr ⟨if_neg haddr, if_neg haddr⟩
  | failed => exact .inl ⟨rfl, rfl⟩

end Events

variable [DecidableEq C] {s s' : State n C} {c : C} {log : Log n C} {y : Choice}

theorem Log.owed_add_of_settles (h : ∀ e' ∈ e, e'.settles = none) (u t : Thread n C) :
    (log.add u e).owed t = log.owed t := by
  cases e with
  | none => rfl
  | some e => exact Log.owed_cons_of_settles (h e rfl) u t log

theorem owing_cons_of_none (hf : f.owes = none) : owing (f :: rest) = owing rest := by
  rw [owing, List.findSome?_cons, hf]
  rfl

theorem owing_congr (h : g.owes = f.owes) : owing (g :: rest) = owing (f :: rest) := by
  rw [owing, owing, List.findSome?_cons, List.findSome?_cons, h]

theorem owing_eq_none {fs : List (Frame n)} (h : ∀ f ∈ fs, ∀ p, f.fn ≠ .kwait p) :
    owing fs = none :=
  List.findSome?_eq_none_iff.mpr fun f hf => owes_of_fn (h f hf)

/-- The status is copied and the child is freed by `exec` statements. -/
theorem settles_eq_none {a : Act n} {e' : Event n} (ha : code x f = a)
    (hexec : ∀ sh g, a ≠ .exec sh g) (hdone : ¬∃ p addr v, f = .kwait p addr (.done v))
    (he : f.event sh g = some e') : e'.settles = none := by
  obtain hnone | ⟨p, addr, j, pid, rfl, -⟩ | ⟨p, addr, j, pid, rfl, -⟩ | ⟨p, addr, v, hf, -⟩ :=
    event_settles he
  · exact hnone
  · obtain ⟨g', hcopy⟩ := copyout_exec x p j addr pid
    exact absurd (ha.symm.trans hcopy) (hexec _ _)
  · exact absurd ha.symm (hexec _ _)
  · exact absurd ⟨p, addr, v, hf⟩ hdone

theorem owes_of_next {a : Act n} (ha : code x f = a) (hnext : a.next = some g) (hfn : g.fn = f.fn)
    (hexec : ∀ sh g, a ≠ .exec sh g) : g.owes = f.owes := by
  obtain ⟨p, addr, j, pid, rfl, -⟩ | ⟨p, addr, j, pid, rfl, -⟩ | howes := next_owes ha hnext hfn
  · obtain ⟨g', hcopy⟩ := copyout_exec x p j addr pid
    exact absurd (ha.symm.trans hcopy) (hexec _ _)
  · exact absurd ha.symm (hexec _ _)
  · exact howes

section Accounts

variable (howed : ∀ t, log.owed t = owing (s.stack t)) {fs : List (Frame n)}

include howed

theorem owed_of_replaced (hs : s.stack (s.running c) = f :: rest)
    (hstack : s'.stack = Function.update s.stack (s.running c) fs)
    (he : ∀ e' ∈ e, e'.settles = none) (hfs : owing fs = owing (f :: rest)) (t : Thread n C) :
    (log.add (s.running c) e).owed t = owing (s'.stack t) := by
  rw [Log.owed_add_of_settles he, howed, hstack]
  obtain rfl | ht := eq_or_ne t (s.running c)
  · rw [Function.update_self, hfs, hs]
  · rw [Function.update_of_ne ht]

theorem owed_of_silent (hs : s.stack (s.running c) = f :: rest)
    (hstack : s'.stack = Function.update s.stack (s.running c) fs)
    (hfs : owing fs = owing (f :: rest)) (t : Thread n C) :
    (log.add (s.running c) none).owed t = owing (s'.stack t) :=
  owed_of_replaced howed hs hstack (fun _ he' => absurd he' (Option.not_mem_none _)) hfs t

/-- The event says what the executed stack owes. -/
theorem owed_of_settled {e' : Event n} {d : Option Debt}
    (hstack : s'.stack = Function.update s.stack (s.running c) fs) (hd : e'.settles = some d)
    (hfs : owing fs = d) (t : Thread n C) :
    (log.add (s.running c) (some e')).owed t = owing (s'.stack t) := by
  obtain rfl | ht := eq_or_ne t (s.running c)
  · rw [hstack, Function.update_self, hfs]
    exact (Log.owed_cons_self _ _ _).trans (by rw [hd, Option.getD_some])
  · rw [hstack, Function.update_of_ne ht, ← howed]
    exact Log.owed_cons_of_ne ht.symm _ _

theorem owed_copyout {addr : BitVec 64} {pid : Int} (hch : Children s)
    (hs : s.stack (s.running c) = .kwait p addr (.copyout j pid) :: rest)
    (ha : code (s.ctx nofile c y) (.kwait p addr (.copyout j pid)) = .exec s'.shared g)
    (he : e = (Frame.kwait p addr (.copyout j pid)).event s.shared g)
    (hstack : s'.stack = Function.update s.stack (s.running c) (g :: rest)) (t : Thread n C) :
    (log.add (s.running c) e).owed t = owing (s'.stack t) := by
  obtain ⟨hg, rfl⟩ | ⟨hg, rfl⟩ := copyout_event ha he
  · exact owed_of_silent howed hs hstack (owing_congr hg) t
  · have hpid : (s.shared.proc j).pid = pid := hch.read c p addr _ j pid ⟨rest, hs⟩ rfl
    refine owed_of_settled howed hstack rfl ?_ t
    rw [owing, List.findSome?_cons, hg, ← hpid]
    rfl

theorem Sound.owed_reap {addr : BitVec 64} {pid : Int} (h : Sound s) (hch : Children s)
    (hp : Pids s log) (hs : s.stack (s.running c) = .kwait p addr (.freeproc j pid) :: rest)
    (ha : code (s.ctx nofile c y) (.kwait p addr (.freeproc j pid)) = .exec s'.shared g)
    (he : e = (Frame.kwait p addr (.freeproc j pid)).event s.shared g)
    (hstack : s'.stack = Function.update s.stack (s.running c) (g :: rest)) (t : Thread n C) :
    (log.add (s.running c) e).owed t = owing (s'.stack t) := by
  obtain rfl := (Act.exec.inj ha).2
  have hpid : (s.shared.proc j).pid = pid := hch.read c p addr _ j pid ⟨rest, hs⟩ rfl
  have hne : pid ≠ -1 := by
    have hrel : (Frame.kwait p addr (.freeproc j pid)).Relies (s.ctx nofile c y) (s.running c) :=
      h.relies hs y
    have hzombie : s.shared.states j = .zombie := hrel.knows (j, .zombie) (List.mem_singleton_self _)
    have hpos := (hp.live j (by rw [hzombie]; rintro ⟨⟩)).1
    omega
  subst he
  refine owed_of_settled howed hstack rfl ?_ t
  rw [owing, List.findSome?_cons]
  simp only [Frame.owes, KwaitPc.result, Option.bind_some, if_neg hne, hpid]

theorem Sound.owed_exec (h : Sound s) (hch : Children s) (hp : Pids s log)
    (hs : s.stack (s.running c) = f :: rest) (ha : code (s.ctx nofile c y) f = .exec s'.shared g)
    (he : e = f.event s.shared g)
    (hstack : s'.stack = Function.update s.stack (s.running c) (g :: rest)) (t : Thread n C) :
    (log.add (s.running c) e).owed t = owing (s'.stack t) := by
  by_cases hcopy : ∃ p addr j pid, f = .kwait p addr (.copyout j pid)
  · obtain ⟨p, addr, j, pid, rfl⟩ := hcopy
    exact owed_copyout howed hch hs ha he hstack t
  by_cases hreap : ∃ p addr j pid, f = .kwait p addr (.freeproc j pid)
  · obtain ⟨p, addr, j, pid, rfl⟩ := hreap
    exact h.owed_reap howed hch hp hs ha he hstack t
  have howes : g.owes = f.owes := by
    obtain ⟨p, addr, j, pid, hf, -⟩ | ⟨p, addr, j, pid, hf, -⟩ | howes :=
      next_owes ha rfl ((h.disciplined hs ha).next_fn rfl)
    · exact absurd ⟨p, addr, j, pid, hf⟩ hcopy
    · exact absurd ⟨p, addr, j, pid, hf⟩ hreap
    · exact howes
  refine owed_of_replaced howed hs hstack (fun e' he' => ?_) (owing_congr howes) t
  obtain hnone | ⟨p, addr, j, pid, hf, -⟩ | ⟨p, addr, j, pid, hf, -⟩ | ⟨p, addr, v, rfl, -⟩ :=
    event_settles (he.symm.trans he')
  · exact hnone
  · exact absurd ⟨p, addr, j, pid, hf⟩ hcopy
  · exact absurd ⟨p, addr, j, pid, hf⟩ hreap
  · cases ha

theorem Sound.owed_call {callee : Frame n} (h : Sound s) (hs : s.stack (s.running c) = f :: rest)
    (ha : code (s.ctx nofile c y) f = .call callee g)
    (hstack : s'.stack = Function.update s.stack (s.running c) (callee :: g :: rest))
    (t : Thread n C) :
    (log.add (s.running c) (f.event s.shared callee)).owed t = owing (s'.stack t) := by
  have hexec (sh : Shared n) (g' : Frame n) : Act.call callee g ≠ .exec sh g' := by rintro ⟨⟩
  refine owed_of_replaced howed hs hstack (fun e' he' => settles_eq_none ha hexec ?_ he') ?_ t
  · rintro ⟨p, addr, v, rfl⟩
    cases ha
  · rw [owing_cons_of_none (owes_of_starts (code_starts ha))]
    exact owing_congr (owes_of_next ha rfl ((h.disciplined hs ha).next_fn rfl) hexec)

theorem Sound.owed_ret {v : Val n} (h : Sound s) (hs : s.stack (s.running c) = f :: r :: rest)
    (ha : code (s.ctx nofile c y) f = .ret v) (hawaits : r.Awaits f.fn)
    (hstack : s'.stack = Function.update s.stack (s.running c) (r.resume v :: rest))
    (t : Thread n C) :
    (log.add (s.running c) (f.event s.shared (r.resume v))).owed t = owing (s'.stack t) := by
  obtain ⟨hr, hresume⟩ := owes_of_awaits (v := v) hawaits
  by_cases hdone : ∃ p addr w, f = .kwait p addr (.done w)
  · -- The wait returns what it owes.
    obtain ⟨p, addr, w, rfl⟩ := hdone
    have hok := h.stack (s.running c)
    rw [hs] at hok
    have hrest : owing rest = none := by
      refine owing_eq_none fun g hg q hq => ?_
      exact hok.not_family_below (.inr (.inr rfl)) (List.mem_cons_of_mem _ hg) (.inr (.inr hq))
    exact owed_of_settled howed hstack rfl ((owing_cons_of_none hresume).trans hrest) t
  · have hf : f.owes = none := (ret_owes ha).resolve_left hdone
    refine owed_of_replaced howed hs hstack (fun e' he' => ?_) ?_ t
    · exact settles_eq_none ha (by rintro _ _ ⟨⟩) hdone he'
    · rw [owing_cons_of_none hresume, owing_cons_of_none hf, owing_cons_of_none hr]

/-- The slot whose context is set up has no process that waits. -/
theorem Sound.owed_context (h : Sound s) (hk : Kin s)
    (hs : s.stack (s.running c) = .allocproc (.context p) :: rest)
    (hstack : s'.stack = Function.update (Function.update s.stack (s.running c)
      (.allocproc (.done (some p)) :: rest)) (.proc p) [.forkret p .release]) (t : Thread n C) :
    log.owed t = owing (s'.stack t) := by
  rw [howed, hstack]
  obtain rfl | ht := eq_or_ne t (.proc p)
  · rw [Function.update_self]
    refine owing_eq_none fun g hg q hq => ?_
    obtain rfl : p = q := by
      have hon := (h.stack (.proc p)).of_mem hg
      rw [hq] at hon
      exact Thread.proc.inj hon
    have halive : s.shared.Alive p := by
      obtain ⟨addr, pc, rfl⟩ := Frame.eq_kwait_of_fn hq
      exact hk.frames _ _ hg
    have hused : s.shared.states p = .used := by
      refine h.built (s.running c) p ?_
      rw [hs]
      exact Multiset.mem_add.mpr (.inl (Multiset.mem_singleton_self p))
    rw [Shared.Alive, hused] at halive
    cases halive
  · rw [Function.update_of_ne ht]
    obtain rfl | htr := eq_or_ne t (s.running c)
    · rw [Function.update_self, hs]
      rfl
    · rw [Function.update_of_ne htr]

/-- The accounts of the threads are kept by every step. -/
theorem Turn.owed (hch : Children s) (hp : Pids s log) (hk : Kin s) (h : Sound s)
    (hs : s.stack (s.running c) = f :: rest) (hturn : Turn nofile s c f rest s' e)
    (t : Thread n C) : (log.add (s.running c) e).owed t = owing (s'.stack t) := by
  cases hturn with
  | @lock x l g ha hstack hrun hsh =>
    have howes : g.owes = f.owes := by
      obtain ha | ha := ha
      · exact owes_of_next ha rfl ((h.disciplined hs ha).next_fn rfl) (by rintro _ _ ⟨⟩)
      · exact owes_of_next ha rfl ((h.disciplined hs ha).next_fn rfl) (by rintro _ _ ⟨⟩)
    exact owed_of_silent howed hs hstack (owing_congr howes) t
  | exec ha he hw hstack hrun => exact h.owed_exec howed hch hp hs ha he hstack t
  | call ha hstack hrun hsh => exact h.owed_call howed hs ha hstack t
  | ret ha hrest hawaits hstack hrun hsh =>
    subst hrest
    exact h.owed_ret howed hs ha hawaits hstack t
  | interrupt hn hstack hrun hsh => exact owed_of_silent howed hs hstack rfl t
  | panic ha hstack hrun hsh => exact owed_of_silent howed hs hstack rfl t
  | iret hrest hf hheld hstack hrun hsh =>
    have howes : f.owes = none := owes_of_fn fun p hp => by cases hf.symm.trans hp
    exact owed_of_silent howed hs hstack (owing_cons_of_none howes).symm t
  | context hf hidle hstack hrun hsh =>
    subst hf
    exact h.owed_context howed hk hs hstack t
  | switch hf hg hstack htop hsh =>
    refine owed_of_silent howed hs hstack (owing_congr ?_) t
    obtain ⟨pc, pc', rfl, rfl⟩ | ⟨q, rfl, rfl⟩ := hf
    · rfl
    · rfl

end Accounts

end MultithreadMayhem.Kernel
