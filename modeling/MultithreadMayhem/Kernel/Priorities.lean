import MultithreadMayhem.Kernel.Pids

/-!
# The priorities as a map from pids

The history of a run determines the priority of every process: a process gets its entry
when it is made, and the entry goes when the slot is freed. The table stores this map.
-/

namespace MultithreadMayhem.Kernel

open Foundation

variable {n nofile : ℕ} {C : Type} {f g : Frame n} {rest : List (Frame n)} {sh sh' : Shared n}
  {e : Option (Event n)} {i j : Fin n} {pid : Int} {m : Int → Option Int}

/-- The map from pids to priorities after the event. -/
def Event.store (m : Int → Option Int) : Event n → Int → Option Int
  | alloc _ pid => Function.update m pid (some 31)
  | abandon _ pid | reap _ _ pid => Function.update m pid none
  | hit (.setPriority pid prio) _ _ => Function.update m pid ((m pid).map fun _ => prio)
  | _ => m

def Log.store (log : Log n C) : Int → Option Int := log.foldr (fun e m => e.2.store m) fun _ => none

namespace Shared

def Has (sh : Shared n) (j : Fin n) (pid : Int) : Prop :=
  sh.states j ≠ .unused ∧ (sh.proc j).pid = pid

def Stores (sh : Shared n) (m : Int → Option Int) : Prop :=
  ∀ pid v, m pid = some v ↔ ∃ j, sh.Has j pid ∧ (sh.proc j).priority = v

theorem Has.congr (h : sh'.proc j = sh.proc j) : sh'.Has j pid ↔ sh.Has j pid := by
  rw [Has, Has, states, states, h]

end Shared

/-- What a step does to the processes that have a pid and to their priorities. -/
inductive Priced (sh sh' : Shared n) : Option (Event n) → Prop
  | same {e : Option (Event n)}
      (hsame : ∀ j, (sh'.states j = .unused ↔ sh.states j = .unused) ∧ (sh.states j ≠ .unused →
        (sh'.proc j).pid = (sh.proc j).pid ∧ (sh'.proc j).priority = (sh.proc j).priority))
      (he : ∀ e' ∈ e, ∀ m, e'.store m = m) : Priced sh sh' e
  | alloc {j : Fin n} (hj : sh.states j = .unused)
      (hsh : sh'.proc = Function.update sh.proc j (sh.proc j).initialized) :
      Priced sh sh' (some (.alloc j (sh.proc j).pid))
  | free {j : Fin n} {e : Event n} (hj : sh.states j ≠ .unused)
      (hsh : sh'.proc = Function.update sh.proc j (sh.proc j).freed)
      (he : ∀ m, e.store m = Function.update m (sh.proc j).pid none) : Priced sh sh' (some e)
  | set {j : Fin n} {pid prio : Int} (hj : sh.Has j pid)
      (hsh : sh'.proc = Function.update sh.proc j { sh.proc j with priority := prio }) :
      Priced sh sh' (some (.hit (.setPriority pid prio) j (sh.proc j)))

namespace Priced

theorem of_proc (hproc : sh'.proc = sh.proc) (he : ∀ e' ∈ e, ∀ m, e'.store m = m) :
    Priced sh sh' e := by
  refine .same (fun j => ⟨?_, fun _ => ⟨?_, ?_⟩⟩) he
  · rw [Shared.states, Shared.states, hproc]
  · rw [hproc]
  · rw [hproc]

theorem of_update {q : Proc n} (hproc : sh'.proc = Function.update sh.proc j q)
    (hst : q.state = .unused ↔ sh.states j = .unused)
    (hq : sh.states j ≠ .unused → q.pid = (sh.proc j).pid ∧ q.priority = (sh.proc j).priority)
    (he : ∀ e' ∈ e, ∀ m, e'.store m = m) : Priced sh sh' e := by
  refine .same (fun k => ?_) he
  rw [Shared.states, hproc]
  obtain rfl | hk := eq_or_ne k j
  · rw [Function.update_self]
    exact ⟨hst, hq⟩
  · rw [Function.update_of_ne hk]
    exact ⟨.rfl, fun _ => ⟨rfl, rfl⟩⟩

theorem has (h : Priced sh sh' e) (hj : sh.Has j pid) :
    sh'.Has j pid ∨ ∃ e', e = some e' ∧ ∀ m, e'.store m pid = none := by
  have keep {k : Fin n} {q : Proc n} (hproc : sh'.proc = Function.update sh.proc k q)
      (hq : j = k → q.state ≠ .unused ∧ q.pid = pid) : sh'.Has j pid := by
    obtain rfl | hjk := eq_or_ne j k
    · rw [Shared.Has, Shared.states, hproc, Function.update_self]
      exact hq rfl
    · refine (Shared.Has.congr ?_).mpr hj
      rw [hproc, Function.update_of_ne hjk]
  cases h with
  | same hsame he =>
    obtain ⟨hst, hsame⟩ := hsame j
    exact .inl ⟨fun h => hj.1 (hst.mp h), (hsame hj.1).1.trans hj.2⟩
  | @alloc k hk hsh =>
    refine .inl (keep hsh ?_)
    rintro rfl
    exact absurd hk hj.1
  | @free k e hk hsh he =>
    obtain rfl | hjk := eq_or_ne j k
    · refine .inr ⟨e, rfl, fun m => ?_⟩
      rw [he, hj.2, Function.update_self]
    · exact .inl (keep hsh fun h => absurd h hjk)
  | @set k pid' prio hk hsh =>
    refine .inl (keep hsh ?_)
    rintro rfl
    exact hj

theorem stores (h : Priced sh sh' e) (hm : sh.Stores m)
    (hone : ∀ i j pid, sh.Has i pid → sh.Has j pid → i = j)
    (hone' : ∀ i j pid, sh'.Has i pid → sh'.Has j pid → i = j) :
    sh'.Stores (e.elim m fun e => e.store m) := by
  intro pid v
  -- An entry that the step makes or removes is that of the slot which it changes.
  have entry {k : Fin n} {q : Proc n} (hproc : sh'.proc = Function.update sh.proc k q)
      (hk : (sh.proc k).pid ≠ pid) (hq : q.pid = (sh.proc k).pid ∨ q.state = .unused) :
      m pid = some v ↔ ∃ j, sh'.Has j pid ∧ (sh'.proc j).priority = v := by
    rw [hm]
    constructor
    · rintro ⟨j, hj, hv⟩
      have hjk : j ≠ k := by
        rintro rfl
        exact hk hj.2
      refine ⟨j, (Shared.Has.congr ?_).mpr hj, ?_⟩
      · rw [hproc, Function.update_of_ne hjk]
      · rwa [hproc, Function.update_of_ne hjk]
    · rintro ⟨j, hj, hv⟩
      obtain rfl | hjk := eq_or_ne j k
      · rw [Shared.Has, Shared.states, hproc, Function.update_self] at hj
        obtain hq | hq := hq
        · exact absurd (hq.symm.trans hj.2) hk
        · exact absurd hq hj.1
      · rw [hproc, Function.update_of_ne hjk] at hv
        exact ⟨j, (Shared.Has.congr (by rw [hproc, Function.update_of_ne hjk])).mp hj, hv⟩
  -- The entry of a slot that has a process afterwards.
  have own {k : Fin n} {q : Proc n} (hproc : sh'.proc = Function.update sh.proc k q)
      (hk : q.state ≠ .unused) (hpid : q.pid = pid) :
      some q.priority = some v ↔ ∃ j, sh'.Has j pid ∧ (sh'.proc j).priority = v := by
    have hself : sh'.proc k = q := by rw [hproc, Function.update_self]
    have hhas : sh'.Has k pid := by
      rw [Shared.Has, Shared.states, hself]
      exact ⟨hk, hpid⟩
    constructor
    · intro hv
      exact ⟨k, hhas, by rw [hself]; exact Option.some.inj hv⟩
    · rintro ⟨j, hj, hv⟩
      obtain rfl := hone' j k pid hj hhas
      rw [← hv, hself]
  cases h with
  | same hsame he =>
    have hmap : (e.elim m fun e => e.store m) = m := by
      cases e with
      | none => rfl
      | some e => exact he e rfl m
    rw [hmap, hm]
    refine exists_congr fun j => ?_
    obtain ⟨hst, hsame⟩ := hsame j
    constructor
    · rintro ⟨hj, hv⟩
      obtain ⟨hpid, hprio⟩ := hsame hj.1
      exact ⟨⟨fun h => hj.1 (hst.mp h), hpid.trans hj.2⟩, hprio.trans hv⟩
    · rintro ⟨hj, hv⟩
      have hlive : sh.states j ≠ .unused := fun h => hj.1 (hst.mpr h)
      obtain ⟨hpid, hprio⟩ := hsame hlive
      exact ⟨⟨hlive, hpid.symm.trans hj.2⟩, hprio.symm.trans hv⟩
  | @alloc k hk hsh =>
    change Function.update m (sh.proc k).pid (some 31) pid = some v ↔ _
    obtain rfl | hpid := eq_or_ne pid (sh.proc k).pid
    · rw [Function.update_self]
      exact own hsh (by rintro ⟨⟩) rfl
    · rw [Function.update_of_ne hpid]
      exact entry hsh hpid.symm (.inl rfl)
  | @free k e hk hsh he =>
    change e.store m pid = some v ↔ _
    rw [he]
    obtain rfl | hpid := eq_or_ne pid (sh.proc k).pid
    · rw [Function.update_self]
      refine ⟨by rintro ⟨⟩, ?_⟩
      rintro ⟨j, hj, -⟩
      obtain rfl | hjk := eq_or_ne j k
      · rw [Shared.Has, Shared.states, hsh, Function.update_self] at hj
        exact absurd rfl hj.1
      · have hold : sh.Has j (sh.proc k).pid :=
          (Shared.Has.congr (by rw [hsh, Function.update_of_ne hjk])).mp hj
        exact absurd (hone j k _ hold ⟨hk, rfl⟩) hjk
    · rw [Function.update_of_ne hpid]
      exact entry hsh hpid.symm (.inr rfl)
  | @set k pid' prio hk hsh =>
    obtain ⟨hlive, rfl⟩ := hk
    change Function.update m (sh.proc k).pid ((m (sh.proc k).pid).map fun _ => prio) pid = some v ↔ _
    have hold : m (sh.proc k).pid = some (sh.proc k).priority := (hm _ _).mpr ⟨k, ⟨hlive, rfl⟩, rfl⟩
    obtain rfl | hpid := eq_or_ne pid (sh.proc k).pid
    · rw [Function.update_self, hold, Option.map_some]
      exact own hsh hlive rfl
    · rw [Function.update_of_ne hpid]
      exact entry hsh hpid.symm (.inl rfl)

end Priced

theorem Event.store_of_boundary {e : Event n} (h : e.boundary = true) : e.store m = m := by
  cases e with
  | alloc | abandon | reap | hit => cases h
  | _ => rfl

theorem Write.priced {x : Ctx n} {t : Thread n C} (h : Write x t sh f g e) (hrel : f.Relies x t) :
    Priced x.shared sh e := by
  have silent : ∀ e' ∈ (none : Option (Event n)), ∀ m, e'.store m = m :=
    fun e' he' => absurd he' (Option.not_mem_none e')
  have shown {e₀ : Event n} (he₀ : ∀ m, e₀.store m = m) : ∀ e' ∈ some e₀, ∀ m, e'.store m = m := by
    intro e' he'
    obtain rfl := Option.mem_some.mp he'
    exact he₀
  cases h with
  | globals hf hproc => exact .of_proc hproc silent
  | copyout | info | advance | fork => exact .of_proc rfl (shown fun _ => rfl)
  | reparent | make | own | count | clearFile | clearCwd => exact .of_proc rfl silent
  | @setPid p pid =>
    have hunused : x.shared.states p = .unused :=
      hrel.knows (p, .unused) (List.mem_singleton_self _)
    exact .of_update rfl .rfl (fun h => absurd hunused h) silent
  | @init p => exact .alloc (hrel.knows (p, .unused) (List.mem_singleton_self _)) rfl
  | @free j f g e hf =>
    refine .free (hf.live hrel) rfl fun m => ?_
    cases hf <;> rfl
  | state hf hj hold hnew =>
    refine .of_update rfl ⟨fun h => ?_, fun h => absurd h hold.1⟩ (fun _ => ⟨rfl, rfl⟩) silent
    obtain rfl | rfl | rfl := hnew <;> cases h
  | chan | setXstate | setkilled => exact .of_update rfl .rfl (fun _ => ⟨rfl, rfl⟩) silent
  | exit hrun =>
    refine .of_update rfl ⟨nofun, fun h => ?_⟩ (fun _ => ⟨rfl, rfl⟩) (shown fun _ => rfl)
    rw [hrun] at h
    cases h
  | @hit op p q v hq =>
    obtain ⟨hpid, -, -, hst⟩ := PidOp.hit_ids hq
    cases op with
    | setPriority pid prio =>
      simp only [PidOp.hit, Kernel.setPriority] at hq
      split at hq <;> cases hq
      exact .set ⟨And.right ‹_›, And.left ‹_›⟩ rfl
    | kkill pid =>
      refine .of_update rfl hst (fun _ => ⟨hpid, ?_⟩) (shown fun _ => rfl)
      simp only [PidOp.hit, Kernel.kkill] at hq
      split at hq <;> cases hq
      rfl
    | getPriority pid =>
      simp only [PidOp.hit, Kernel.getPriority] at hq
      split at hq <;> cases hq
      exact .of_update rfl hst (fun _ => ⟨rfl, rfl⟩) (shown fun _ => rfl)

variable [DecidableEq C] {s s' : State n C} {c : C} {log : Log n C}

theorem Sound.priced (h : Sound s) (hs : s.stack (s.running c) = f :: rest)
    (ht : Turn nofile s c f rest s' e) : Priced s.shared s'.shared e := by
  obtain ⟨hsh, he⟩ | ⟨x, g, -, -, -, hw⟩ := ht.written
  · exact .of_proc (by rw [hsh]) fun e' he' m => Event.store_of_boundary (he e' he')
  · exact hw.priced (h.relies hs x)

omit [DecidableEq C] in
theorem Log.store_add (log : Log n C) (t : Thread n C) :
    (log.add t e).store = e.elim log.store fun e => e.store log.store := by
  cases e <;> rfl

omit [DecidableEq C] in
theorem Pids.one (hp : Pids s log) (hi : s.shared.Has i pid) (hj : s.shared.Has j pid) : i = j :=
  hp.distinct i j (hi.2.trans hj.2.symm) (hp.live i hi.1).1.ne'

/-- The table stores the map that the history determines. -/
theorem stores_of_history {b : C} {y : State n C × Log n C}
    (hy : (history n nofile b).Reachable y) (hfew : y.2.Few) : y.1.shared.Stores y.2.store := by
  refine hy.invariant (fun y => y.2.Few → y.1.shared.Stores y.2.store) ?_ ?_ hfew
  · rintro - pid v
    refine ⟨nofun, ?_⟩
    rintro ⟨j, hj, -⟩
    exact absurd rfl hj.1
  intro y l z hr ih hstep hfew
  have hp' := Pids.of_reachable (hr.step hstep) hfew
  obtain ⟨hstep, hlog⟩ := System.step_recorded hstep
  have h := Sound.of_reachable hr.fst
  obtain ⟨f, rest, e, hs, hturn, he⟩ := h.turn hstep
  rw [he, Log.add_eq] at hlog
  have hold : y.2.Few := by
    rw [hlog, ← Log.add_eq] at hfew
    exact Log.few_of_append hfew
  have hp := Pids.of_reachable hr hold
  rw [hlog, Log.store_add]
  exact (h.priced hs hturn).stores (ih hold) (fun _ _ _ => hp.one) fun _ _ _ => hp'.one

end MultithreadMayhem.Kernel
