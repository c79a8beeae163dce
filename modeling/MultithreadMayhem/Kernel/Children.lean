import MultithreadMayhem.Kernel.Remains
import MultithreadMayhem.Kernel.Tidy

/-!
# The child that a wait has found

`kwait` holds `wait_lock` from the test of the parent on, so the child that it looks at
remains its own, and it holds the lock of a child whose pid it has read. The status of
a process that exits is stored when its state is set.
-/

namespace MultithreadMayhem.Kernel

variable {n nofile : ℕ} {C : Type} {f g : Frame n} {j p : Fin n} {rest : List (Frame n)}
  {e : Option (Event n)}

namespace KwaitPc

def child : KwaitPc n → Option (Fin n)
  | acquire pp | test pp | copyout pp _ | freeproc pp _ => some pp
  | _ => none

def found : KwaitPc n → Option (Fin n × Int)
  | copyout pp pid | freeproc pp pid => some (pp, pid)
  | _ => none

end KwaitPc

/-- The facts that a wait and an exit have established while they hold locks. -/
structure Children (s : State n C) : Prop where
  mine : ∀ c p addr pc j, s.Top c (.kwait p addr pc) → pc.child = some j →
    s.shared.parent j = some p
  read : ∀ c p addr pc j pid, s.Top c (.kwait p addr pc) → pc.found = some (j, pid) →
    (s.shared.proc j).pid = pid
  stored : ∀ c p status, s.Top c (.kexit p status .setState) → (s.shared.proc p).xstate = status

variable [DecidableEq C] {s s' : State n C} {c : C}

theorem KwaitPc.child_held {addr : BitVec 64} {pc : KwaitPc n} (h : pc.child = some j) :
    Lock.waitLock ∈ (Frame.kwait p addr pc).locks := by
  cases pc with
  | acquire => exact Multiset.mem_singleton_self _
  | test | copyout | freeproc => exact Multiset.mem_cons_of_mem (Multiset.mem_singleton_self _)
  | _ => cases h

theorem KwaitPc.found_held (p : Fin n) (addr : BitVec 64) {pc : KwaitPc n} {pid : Int}
    (h : pc.found = some (j, pid)) :
    pc.child = some j ∧ Lock.proc j ∈ (Frame.kwait p addr pc).locks := by
  cases pc with
  | copyout | freeproc =>
    cases h
    exact ⟨rfl, Multiset.mem_cons_self (Lock.proc j) {Lock.waitLock}⟩
  | _ => cases h

def Frame.settled : Frame n → Bool
  | kwait _ _ pc => pc.child.isSome
  | kexit _ _ .setState => true
  | _ => false

namespace Frame

theorem settled_locks (h : f.settled = true) : Lock.waitLock ∈ f.locks := by
  cases f with
  | kwait p addr pc =>
    obtain ⟨j, hj⟩ := Option.isSome_iff_exists.mp h
    exact KwaitPc.child_held hj
  | kexit p status pc =>
    cases pc with
    | setState => exact Multiset.mem_cons_self Lock.waitLock {.proc p}
    | _ => cases h
  | _ => cases h

theorem settled_starts (h : f.settled = true) : f.starts = false := by
  cases f with
  | kwait p addr pc =>
    cases pc with
    | acquireWait => cases h
    | _ => rfl
  | kexit p status pc =>
    cases pc with
    | setState => rfl
    | _ => cases h
  | _ => cases h

theorem settled_resume {r : Frame n} {v : Val n} {fn : Fn n} (hr : r.Awaits fn)
    (h : (r.resume v).settled = true) : False := by
  cases r with
  | kwait p addr pc =>
    cases pc with
    | killing => cases v <;> cases h
    | sleeping => cases h
    | _ => exact hr
  | kexit p status pc =>
    cases pc with
    | closing | beginning | putting | ending | reparenting | waking | scheduling => cases h
    | _ => exact hr
  | main pc => cases pc <;> cases h
  | userinit pc => cases pc <;> cases v <;> cases h
  | allocproc pc => cases pc <;> cases v <;> cases h
  | kfork p pc =>
    cases pc with
    | allocating => obtain _ | _ | _ := v <;> cases h
    | _ => cases h
  | forkret p pc => cases pc <;> cases v <;> cases h
  | yield p pc => cases pc <;> cases h
  | sleep p ch lk pc => cases pc <;> cases h
  | reparent p pc => cases pc <;> cases h
  | syscall p pc => cases pc <;> cases v <;> cases h
  | user p pc => cases pc <;> cases h
  | ext kind pc => cases pc <;> cases h
  | _ => cases h

end Frame

omit [DecidableEq C] in
theorem State.Top.mem_held {l : Lock n} (hf : s.Top c f) (hl : l ∈ f.locks) :
    l ∈ held (s.stack (s.running c)) := by
  obtain ⟨rest, hs⟩ := hf
  rw [hs]
  exact Multiset.mem_add.mpr (.inl hl)

theorem Turn.settled (h : Sound s) (hs : s.stack (s.running c) = f :: rest)
    (hturn : Turn nofile s c f rest s' e) (hg : s'.Top c g) (hsettled : g.settled = true) :
    ∃ y a, code (s.ctx nofile c y) f = a ∧ a.next = some g ∧ g.fn = f.fn ∧
      s'.shared = a.shared s.shared := by
  obtain ⟨rest', hg⟩ := hg
  cases hturn.newTop hg with
  | next ha hnext hcall hsh => exact ⟨_, _, ha, hnext, (h.disciplined hs ha).next_fn hnext, hsh⟩
  | start hstart =>
    rw [Frame.settled_starts hsettled] at hstart
    cases hstart
  | ret ha hrest hawaits hg' =>
    rw [hg'] at hsettled
    exact (Frame.settled_resume hawaits hsettled).elim
  | panic hg' =>
    subst hg'
    cases hsettled
  | free hheld =>
    have hmem := Frame.settled_locks hsettled
    rw [locks_eq_zero hheld] at hmem
    cases hmem
  | switch hsw => obtain ⟨pc, rfl⟩ | ⟨q, rfl | rfl⟩ := hsw <;> cases hsettled

namespace Children

theorem mine_self (hch : Children s) (h : Sound s) (hs : s.stack (s.running c) = f :: rest)
    (hturn : Turn nofile s c f rest s' e) {addr : BitVec 64} {pc : KwaitPc n}
    (hg : s'.Top c (.kwait p addr pc)) (hj : pc.child = some j) :
    s'.shared.parent j = some p := by
  obtain ⟨y, a, ha, hnext, hfn, hsh⟩ :=
    hturn.settled h hs hg (Option.isSome_iff_exists.mpr ⟨j, hj⟩)
  obtain ⟨addr', pc', rfl⟩ := Frame.eq_kwait_of_fn hfn.symm
  have old (hj' : pc'.child = some j) : s.shared.parent j = some p :=
    hch.mine c p addr' pc' j ⟨rest, hs⟩ hj'
  obtain ⟨pc₁, hpc, hgoes⟩ := kwait_goes ha hnext
  obtain ⟨-, rfl, rfl⟩ := Frame.kwait.inj hpc
  have hsh : s'.shared = a.shared (s.ctx nofile c y).shared := hsh
  rw [hsh]
  generalize a.shared (s.ctx nofile c y).shared = sh at hgoes ⊢
  cases hgoes with
  | child hi hp =>
    obtain rfl := Option.some.inj hj
    exact hp
  | acquire | found | copied => exact old hj
  | _ => cases hj

theorem read_self (hch : Children s) (h : Sound s) (hs : s.stack (s.running c) = f :: rest)
    (hturn : Turn nofile s c f rest s' e) {addr : BitVec 64} {pc : KwaitPc n} {pid : Int}
    (hg : s'.Top c (.kwait p addr pc)) (hj : pc.found = some (j, pid)) :
    (s'.shared.proc j).pid = pid := by
  obtain ⟨hchild, -⟩ := KwaitPc.found_held p addr hj
  obtain ⟨y, a, ha, hnext, hfn, hsh⟩ :=
    hturn.settled h hs hg (Option.isSome_iff_exists.mpr ⟨j, hchild⟩)
  obtain ⟨addr', pc', rfl⟩ := Frame.eq_kwait_of_fn hfn.symm
  obtain ⟨pc₁, hpc, hgoes⟩ := kwait_goes ha hnext
  obtain ⟨-, rfl, rfl⟩ := Frame.kwait.inj hpc
  have hsh : s'.shared = a.shared (s.ctx nofile c y).shared := hsh
  rw [hsh]
  generalize a.shared (s.ctx nofile c y).shared = sh at hgoes ⊢
  cases hgoes with
  | found =>
    cases hj
    rfl
  | copied => exact hch.read c p _ _ _ _ ⟨rest, hs⟩ hj
  | _ => cases hj

theorem stored_self (h : Sound s) (hs : s.stack (s.running c) = f :: rest)
    (hturn : Turn nofile s c f rest s' e) {status : Int} (hg : s'.Top c (.kexit p status .setState)) :
    (s'.shared.proc p).xstate = status := by
  obtain ⟨y, a, ha, hnext, hfn, hsh⟩ := hturn.settled h hs hg rfl
  obtain ⟨status', pc', rfl⟩ := Frame.eq_kexit_of_fn hfn.symm
  obtain ⟨pc₁, hpc, hgoes⟩ := kexit_goes ha hnext
  obtain ⟨-, rfl, rfl⟩ := Frame.kexit.inj hpc
  have hsh : s'.shared = a.shared (s.ctx nofile c y).shared := hsh
  rw [hsh]
  generalize a.shared (s.ctx nofile c y).shared = sh at hgoes ⊢
  cases hgoes with
  | setXstate => rw [Shared.setProc_proc, Function.update_self]

theorem step (hch : Children s) (h : Sound s) (htidy : Tidy nofile s)
    (hstep : Transition nofile s c s') (hs : s.stack (s.running c) = f :: rest)
    (hturn : Turn nofile s c f rest s' e) : Children s' := by
  -- A slot that another CPU has locked stays as it is.
  have locked {c' : C} {j : Fin n} {r : Frame n} (hc : c' ≠ c) (hr : s.Top c' r)
      (hl : Lock.proc j ∈ r.locks) : s'.shared.proc j = s.shared.proc j :=
    (h.others hstep hc).2.2.2 j (h.holder_of_mem (hr.mem_held hl))
  refine ⟨fun c' p addr pc j hg hj => ?_, fun c' p addr pc j pid hg hj => ?_,
    fun c' p status hg => ?_⟩
  · obtain rfl | hc := eq_or_ne c' c
    · exact hch.mine_self h hs hturn hg hj
    · have hold := (h.top_other hstep hc).mp hg
      exact htidy.parent_locked h hs hturn hc (hold.mem_held (KwaitPc.child_held hj))
        (hch.mine c' p addr pc j hold hj)
  · obtain rfl | hc := eq_or_ne c' c
    · exact hch.read_self h hs hturn hg hj
    · have hold := (h.top_other hstep hc).mp hg
      obtain ⟨-, hlock⟩ := KwaitPc.found_held p addr hj
      rw [locked hc hold hlock]
      exact hch.read c' p addr pc j pid hold hj
  · obtain rfl | hc := eq_or_ne c' c
    · exact stored_self h hs hturn hg
    · have hold := (h.top_other hstep hc).mp hg
      have hlock : Lock.proc p ∈ (Frame.kexit p status .setState).locks :=
        Multiset.mem_cons_of_mem (Multiset.mem_singleton_self _)
      rw [locked hc hold hlock]
      exact hch.stored c' p status hold

theorem boot (b : C) : Children (State.boot b : State n C) := by
  have base {c : C} {f : Frame n} (hf : (State.boot b).Top c f) : ∃ pc, f = .main pc := by
    obtain ⟨rest, hf⟩ := hf
    exact State.boot_main (hf ▸ List.mem_cons_self)
  refine ⟨fun c p addr pc j hf => ?_, fun c p addr pc j pid hf => ?_, fun c p status hf => ?_⟩
  · obtain ⟨pc, hf⟩ := base hf
    cases hf
  · obtain ⟨pc, hf⟩ := base hf
    cases hf
  · obtain ⟨pc, hf⟩ := base hf
    cases hf

theorem of_reachable {b : C} (hs : (kernel n nofile b).Reachable s) : Children s := by
  refine hs.invariant Children (boot b) ?_
  intro s l s' hr hch hstep
  have h := Sound.of_reachable hr
  obtain ⟨f, rest, e, hs, hturn, -⟩ := h.turn hstep
  exact hch.step h (.of_reachable hr) (State.step_transition hstep) hs hturn

end Children

end MultithreadMayhem.Kernel
