import MultithreadMayhem.Kernel.Parking
import MultithreadMayhem.Kernel.Turn

/-!
# Every process has its own pid

`allocpid` takes the pids from `nextpid` one after the other, and a pid is in the hands
of one CPU until `allocproc` stores it in the slot. As long as `nextpid` does not wrap
around, no two slots have the same pid, and no pid is ever used twice.
-/

namespace MultithreadMayhem.Kernel

open Foundation

variable {n nofile : ℕ} {C : Type} {f g : Frame n} {rest : List (Frame n)}

namespace Event

def given : Event n → Option Int
  | pid v => some v
  | _ => none

def allocated : Event n → Option Int
  | alloc _ v => some v
  | _ => none

def allocatedIn (j : Fin n) : Event n → Option Int
  | alloc i v => if i = j then some v else none
  | _ => none

def anonymous : Event n → Bool
  | pid _ | alloc _ _ => false
  | _ => true

theorem anonymous_none : ∀ e ∈ (none : Option (Event n)), e.anonymous = true :=
  fun e he => absurd he (Option.not_mem_none e)

end Event

namespace Log

/-- The pids that `allocpid` has handed out. -/
def given (log : Log n C) : List Int := log.filterMap fun e => e.2.given

/-- The pids of the processes that `allocproc` has made. -/
def allocated (log : Log n C) : List Int := log.filterMap fun e => e.2.allocated

def latest (log : Log n C) (j : Fin n) : Option Int := log.findSome? fun e => e.2.allocatedIn j

def add (log : Log n C) (t : Thread n C) : Option (Event n) → Log n C
  | some e => (t, e) :: log
  | none => log

theorem add_eq (log : Log n C) (t : Thread n C) (e : Option (Event n)) :
    (e.map fun e => (t, e)).toList ++ log = log.add t e := by
  cases e <;> rfl

/-- Fewer than `2^31 - 1` pids have been allocated. -/
def Few (log : Log n C) : Prop := log.given.length < 2 ^ 31 - 1

instance (log : Log n C) : Decidable log.Few := inferInstanceAs (Decidable (_ < _))

variable {log : Log n C} {t : Thread n C}

theorem few_of_append {later : Log n C} (h : Few (later ++ log)) : log.Few := by
  have hle : (given log).length ≤ (given (later ++ log)).length := by
    rw [given, given, List.filterMap_append, List.length_append]
    exact Nat.le_add_left _ _
  exact hle.trans_lt h

theorem add_anonymous (log : Log n C) (t : Thread n C) {e : Option (Event n)} (he : ∀ e' ∈ e, e'.anonymous = true) :
    (log.add t e).given = log.given ∧ (log.add t e).allocated = log.allocated ∧
      ∀ j, (log.add t e).latest j = log.latest j := by
  obtain _ | e := e
  · exact ⟨rfl, rfl, fun _ => rfl⟩
  · have hanonymous := he e rfl
    cases e with
    | pid | alloc => cases hanonymous
    | _ => exact ⟨rfl, rfl, fun _ => rfl⟩

end Log

namespace Frame

/-- The pid that the frame has been given and not yet stored. -/
def carries : Frame n → Option Int
  | allocpid (.release v) | allocpid (.done v) | allocproc (.setPid _ v) => some v
  | _ => none

def numbering : Frame n → Bool
  | allocpid (.advance _) | allocpid (.release _) | allocpid (.done _) | allocproc (.setPid _ _)
  | allocproc (.init _) => true
  | _ => false

/-- The statement advances `nextpid`, or it is one of the two by which a slot gets its pid. -/
def assigns : Frame n → Bool
  | allocpid (.advance _) | allocproc (.setPid _ _) | allocproc (.init _) => true
  | _ => false

/-- The way of a pid from `nextpid` to the slot, as far as nothing is written. -/
inductive Hands (next : Int) : Frame n → Frame n → Prop
  | read : Hands next (allocpid .read) (allocpid (.advance next))
  | release {v : Int} : Hands next (allocpid (.release v)) (allocpid (.done v))
  | done {v : Int} {j : Fin n} : Hands next (allocpid (.done v)) (allocproc (.setPid j v))

theorem numbering_of_carries {v : Int} (h : f.carries = some v) : f.numbering = true := by
  unfold carries at h
  split at h <;> first | rfl | cases h

theorem numbering_fn (h : f.numbering = true) : f.fn = .allocpid ∨ f.fn = .allocproc := by
  unfold numbering at h
  split at h <;> first | exact .inl rfl | exact .inr rfl | cases h

theorem not_starts_of_numbering (h : f.numbering = true) : f.starts = false := by
  unfold numbering at h
  split at h <;> first | rfl | cases h

theorem assigns_of_special (h : f.special = false) : f.assigns = false := by
  unfold assigns
  split <;> first | rfl | cases h

theorem eq_allocpid_of_fn (h : f.fn = .allocpid) : ∃ pc, f = allocpid pc := by
  cases f with
  | allocpid pc => exact ⟨pc, rfl⟩
  | ext kind => cases kind <;> cases h
  | _ => cases h

theorem eq_allocproc_of_fn (h : f.fn = .allocproc) : ∃ pc, f = allocproc pc := by
  cases f with
  | allocproc pc => exact ⟨pc, rfl⟩
  | ext kind => cases kind <;> cases h
  | _ => cases h

end Frame

structure Shared.SameIds (sh sh' : Shared n) : Prop where
  pid : ∀ j, (sh'.proc j).pid = (sh.proc j).pid
  tgid : ∀ j, (sh'.proc j).tgid = (sh.proc j).tgid
  isThread : ∀ j, (sh'.proc j).isThread = (sh.proc j).isThread
  unused : ∀ j, sh'.states j = .unused ↔ sh.states j = .unused
  next : sh'.nextpid = sh.nextpid

namespace Shared.SameIds

variable {sh sh' : Shared n} {j : Fin n}

theorem of_proc (h : sh'.proc = sh.proc) (hnext : sh'.nextpid = sh.nextpid) : SameIds sh sh' := by
  refine ⟨fun j => ?_, fun j => ?_, fun j => ?_, fun j => ?_, hnext⟩
  · rw [h]
  · rw [h]
  · rw [h]
  · rw [Shared.states, Shared.states, h]

theorem setProc {q : Proc n} (hpid : q.pid = (sh.proc j).pid) (htgid : q.tgid = (sh.proc j).tgid)
    (hthread : q.isThread = (sh.proc j).isThread)
    (hst : q.state = .unused ↔ sh.states j = .unused) : SameIds sh (sh.setProc j q) := by
  have same {α : Type} (field : Proc n → α) (h : field q = field (sh.proc j)) (k : Fin n) :
      field ((sh.setProc j q).proc k) = field (sh.proc k) := by
    obtain rfl | hk := eq_or_ne k j
    · rw [Shared.setProc_proc, Function.update_self, h]
    · rw [Shared.setProc_proc, Function.update_of_ne hk]
  refine ⟨same Proc.pid hpid, same Proc.tgid htgid, same Proc.isThread hthread, fun k => ?_, rfl⟩
  obtain rfl | hk := eq_or_ne k j
  · rw [Shared.states_setProc, Function.update_self]
    exact hst
  · rw [Shared.states_setProc, Function.update_of_ne hk]

theorem setState {st : Procstate} (hst : st ≠ .unused) (hold : sh.states j ≠ .unused) :
    SameIds sh (sh.setState j st) :=
  setProc rfl rfl rfl ⟨fun h => absurd h hst, fun h => absurd h hold⟩

end Shared.SameIds

theorem Frame.Frees.plain {sh : Shared n} {j : Fin n} {e : Event n} (h : f.Frees sh j g e) :
    Lock.proc j ∈ f.locks ∧ f.assigns = false ∧ g.numbering = false ∧ e.anonymous = true := by
  cases h with
  | alloc => exact ⟨Multiset.mem_singleton_self _, rfl, rfl, rfl⟩
  | fork => exact ⟨Multiset.mem_singleton_self _, rfl, rfl, rfl⟩
  | reap =>
    refine ⟨?_, rfl, rfl, rfl⟩
    exact Multiset.mem_cons_self (Lock.proc j) {.waitLock}

/-- The writes by which a process gets its pid or loses it. -/
inductive Renumber (x : Ctx n) : Shared n → Frame n → Frame n → Option (Event n) → Prop
  | same {sh : Shared n} {f g : Frame n} {e : Option (Event n)} (hf : f.assigns = false)
      (h : x.shared.SameIds sh) (he : ∀ e' ∈ e, e'.anonymous = true) : Renumber x sh f g e
  | advance {pid : Int} : Renumber x { x.shared with nextpid := wrapInt (x.shared.nextpid + 1) }
      (.allocpid (.advance pid)) (.allocpid (.release pid)) (some (.pid pid))
  | setPid {p : Fin n} {pid : Int} : Renumber x (x.shared.setProc p { x.proc p with pid := pid })
      (.allocproc (.setPid p pid)) (.allocproc (.init p)) none
  | init {p : Fin n} :
      Renumber x ((x.shared.setProc p (x.proc p).initialized).setImage p
        { x.image p with syscalls := 0 }) (.allocproc (.init p)) (.allocproc (.trapframe p))
        (some (.alloc p (x.proc p).pid))
  | free {j : Fin n} {f g : Frame n} {e : Event n} (hf : f.Frees x.shared j g e) :
      Renumber x (x.shared.freeproc j) f g (some e)

theorem Write.renumber {x : Ctx n} {t : Thread n C} {sh : Shared n} {e : Option (Event n)}
    (h : Write x t sh f g e) : Renumber x sh f g e := by
  cases h with
  | globals hf hproc hparent himage hnext =>
    exact .same (Frame.assigns_of_special hf) (.of_proc hproc hnext) Event.anonymous_none
  | advance => exact .advance
  | setPid => exact .setPid
  | init => exact .init
  | free hf => exact .free hf
  | state hf hj hold hnew =>
    refine .same (Frame.assigns_of_special hf) (.setState ?_ hold.1) Event.anonymous_none
    obtain rfl | rfl | rfl := hnew <;> exact nofun
  | chan => exact .same rfl (.setProc rfl rfl rfl .rfl) Event.anonymous_none
  | setXstate => exact .same rfl (.setProc rfl rfl rfl .rfl) Event.anonymous_none
  | setkilled => exact .same rfl (.setProc rfl rfl rfl .rfl) Event.anonymous_none
  | exit hrun =>
    refine .same rfl (.setState nofun ?_) fun e he => ?_
    · rw [hrun]
      exact nofun
    · obtain rfl := Option.mem_some.mp he
      rfl
  | hit hq =>
    obtain ⟨hpid, htgid, hthread, hst⟩ := PidOp.hit_ids hq
    refine .same rfl (.setProc hpid htgid hthread hst) fun e he => ?_
    obtain rfl := Option.mem_some.mp he
    rfl
  | copyout | info | fork =>
    refine .same rfl (.of_proc rfl rfl) fun e he => ?_
    obtain rfl := Option.mem_some.mp he
    rfl
  | make hf | own hf =>
    exact .same (Frame.assigns_of_special hf) (.of_proc rfl rfl) Event.anonymous_none
  | reparent | count | clearFile | clearCwd => exact .same rfl (.of_proc rfl rfl) Event.anonymous_none

variable [DecidableEq C] {s s' : State n C} {c : C}

def State.Top (s : State n C) (c : C) (f : Frame n) : Prop :=
  ∃ rest, s.stack (s.running c) = f :: rest

theorem NewTop.hands {rest' : List (Frame n)} (h : Sound s) (h' : Sound s')
    (hs : s.stack (s.running c) = f :: rest) (hg : s'.stack (s'.running c) = g :: rest')
    (ht : NewTop nofile s c f rest s' g rest') (hf : f.assigns = false) (hnum : g.numbering = true) :
    f.Hands s.shared.nextpid g := by
  cases ht with
  | @next x a ha hnext hcall =>
    have hfn : g.fn = f.fn := (h.disciplined hs ha).next_fn hnext
    obtain hpid | hproc := Frame.numbering_fn hnum
    · obtain ⟨pc, rfl⟩ := Frame.eq_allocpid_of_fn (hfn.symm.trans hpid)
      subst ha
      cases pc with
      | acquire =>
        cases hnext
        cases hnum
      | read =>
        cases hnext
        exact .read
      | advance v => cases hf
      | release v =>
        cases hnext
        exact .release
      | done v => cases hnext
    · obtain ⟨pc, rfl⟩ := Frame.eq_allocproc_of_fn (hfn.symm.trans hproc)
      subst ha
      cases pc with
      | loop i | test p | trapframe p | pagetable p =>
        simp only [code, allocproc] at hnext
        split at hnext <;> cases hnext <;> cases hnum
      | setPid | init => cases hf
      | _ => cases hnext <;> cases hnum
  | start hstart =>
    rw [Frame.not_starts_of_numbering hnum] at hstart
    cases hstart
  | @ret x v r ha hrest hawaits hg' =>
    subst hg'
    generalize hfn : f.fn = fn at hawaits
    cases hawaits.calls with
    | allocpid =>
      obtain ⟨pc, rfl⟩ := Frame.eq_allocpid_of_fn hfn
      cases pc with
      | done w =>
        cases ha
        exact .done
      | _ => cases ha
    | initAllocproc | forkAllocproc => obtain _ | _ | _ := v <;> cases hnum
    | kexec | waitKilled | sysFork | sysExit | sysWait | sysPid | sysOther =>
      cases v <;> cases hnum
    | _ => cases hnum
  | panic hg =>
    subst hg
    cases hnum
  | free hheld =>
    have hok := h'.stack (s'.running c)
    rw [hg] at hok
    obtain hpid | hproc := Frame.numbering_fn hnum
    · obtain ⟨pc, rfl⟩ := Frame.eq_allocpid_of_fn hpid
      obtain ⟨j, rest, rfl⟩ := hok.rest_of_allocpid
      have hmem : Lock.proc j ∈ held (.allocpid pc :: .allocproc (.allocating j) :: rest) :=
        Multiset.mem_add.mpr (.inr (Multiset.mem_add.mpr (.inl (Multiset.mem_singleton_self _))))
      rw [hheld] at hmem
      cases hmem
    · obtain ⟨pc, rfl⟩ := Frame.eq_allocproc_of_fn hproc
      have hlocks := locks_eq_zero hheld
      cases pc with
      | setPid p | init p => cases Multiset.singleton_ne_zero _ hlocks
      | _ => cases hnum
  | switch hsw =>
    obtain ⟨pc, rfl⟩ | ⟨q, rfl | rfl⟩ := hsw <;> cases hnum

/-- What a step of the CPU `c` from the frame `f` does to the numbering of processes. -/
inductive Numbered (s : State n C) (c : C) (f : Frame n) (s' : State n C) : Option (Event n) → Prop
  | same {e : Option (Event n)} (hf : f.assigns = false) (hids : s.shared.SameIds s'.shared)
      (he : ∀ e' ∈ e, e'.anonymous = true)
      (htop : ∀ g, s'.Top c g → g.numbering = true → f.Hands s.shared.nextpid g) :
      Numbered s c f s' e
  | advance {v : Int} (hf : f = .allocpid (.advance v))
      (hsh : s'.shared = { s.shared with nextpid := wrapInt (s.shared.nextpid + 1) })
      (htop : s'.Top c (.allocpid (.release v))) : Numbered s c f s' (some (.pid v))
  | setPid {j : Fin n} {v : Int} (hf : f = .allocproc (.setPid j v))
      (hsh : s'.shared = s.shared.setProc j { s.shared.proc j with pid := v })
      (htop : s'.Top c (.allocproc (.init j))) : Numbered s c f s' none
  | init {j : Fin n} (hf : f = .allocproc (.init j))
      (hsh : s'.shared = (s.shared.setProc j (s.shared.proc j).initialized).setImage j
        { s.shared.image j with syscalls := 0 })
      (htop : s'.Top c (.allocproc (.trapframe j))) :
      Numbered s c f s' (some (.alloc j (s.shared.proc j).pid))
  | free {j : Fin n} {g : Frame n} {e : Event n} (hf : f.Frees s.shared j g e)
      (hsh : s'.shared = s.shared.freeproc j) (htop : s'.Top c g) :
      Numbered s c f s' (some e)

omit [DecidableEq C] in
theorem State.Top.eq (hf : s.Top c f) (hg : s.Top c g) : f = g := by
  obtain ⟨rest, hf⟩ := hf
  obtain ⟨rest', hg⟩ := hg
  exact (List.cons.inj (hf.symm.trans hg)).1

theorem code_of_assigns {x : Ctx n} (hf : f.assigns = true) :
    ∃ sh g, code x f = .exec sh g := by
  unfold Frame.assigns at hf
  split at hf <;> first | exact ⟨_, _, rfl⟩ | cases hf

omit [DecidableEq C] in
theorem Sound.noff_of_assigns (h : Sound s) (hs : s.stack (s.running c) = f :: rest)
    (hf : f.assigns = true) : s.noff c ≠ 0 := by
  have hlock : f.locks ≠ 0 := by
    unfold Frame.assigns at hf
    split at hf <;> first | exact Multiset.singleton_ne_zero _ | cases hf
  rw [h.noff c, hs]
  intro hcard
  exact hlock (locks_eq_zero (Multiset.card_eq_zero.mp hcard))

theorem event_anonymous {sh : Shared n} (hf : f.assigns = false) {e : Event n}
    (he : f.event sh g = some e) : e.anonymous = true := by
  unfold Frame.event at he
  split at he
  case h_1 | h_2 => cases hf
  case h_8 =>
    split at he
    · split at he <;> cases he
      rfl
    · cases he
  case h_11 =>
    split at he
    · cases he
      rfl
    · split at he <;> cases he
      rfl
    · cases he
  case h_12 =>
    split at he <;> cases he
    rfl
  all_goals cases he <;> rfl

theorem Turn.numbered {e : Option (Event n)} (h : Sound s) (h' : Sound s')
    (hs : s.stack (s.running c) = f :: rest) (ht : Turn nofile s c f rest s' e) :
    Numbered s c f s' e := by
  have hands (hf : f.assigns = false) (g : Frame n) (hg : s'.Top c g) (hnum : g.numbering = true) :
      f.Hands s.shared.nextpid g := by
    obtain ⟨rest', hg⟩ := hg
    exact (ht.newTop hg).hands h h' hs hg hf hnum
  have plain {x : Choice} {a : Act n} (ha : code (s.ctx nofile c x) f = a)
      (hexec : ∀ sh g, a ≠ .exec sh g) : f.assigns = false := by
    refine Bool.eq_false_iff.mpr fun hf => ?_
    obtain ⟨sh, g, hcode⟩ := code_of_assigns (x := s.ctx nofile c x) hf
    exact hexec sh g (ha.symm.trans hcode)
  have keeps {e : Option (Event n)} (hsh : s'.shared = s.shared) (hf : f.assigns = false)
      (he : ∀ e' ∈ e, e'.anonymous = true) : Numbered s c f s' e :=
    .same hf (.of_proc (by rw [hsh]) (by rw [hsh])) he (hands hf)
  cases ht with
  | @exec x g e ha he hw hstack hrun =>
    have top : s'.Top c g := ⟨rest, by rw [hstack, hrun, Function.update_self]⟩
    generalize hsh : s'.shared = sh at hw
    cases hw.renumber with
    | same hf hids he => exact .same hf (hsh ▸ hids) he (hands hf)
    | advance => exact .advance rfl hsh top
    | setPid => exact .setPid rfl hsh top
    | init => exact .init rfl hsh top
    | free hf => exact .free hf hsh top
  | lock ha hstack hrun hsh =>
    refine keeps hsh ?_ Event.anonymous_none
    obtain ha | ha := ha
    · exact plain ha fun _ _ => nofun
    · exact plain ha fun _ _ => nofun
  | call ha hstack hrun hsh =>
    have hf := plain ha fun _ _ => nofun
    exact keeps hsh hf fun e he => event_anonymous hf he
  | ret ha hrest hawaits hstack hrun hsh =>
    have hf := plain ha fun _ _ => nofun
    exact keeps hsh hf fun e he => event_anonymous hf he
  | interrupt hn hstack hrun hsh =>
    refine keeps hsh (Bool.eq_false_iff.mpr fun hf => ?_) Event.anonymous_none
    exact h.noff_of_assigns hs hf hn
  | panic ha hstack hrun hsh =>
    refine keeps hsh ?_ Event.anonymous_none
    obtain ⟨m, ha⟩ | ⟨l, g, ha | ha⟩ := ha
    · exact plain ha fun _ _ => nofun
    · exact plain ha fun _ _ => nofun
    · exact plain ha fun _ _ => nofun
  | iret hrest hf hheld hstack hrun hsh =>
    refine keeps hsh (Bool.eq_false_iff.mpr fun hassigns => ?_) Event.anonymous_none
    unfold Frame.assigns at hassigns
    split at hassigns <;> first | cases hf | cases hassigns
  | context hf hidle hstack hrun hsh =>
    subst hf
    exact keeps hsh rfl Event.anonymous_none
  | switch hf hg hstack htop hsh =>
    obtain ⟨pc, pc', rfl, -⟩ | ⟨q, rfl, -⟩ := hf
    · exact keeps hsh rfl Event.anonymous_none
    · exact keeps hsh rfl Event.anonymous_none

omit [DecidableEq C] in
theorem Sound.eq_of_locked (h : Sound s) {c' : C} {f' : Frame n} {j : Fin n} (hf : s.Top c f)
    (hf' : s.Top c' f') (hj : Lock.proc j ∈ f.locks) (hj' : Lock.proc j ∈ f'.locks) : c = c' := by
  obtain ⟨rest, hs⟩ := hf
  obtain ⟨rest', hs'⟩ := hf'
  refine h.cpu_eq (l := .proc j) ?_ ?_
  · rw [hs]
    exact Multiset.mem_add.mpr (.inl hj)
  · rw [hs']
    exact Multiset.mem_add.mpr (.inl hj')

/-- An unused slot has no pid, unless `allocproc` has just stored one in it. -/
def State.FreePids (s : State n C) : Prop := ∀ j, s.shared.states j = .unused →
  (s.shared.proc j).pid = 0 ∨ ∃ c, s.Top c (.allocproc (.init j))

theorem Sound.top_other (h : Sound s) (ht : Transition nofile s c s') {c' : C} (hc : c' ≠ c) :
    s'.Top c' g ↔ s.Top c' g := by
  obtain ⟨hrun, hstack, -⟩ := h.others ht hc
  rw [State.Top, hrun, hstack, State.Top]

theorem Numbered.freePids {e : Option (Event n)} (hn : Numbered s c f s' e) (h : Sound s)
    (ht : Transition nofile s c s') (hs : s.Top c f) (hfree : s.FreePids) : s'.FreePids := by
  intro i hi
  -- The CPU that takes the step was not about to make the slot used.
  have window (hne : f ≠ .allocproc (.init i)) (hw : ∃ c', s.Top c' (.allocproc (.init i))) :
      ∃ c', s'.Top c' (.allocproc (.init i)) := by
    obtain ⟨c', hc'⟩ := hw
    obtain rfl | hc := eq_or_ne c' c
    · exact absurd (hs.eq hc') hne
    · exact ⟨c', (h.top_other ht hc).mpr hc'⟩
  cases hn with
  | same hf hids he htop =>
    rw [hids.pid]
    refine (hfree i ((hids.unused i).mp hi)).imp_right (window ?_)
    rintro rfl
    cases hf
  | advance hf hsh htop =>
    rw [hsh] at hi ⊢
    refine (hfree i hi).imp_right (window ?_)
    rw [hf]
    exact nofun
  | @setPid j v hf hsh htop =>
    obtain rfl | hij := eq_or_ne i j
    · exact .inr ⟨c, htop⟩
    · rw [hsh, Shared.states_setProc, Function.update_of_ne hij] at hi
      rw [hsh, Shared.setProc_proc, Function.update_of_ne hij]
      refine (hfree i hi).imp_right (window ?_)
      rw [hf]
      exact nofun
  | @init j hf hsh htop =>
    rw [hsh, Shared.states_setImage, Shared.states_setProc] at hi
    obtain rfl | hij := eq_or_ne i j
    · rw [Function.update_self] at hi
      cases hi
    · rw [Function.update_of_ne hij] at hi
      rw [hsh, Shared.setImage_proc, Shared.setProc_proc, Function.update_of_ne hij]
      refine (hfree i hi).imp_right (window ?_)
      rw [hf]
      rintro ⟨⟩
      exact hij rfl
  | @free j g e hf hsh htop =>
    obtain rfl | hij := eq_or_ne i j
    · rw [hsh, Shared.freeproc_proc, Function.update_self]
      exact .inl rfl
    · rw [hsh, Shared.states_freeproc, Function.update_of_ne hij] at hi
      rw [hsh, Shared.freeproc_proc, Function.update_of_ne hij]
      refine (hfree i hi).imp_right (window ?_)
      rintro rfl
      cases hf

theorem State.FreePids.of_reachable {b : C} (hs : (kernel n nofile b).Reachable s) : s.FreePids := by
  refine hs.invariant State.FreePids (fun _ _ => .inl rfl) ?_
  intro s l s' hr hfree hstep
  have h := Sound.of_reachable hr
  obtain ⟨f, rest, e, hs, hturn, -⟩ := h.turn hstep
  exact (hturn.numbered h (h.step hstep) hs).freePids h (State.step_transition hstep) ⟨rest, hs⟩ hfree

/-- What the numbering of processes keeps while `nextpid` has not wrapped around. -/
structure Pids (s : State n C) (log : Log n C) : Prop where
  next : s.shared.nextpid = log.given.length + 1
  slot : ∀ j, 0 ≤ (s.shared.proc j).pid ∧ (s.shared.proc j).pid ≤ log.given.length
  distinct : ∀ i j, (s.shared.proc i).pid = (s.shared.proc j).pid → (s.shared.proc i).pid ≠ 0 →
    i = j
  unused : ∀ j, s.shared.states j = .unused →
    (s.shared.proc j).pid = 0 ∨ ∃ c, s.Top c (.allocproc (.init j))
  live : ∀ j, s.shared.states j ≠ .unused → 0 < (s.shared.proc j).pid ∧
    (s.shared.proc j).tgid = (s.shared.proc j).pid ∧ (s.shared.proc j).isThread = 0
  reading : ∀ c v, s.Top c (.allocpid (.advance v)) → v = s.shared.nextpid
  initial : ∀ c j, s.Top c (.allocproc (.init j)) →
    0 < (s.shared.proc j).pid ∧ (s.shared.proc j).pid ∉ log.allocated
  fresh : ∀ c f v, s.Top c f → f.carries = some v → 0 < v ∧ v ≤ log.given.length ∧
    (∀ j, (s.shared.proc j).pid ≠ v) ∧ v ∉ log.allocated
  once : ∀ c c' f f' v, s.Top c f → s.Top c' f' → f.carries = some v → f'.carries = some v → c = c'
  nodup : log.allocated.Nodup
  allocated : ∀ v ∈ log.allocated, 0 < v ∧ v ≤ log.given.length
  latest : ∀ j, s.shared.states j ≠ .unused → log.latest j = some (s.shared.proc j).pid

theorem wrapInt_eq {x : Int} (h : -2 ^ 31 ≤ x) (h' : x < 2 ^ 31) : wrapInt x = x := by
  rw [wrapInt, Int.bmod_def]
  split <;> omega

namespace Pids

variable {log : Log n C} {t : Thread n C} {e : Option (Event n)}

theorem same_step (hp : Pids s log) (h : Sound s) (ht : Transition nofile s c s')
    (hs : s.Top c f) (hf : f.assigns = false) (hids : s.shared.SameIds s'.shared)
    (he : ∀ e' ∈ e, e'.anonymous = true) (hfree : s'.FreePids)
    (htop : ∀ g, s'.Top c g → g.numbering = true → f.Hands s.shared.nextpid g) :
    Pids s' (log.add t e) := by
  obtain ⟨hgiven, hallocated, hlatest⟩ := Log.add_anonymous log t he
  have carried {c' : C} {g : Frame n} {v : Int} (hg : s'.Top c' g) (hv : g.carries = some v) :
      ∃ f', s.Top c' f' ∧ f'.carries = some v := by
    obtain rfl | hc := eq_or_ne c' c
    · cases htop g hg (Frame.numbering_of_carries hv) with
      | read => cases hv
      | release => exact ⟨_, hs, hv⟩
      | done => exact ⟨_, hs, hv⟩
    · exact ⟨g, (h.top_other ht hc).mp hg, hv⟩
  have unused (j : Fin n) : s'.shared.states j ≠ .unused ↔ s.shared.states j ≠ .unused :=
    not_congr (hids.unused j)
  constructor
  · rw [hids.next, hgiven, hp.next]
  · intro j
    rw [hids.pid, hgiven]
    exact hp.slot j
  · intro i j
    rw [hids.pid, hids.pid]
    exact hp.distinct i j
  · exact hfree
  · intro j hj
    rw [hids.pid, hids.tgid, hids.isThread]
    exact hp.live j ((unused j).mp hj)
  · intro c' v hg
    rw [hids.next]
    obtain rfl | hc := eq_or_ne c' c
    · cases htop _ hg rfl
      rfl
    · exact hp.reading c' v ((h.top_other ht hc).mp hg)
  · intro c' j hg
    rw [hids.pid, hallocated]
    obtain rfl | hc := eq_or_ne c' c
    · cases htop _ hg rfl
    · exact hp.initial c' j ((h.top_other ht hc).mp hg)
  · intro c' g v hg hv
    obtain ⟨f', hf', hv'⟩ := carried hg hv
    rw [hgiven, hallocated]
    simp only [hids.pid]
    exact hp.fresh c' f' v hf' hv'
  · intro c₁ c₂ g₁ g₂ v hg₁ hg₂ hv₁ hv₂
    obtain ⟨f₁, hf₁, hv₁⟩ := carried hg₁ hv₁
    obtain ⟨f₂, hf₂, hv₂⟩ := carried hg₂ hv₂
    exact hp.once c₁ c₂ f₁ f₂ v hf₁ hf₂ hv₁ hv₂
  · rw [hallocated]
    exact hp.nodup
  · rw [hallocated, hgiven]
    exact hp.allocated
  · intro j hj
    rw [hlatest, hids.pid]
    exact hp.latest j ((unused j).mp hj)

theorem advance_step {v : Int} (hp : Pids s log) (h : Sound s) (ht : Transition nofile s c s')
    (hs : s.Top c (.allocpid (.advance v)))
    (hsh : s'.shared = { s.shared with nextpid := wrapInt (s.shared.nextpid + 1) })
    (htop : s'.Top c (.allocpid (.release v))) (hfew : (log.add t (some (.pid v))).Few)
    (hfree : s'.FreePids) : Pids s' (log.add t (some (.pid v))) := by
  have hv : v = log.given.length + 1 := (hp.reading c v hs).trans hp.next
  have hproc : s'.shared.proc = s.shared.proc := by rw [hsh]
  have hstates : s'.shared.states = s.shared.states := by
    funext j
    rw [Shared.states, Shared.states, hproc]
  have hgiven : (log.add t (some (.pid v))).given = v :: log.given := rfl
  have hlength : ((log.add t (some (.pid v))).given.length : Int) = log.given.length + 1 := by
    rw [hgiven, List.length_cons, Nat.cast_add, Nat.cast_one]
  have hother {c' : C} {g : Frame n} (hg : s'.Top c' g) : c' = c ∧ g = .allocpid (.release v) ∨
      c' ≠ c ∧ s.Top c' g := by
    obtain rfl | hc := eq_or_ne c' c
    · exact .inl ⟨rfl, hg.eq htop⟩
    · exact .inr ⟨hc, (h.top_other ht hc).mp hg⟩
  constructor
  · rw [hlength, hsh]
    change wrapInt (s.shared.nextpid + 1) = _
    have hlt : (log.add t (some (.pid v))).given.length < 2 ^ 31 - 1 := hfew
    rw [hp.next]
    refine wrapInt_eq ?_ ?_ <;> omega
  · intro j
    rw [hproc, hlength]
    have := hp.slot j
    omega
  · rw [hproc]
    exact hp.distinct
  · exact hfree
  · rw [hproc, hstates]
    exact hp.live
  · intro c' w hg
    obtain ⟨-, hg⟩ | ⟨hc, hg⟩ := hother hg
    · cases hg
    · -- Both CPUs would have `pid_lock`.
      obtain ⟨rest, hs⟩ := hs
      obtain ⟨rest', hg⟩ := hg
      refine absurd (h.cpu_eq (l := .pidLock) ?_ ?_) hc
      · rw [hg]
        exact Multiset.mem_add.mpr (.inl (Multiset.mem_singleton_self _))
      · rw [hs]
        exact Multiset.mem_add.mpr (.inl (Multiset.mem_singleton_self _))
  · intro c' j hg
    obtain ⟨-, hg⟩ | ⟨-, hg⟩ := hother hg
    · cases hg
    · rw [hproc]
      exact hp.initial c' j hg
  · intro c' g w hg hw
    rw [hproc, hlength]
    obtain ⟨-, rfl⟩ | ⟨-, hg⟩ := hother hg
    · cases hw
      refine ⟨by omega, by omega, fun j hj => ?_, fun hmem => ?_⟩
      · have := hp.slot j
        omega
      · have := hp.allocated v hmem
        omega
    · obtain ⟨hpos, hle, hslot, hnew⟩ := hp.fresh c' g w hg hw
      exact ⟨hpos, by omega, hslot, hnew⟩
  · intro c₁ c₂ g₁ g₂ w hg₁ hg₂ hw₁ hw₂
    obtain ⟨rfl, rfl⟩ | ⟨-, hg₁⟩ := hother hg₁
    · obtain ⟨rfl, -⟩ | ⟨-, hg₂⟩ := hother hg₂
      · rfl
      · cases hw₁
        have := hp.fresh c₂ g₂ v hg₂ hw₂
        omega
    · obtain ⟨rfl, rfl⟩ | ⟨-, hg₂⟩ := hother hg₂
      · cases hw₂
        have := hp.fresh c₁ g₁ v hg₁ hw₁
        omega
      · exact hp.once c₁ c₂ g₁ g₂ w hg₁ hg₂ hw₁ hw₂
  · exact hp.nodup
  · intro w hw
    have := hp.allocated w hw
    omega
  · rw [hproc, hstates]
    exact hp.latest

theorem setPid_step {j : Fin n} {v : Int} (hp : Pids s log) (h : Sound s)
    (ht : Transition nofile s c s') (hs : s.Top c (.allocproc (.setPid j v)))
    (hsh : s'.shared = s.shared.setProc j { s.shared.proc j with pid := v })
    (htop : s'.Top c (.allocproc (.init j))) (hfree : s'.FreePids) : Pids s' (log.add t none) := by
  obtain ⟨hpos, hle, hslot, hnew⟩ := hp.fresh c _ v hs rfl
  have hstates : s'.shared.states = s.shared.states := by
    rw [hsh, Shared.states_setProc]
    exact Function.update_eq_self j _
  have hunused : s.shared.states j = .unused := by
    obtain ⟨rest, hs⟩ := hs
    refine h.known c (j, .unused) ?_
    rw [hs]
    exact List.mem_cons_self
  have hself : s'.shared.proc j = { s.shared.proc j with pid := v } := by
    rw [hsh, Shared.setProc_proc, Function.update_self]
  have hne {i : Fin n} (hi : i ≠ j) : s'.shared.proc i = s.shared.proc i := by
    rw [hsh, Shared.setProc_proc, Function.update_of_ne hi]
  have hother {c' : C} {g : Frame n} (hg : s'.Top c' g) : c' = c ∧ g = .allocproc (.init j) ∨
      c' ≠ c ∧ s.Top c' g := by
    obtain rfl | hc := eq_or_ne c' c
    · exact .inl ⟨rfl, hg.eq htop⟩
    · exact .inr ⟨hc, (h.top_other ht hc).mp hg⟩
  change Pids s' log
  constructor
  · rw [hsh]
    exact hp.next
  · intro i
    obtain rfl | hi := eq_or_ne i j
    · rw [hself]
      exact ⟨hpos.le, hle⟩
    · rw [hne hi]
      exact hp.slot i
  · intro i k hik hnz
    obtain rfl | hi := eq_or_ne i j
    · obtain rfl | hk := eq_or_ne k i
      · rfl
      · rw [hself, hne hk] at hik
        exact absurd hik.symm (hslot k)
    · rw [hne hi] at hik hnz
      obtain rfl | hk := eq_or_ne k j
      · rw [hself] at hik
        exact absurd hik (hslot i)
      · rw [hne hk] at hik
        exact hp.distinct i k hik hnz
  · exact hfree
  · intro i hi
    rw [hstates] at hi
    obtain rfl | hij := eq_or_ne i j
    · exact absurd hunused hi
    · rw [hne hij]
      exact hp.live i hi
  · intro c' w hg
    obtain ⟨-, hg⟩ | ⟨-, hg⟩ := hother hg
    · cases hg
    · rw [hsh]
      exact hp.reading c' w hg
  · intro c' i hg
    obtain ⟨-, hg⟩ | ⟨hc, hg⟩ := hother hg
    · cases hg
      rw [hself]
      exact ⟨hpos, hnew⟩
    · have hij : i ≠ j := by
        rintro rfl
        exact hc (h.eq_of_locked hg hs (Multiset.mem_singleton_self _)
          (Multiset.mem_singleton_self _))
      rw [hne hij]
      exact hp.initial c' i hg
  · intro c' g w hg hw
    obtain ⟨-, rfl⟩ | ⟨hc, hg⟩ := hother hg
    · cases hw
    · obtain ⟨hwpos, hwle, hwslot, hwnew⟩ := hp.fresh c' g w hg hw
      refine ⟨hwpos, hwle, fun i => ?_, hwnew⟩
      obtain rfl | hij := eq_or_ne i j
      · rw [hself]
        rintro rfl
        exact hc (hp.once c' c g _ _ hg hs hw rfl)
      · rw [hne hij]
        exact hwslot i
  · intro c₁ c₂ g₁ g₂ w hg₁ hg₂ hw₁ hw₂
    obtain ⟨-, rfl⟩ | ⟨-, hg₁⟩ := hother hg₁
    · cases hw₁
    · obtain ⟨-, rfl⟩ | ⟨-, hg₂⟩ := hother hg₂
      · cases hw₂
      · exact hp.once c₁ c₂ g₁ g₂ w hg₁ hg₂ hw₁ hw₂
  · exact hp.nodup
  · exact hp.allocated
  · intro i hi
    rw [hstates] at hi
    obtain rfl | hij := eq_or_ne i j
    · exact absurd hunused hi
    · rw [hne hij]
      exact hp.latest i hi

theorem init_step {j : Fin n} (hp : Pids s log) (h : Sound s) (ht : Transition nofile s c s')
    (hs : s.Top c (.allocproc (.init j)))
    (hsh : s'.shared = (s.shared.setProc j (s.shared.proc j).initialized).setImage j
      { s.shared.image j with syscalls := 0 })
    (htop : s'.Top c (.allocproc (.trapframe j))) (hfree : s'.FreePids) :
    Pids s' (log.add t (some (.alloc j (s.shared.proc j).pid))) := by
  obtain ⟨hpos, hnew⟩ := hp.initial c j hs
  have hself : s'.shared.proc j = (s.shared.proc j).initialized := by
    rw [hsh, Shared.setImage_proc, Shared.setProc_proc, Function.update_self]
  have hne {i : Fin n} (hi : i ≠ j) : s'.shared.proc i = s.shared.proc i := by
    rw [hsh, Shared.setImage_proc, Shared.setProc_proc, Function.update_of_ne hi]
  have hpid (i : Fin n) : (s'.shared.proc i).pid = (s.shared.proc i).pid := by
    obtain rfl | hi := eq_or_ne i j
    · rw [hself]
      rfl
    · rw [hne hi]
  have hother {c' : C} {g : Frame n} (hg : s'.Top c' g) : g = .allocproc (.trapframe j) ∨
      c' ≠ c ∧ s.Top c' g := by
    obtain rfl | hc := eq_or_ne c' c
    · exact .inl (hg.eq htop)
    · exact .inr ⟨hc, (h.top_other ht hc).mp hg⟩
  have hused : s'.shared.states j ≠ .unused := by
    rw [Shared.states, hself]
    rintro ⟨⟩
  change Pids s' ((t, .alloc j (s.shared.proc j).pid) :: log)
  have hallocated : Log.allocated ((t, .alloc j (s.shared.proc j).pid) :: log) =
      (s.shared.proc j).pid :: log.allocated := rfl
  constructor
  · rw [hsh]
    exact hp.next
  · intro i
    rw [hpid]
    exact hp.slot i
  · intro i k
    rw [hpid, hpid]
    exact hp.distinct i k
  · exact hfree
  · intro i hi
    obtain rfl | hij := eq_or_ne i j
    · rw [hself]
      exact ⟨hpos, rfl, rfl⟩
    · rw [Shared.states, hne hij] at hi
      rw [hne hij]
      exact hp.live i hi
  · intro c' w hg
    obtain hg | ⟨-, hg⟩ := hother hg
    · cases hg
    · rw [hsh]
      exact hp.reading c' w hg
  · intro c' i hg
    obtain hg | ⟨hc, hg⟩ := hother hg
    · cases hg
    · obtain ⟨hipos, hinew⟩ := hp.initial c' i hg
      have hij : i ≠ j := by
        rintro rfl
        exact hc (h.eq_of_locked hg hs (Multiset.mem_singleton_self _)
          (Multiset.mem_singleton_self _))
      rw [hpid, hallocated, List.mem_cons, not_or]
      exact ⟨hipos, fun heq => hij (hp.distinct i j heq hipos.ne'), hinew⟩
  · intro c' g w hg hw
    obtain rfl | ⟨-, hg⟩ := hother hg
    · cases hw
    · obtain ⟨hwpos, hwle, hwslot, hwnew⟩ := hp.fresh c' g w hg hw
      refine ⟨hwpos, hwle, fun i => ?_, ?_⟩
      · rw [hpid]
        exact hwslot i
      · rw [hallocated, List.mem_cons, not_or]
        exact ⟨(hwslot j).symm, hwnew⟩
  · intro c₁ c₂ g₁ g₂ w hg₁ hg₂ hw₁ hw₂
    obtain rfl | ⟨-, hg₁⟩ := hother hg₁
    · cases hw₁
    · obtain rfl | ⟨-, hg₂⟩ := hother hg₂
      · cases hw₂
      · exact hp.once c₁ c₂ g₁ g₂ w hg₁ hg₂ hw₁ hw₂
  · rw [hallocated]
    exact List.nodup_cons.mpr ⟨hnew, hp.nodup⟩
  · intro w hw
    rw [hallocated] at hw
    obtain rfl | hw := List.mem_cons.mp hw
    · exact ⟨hpos, (hp.slot j).2⟩
    · exact hp.allocated w hw
  · intro i hi
    rw [hpid]
    obtain rfl | hij := eq_or_ne i j
    · simp [Log.latest, Event.allocatedIn]
    · rw [Shared.states, hne hij] at hi
      have hlatest := hp.latest i hi
      simpa [Log.latest, Event.allocatedIn, hij.symm] using hlatest

theorem free_step {j : Fin n} {e : Event n} (hp : Pids s log) (h : Sound s)
    (ht : Transition nofile s c s') (hs : s.Top c f) (hf : f.Frees s.shared j g e)
    (hsh : s'.shared = s.shared.freeproc j) (htop : s'.Top c g) (hfree : s'.FreePids) :
    Pids s' (log.add t (some e)) := by
  obtain ⟨hlock, hassigns, hnum, hanonymous⟩ := hf.plain
  have hself : s'.shared.proc j = (s.shared.proc j).freed := by
    rw [hsh, Shared.freeproc_proc, Function.update_self]
  have hne {i : Fin n} (hi : i ≠ j) : s'.shared.proc i = s.shared.proc i := by
    rw [hsh, Shared.freeproc_proc, Function.update_of_ne hi]
  have hother {c' : C} {g' : Frame n} (hg : s'.Top c' g') : g' = g ∨ c' ≠ c ∧ s.Top c' g' := by
    obtain rfl | hc := eq_or_ne c' c
    · exact .inl (hg.eq htop)
    · exact .inr ⟨hc, (h.top_other ht hc).mp hg⟩
  -- The frame after `freeproc` handles no pid.
  have old {c' : C} {g' : Frame n} (hg : s'.Top c' g') (hg' : g'.numbering = true) :
      c' ≠ c ∧ s.Top c' g' := by
    obtain rfl | hg := hother hg
    · rw [hnum] at hg'
      cases hg'
    · exact hg
  have hunused {i : Fin n} (hi : s'.shared.states i ≠ .unused) : i ≠ j := by
    rintro rfl
    refine hi ?_
    rw [Shared.states, hself]
    rfl
  obtain ⟨hgiven, hallocated, hlatest⟩ :=
    Log.add_anonymous log t (e := some e) fun e' he' => by
      cases he'
      exact hanonymous
  constructor
  · rw [hsh, hgiven]
    exact hp.next
  · intro i
    rw [hgiven]
    obtain rfl | hi := eq_or_ne i j
    · rw [hself]
      exact ⟨le_rfl, Int.natCast_nonneg _⟩
    · rw [hne hi]
      exact hp.slot i
  · intro i k hik hnz
    obtain rfl | hi := eq_or_ne i j
    · rw [hself] at hnz
      exact absurd rfl hnz
    · obtain rfl | hk := eq_or_ne k j
      · rw [hself] at hik
        exact absurd hik hnz
      · rw [hne hi, hne hk] at hik
        rw [hne hi] at hnz
        exact hp.distinct i k hik hnz
  · exact hfree
  · intro i hi
    have hij := hunused hi
    rw [Shared.states, hne hij] at hi
    rw [hne hij]
    exact hp.live i hi
  · intro c' w hg
    rw [hsh]
    exact hp.reading c' w (old hg rfl).2
  · intro c' i hg
    obtain ⟨hc, hg⟩ := old hg rfl
    have hij : i ≠ j := by
      rintro rfl
      exact hc (h.eq_of_locked hg hs (Multiset.mem_singleton_self _) hlock)
    rw [hne hij, hallocated]
    exact hp.initial c' i hg
  · intro c' g' w hg hw
    obtain ⟨-, hg⟩ := old hg (Frame.numbering_of_carries hw)
    obtain ⟨hwpos, hwle, hwslot, hwnew⟩ := hp.fresh c' g' w hg hw
    rw [hgiven, hallocated]
    refine ⟨hwpos, hwle, fun i => ?_, hwnew⟩
    obtain rfl | hij := eq_or_ne i j
    · rw [hself]
      exact hwpos.ne
    · rw [hne hij]
      exact hwslot i
  · intro c₁ c₂ g₁ g₂ w hg₁ hg₂ hw₁ hw₂
    exact hp.once c₁ c₂ g₁ g₂ w (old hg₁ (Frame.numbering_of_carries hw₁)).2
      (old hg₂ (Frame.numbering_of_carries hw₂)).2 hw₁ hw₂
  · rw [hallocated]
    exact hp.nodup
  · rw [hallocated, hgiven]
    exact hp.allocated
  · intro i hi
    have hij := hunused hi
    rw [Shared.states, hne hij] at hi
    rw [hlatest, hne hij]
    exact hp.latest i hi

theorem step (hp : Pids s log) (h : Sound s) (ht : Transition nofile s c s') (hs : s.Top c f)
    (hn : Numbered s c f s' e) (hfew : (log.add t e).Few) : Pids s' (log.add t e) := by
  have hfree : s'.FreePids := hn.freePids h ht hs hp.unused
  cases hn with
  | same hf hids he htop => exact hp.same_step h ht hs hf hids he hfree htop
  | advance hf hsh htop =>
    subst hf
    exact hp.advance_step h ht hs hsh htop hfew hfree
  | setPid hf hsh htop =>
    subst hf
    exact hp.setPid_step h ht hs hsh htop hfree
  | init hf hsh htop =>
    subst hf
    exact hp.init_step h ht hs hsh htop hfree
  | free hf hsh htop => exact hp.free_step h ht hs hf hsh htop hfree

theorem boot (b : C) : Pids (State.boot b : State n C) [] := by
  have base {c : C} {f : Frame n} (hf : (State.boot b).Top c f) : ∃ pc, f = .main pc := by
    obtain ⟨rest, hf⟩ := hf
    change (if c = b then [Frame.main .userinit] else [.main .waiting]) = _ at hf
    split at hf <;> cases hf <;> exact ⟨_, rfl⟩
  have numbering {c : C} {f : Frame n} {P : Prop} (hf : (State.boot b).Top c f)
      (hnum : f.numbering = true) : P := by
    obtain ⟨pc, rfl⟩ := base hf
    cases hnum
  exact {
    next := rfl
    slot := fun _ => ⟨le_rfl, le_rfl⟩
    distinct := fun _ _ _ hnz => absurd rfl hnz
    unused := fun _ _ => .inl rfl
    live := fun _ hj => absurd rfl hj
    reading := fun _ _ hg => numbering hg rfl
    initial := fun _ _ hg => numbering hg rfl
    fresh := fun _ _ _ hg hv => numbering hg (Frame.numbering_of_carries hv)
    once := fun _ _ _ _ _ hg _ hv _ => numbering hg (Frame.numbering_of_carries hv)
    nodup := .nil
    allocated := nofun
    latest := fun _ hj => absurd rfl hj }

theorem of_reachable {b : C} {y : State n C × Log n C} (hy : (history n nofile b).Reachable y)
    (hfew : y.2.Few) : Pids y.1 y.2 := by
  refine hy.invariant (fun y => y.2.Few → Pids y.1 y.2) (fun _ => boot b) ?_ hfew
  intro y l z hr ih hstep hfew
  obtain ⟨hstep, hlog⟩ := System.step_recorded hstep
  have h := Sound.of_reachable hr.fst
  obtain ⟨f, rest, e, hs, hturn, he⟩ := h.turn hstep
  have ht := State.step_transition hstep
  rw [he, Log.add_eq] at hlog
  have hold : y.2.Few := by
    rw [hlog, ← Log.add_eq] at hfew
    exact Log.few_of_append hfew
  rw [hlog] at hfew ⊢
  exact (ih hold).step h ht ⟨rest, hs⟩ (hturn.numbered h (h.step hstep) hs) hfew

end Pids

end MultithreadMayhem.Kernel
