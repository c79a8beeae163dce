import MultithreadMayhem.Kernel.ForkMemory

/-!
# A fork that fails

`kfork` fails if there is no free slot or if one of the allocations fails that it
needs. At each of these places the process that is being made owns different pages,
and `freeproc` takes back exactly these.
-/

namespace MultithreadMayhem.Kernel.ForkCall

open Foundation

variable {n : ℕ} {M X : Type} {lay : Layout} {vm : Vm M} {files : Files X} {nofile : ℕ}
  {pages : M → PageMap} {s s' : Os n M X} {p np : Fin n} {l : Lock n} {m m' : M}

def Built (lay : Layout) (vm : Vm M) (m : M) (pa pt : ℕ) (m' : M) : Prop :=
  ∃ m₁ m₂ m₃, vm.kalloc m = (m₁, some pa) ∧ vm.uvmcreate m₁ = (m₂, some pt) ∧
    (∃ r, vm.mappages pt lay.trampolineVa lay.pgsize lay.trampoline [.r, .x] m₂ = (m₃, r) ∧
      ¬r < 0) ∧
    ∃ r, vm.mappages pt lay.trapframeVa lay.pgsize pa [.r, .w] m₃ = (m', r) ∧ ¬r < 0

/-- One of the allocations of `kfork` fails; `old` and `sz` are the page table and the size of the
parent. -/
inductive AllocFails (lay : Layout) (vm : Vm M) (old : ℕ) (sz : BitVec 64) (m : M) : Prop
  | trapframe (h : (vm.kalloc m).2 = none)
  | create {m₁ : M} {pa : ℕ} (hpa : vm.kalloc m = (m₁, some pa)) (h : (vm.uvmcreate m₁).2 = none)
  | mapTrampoline {m₁ m₂ : M} {pa pt : ℕ} (hpa : vm.kalloc m = (m₁, some pa))
      (hpt : vm.uvmcreate m₁ = (m₂, some pt))
      (h : (vm.mappages pt lay.trampolineVa lay.pgsize lay.trampoline [.r, .x] m₂).2 < 0)
  | mapTrapframe {m₁ m₂ m₃ : M} {pa pt : ℕ} {r : Int} (hpa : vm.kalloc m = (m₁, some pa))
      (hpt : vm.uvmcreate m₁ = (m₂, some pt))
      (hr : vm.mappages pt lay.trampolineVa lay.pgsize lay.trampoline [.r, .x] m₂ = (m₃, r))
      (hmapped : ¬r < 0)
      (h : (vm.mappages pt lay.trapframeVa lay.pgsize pa [.r, .w] m₃).2 < 0)
  | copy {m' : M} {pa pt : ℕ} (hbuilt : Built lay vm m pa pt m')
      (h : (vm.uvmcopy old pt sz m').2 < 0)

def Fails (lay : Layout) (vm : Vm M) (p : Fin n) (s : Os n M X) : Prop :=
  (∀ j, (s.proc j).state ≠ .unused) ∨
    AllocFails lay vm ((s.proc p).pagetable.getD 0) (s.proc p).sz s.mem

theorem Built.copy_fails {old pa pt : ℕ} {sz : BitVec 64} (h : Built lay vm m pa pt m')
    (hfails : AllocFails lay vm old sz m) : (vm.uvmcopy old pt sz m').2 < 0 := by
  obtain ⟨m₁, m₂, m₃, hpa, hpt, ⟨r, hr, hmapped⟩, r', hr', hmapped'⟩ := h
  cases hfails with
  | trapframe hnull =>
    rw [hpa] at hnull
    cases hnull
  | create hpa' hnull =>
    cases hpa.symm.trans hpa'
    rw [hpt] at hnull
    cases hnull
  | mapTrampoline hpa' hpt' hneg =>
    cases hpa.symm.trans hpa'
    cases hpt.symm.trans hpt'
    rw [hr] at hneg
    exact absurd hneg hmapped
  | mapTrapframe hpa' hpt' hr'' _ hneg =>
    cases hpa.symm.trans hpa'
    cases hpt.symm.trans hpt'
    cases hr.symm.trans hr''
    rw [hr'] at hneg
    exact absurd hneg hmapped'
  | copy hbuilt hneg =>
    obtain ⟨_, _, _, hpa', hpt', ⟨_, hr₁, _⟩, _, hr₂, _⟩ := hbuilt
    cases hpa.symm.trans hpa'
    cases hpt.symm.trans hpt'
    cases hr.symm.trans hr₁
    cases hr'.symm.trans hr₂
    exact hneg

/-- A slot as the zero-initialised table has it and as `freeproc` leaves it. -/
structure Slot.Free (q : Slot n) : Prop where
  state : q.state = .unused
  pid : q.pid = 0
  trapframe : q.trapframe = none
  pagetable : q.pagetable = none
  sz : q.sz = 0
  parent : q.parent = none
  name : q.name = ""
  chan : q.chan = none
  xstate : q.xstate = 0

structure Os.Ready (s : Os n M X) (p : Fin n) : Prop where
  held : s.held = ∅
  running : (s.proc p).state = .running
  free : ∀ j, (s.proc j).state = .unused → (s.proc j).Free

/-- The fields that a failed call may change. -/
def Slot.Alike (q q' : Slot n) : Prop :=
  q' = { q with
    priority := q'.priority, tgid := q'.tgid, isThread := q'.isThread, syscalls := q'.syscalls,
    killed := q'.killed, context := q'.context }

/-- What has happened in a call of `kfork` by `p` that failed. -/
structure NoTrace (pages : M → PageMap) (p : Fin n) (s s' : Os n M X) : Prop where
  held : s'.held = ∅
  allocated : (pages s'.mem).allocated = (pages s.mem).allocated
  tables : ∀ pt ∈ (pages s.mem).allocated, (pages s'.mem).tables pt = (pages s.mem).tables pt ∧
    (pages s'.mem).leaves pt = (pages s.mem).leaves pt
  files : s'.files = s.files
  frames : s'.frames = s.frames
  /-- There was no free slot, or one has been tried. -/
  slots : s' = s ∨ ∃ np ≠ p, (∀ j ≠ np, s'.proc j = s.proc j) ∧ (s'.proc np).state = .unused ∧
    (s'.proc np).pid = 0 ∧ (s'.proc np).trapframe = none ∧ (s'.proc np).pagetable = none ∧
    (s.proc np).Alike (s'.proc np)

section Locks

theorem acquire_ok (h : l ∉ s.held) : acquire l s = .ok { s with held := insert l s.held } :=
  if_neg h

theorem release_ok (h : l ∈ s.held) : release l s = .ok { s with held := s.held.erase l } :=
  if_pos h

theorem allocpid_ok (h : .pidLock ∉ s.held) :
    allocpid s = .ok ({ s with nextpid := wrapInt (s.nextpid + 1) }, s.nextpid) := by
  have hrelease : release .pidLock { s with
      nextpid := wrapInt (s.nextpid + 1), held := insert .pidLock s.held } =
        .ok { s with nextpid := wrapInt (s.nextpid + 1) } := by
    rw [release_ok (Finset.mem_insert_self _ _), Finset.erase_insert h]
  simp only [allocpid, acquire_ok h, bind, Except.bind, hrelease]
  rfl

/-- The loop finds no free slot, or the first one is tried while its lock is held. -/
theorem scan_cases (lay : Layout) (vm : Vm M) (hs : s.held = ∅) (ps : List (Fin n)) :
    ((∀ j ∈ ps, (s.proc j).state ≠ .unused) ∧ scan lay vm ps s = .ok (s, none)) ∨
    ∃ np, (s.proc np).state = .unused ∧
      scan lay vm ps s = found lay vm np { s with held := {.proc np} } := by
  induction ps with
  | nil => exact .inl ⟨List.forall_mem_nil _, rfl⟩
  | cons p ps ih =>
    have hacquire : acquire (.proc p) s = .ok { s with held := {.proc p} } := by
      rw [acquire_ok (by rw [hs]; exact Finset.notMem_empty _), hs]
      rfl
    by_cases hst : (s.proc p).state = .unused
    · refine .inr ⟨p, hst, ?_⟩
      simp only [scan, hacquire, bind, Except.bind, if_pos hst]
    · have hrelease : release (.proc p) { s with held := {.proc p} } = .ok s := by
        rw [release_ok (Finset.mem_singleton_self _), Finset.erase_singleton, ← hs]
      have hscan : scan lay vm (p :: ps) s = scan lay vm ps s := by
        simp only [scan, hacquire, bind, Except.bind, if_neg hst, hrelease]
      rw [hscan]
      obtain ⟨hnone, heq⟩ | hfound := ih
      · exact .inl ⟨List.forall_mem_cons.mpr ⟨hst, hnone⟩, heq⟩
      · exact .inr hfound

end Locks

/-- The slot `np` has been claimed since `s`; only its lock is held. -/
structure Making (lay : Layout) (pages : M → PageMap) (np : Fin n) (s s' : Os n M X) : Prop where
  held : s'.held = {.proc np}
  others : ∀ j ≠ np, s'.proc j = s.proc j
  kstack : (s'.proc np).kstack = (s.proc np).kstack
  ofile : (s'.proc np).ofile = (s.proc np).ofile
  cwd : (s'.proc np).cwd = (s.proc np).cwd
  owns : Owns lay (pages s.mem) (pages s'.mem) (s'.proc np)
  files : s'.files = s.files
  frames : s'.frames = s.frames

@[simp] theorem Os.set_proc_self (s : Os n M X) (p : Fin n) (q : Slot n) : (s.set p q).proc p = q :=
  Function.update_self _ _ _

theorem Os.set_proc_of_ne {j : Fin n} (hj : j ≠ p) (s : Os n M X) (q : Slot n) :
    (s.set p q).proc j = s.proc j :=
  Function.update_of_ne hj _ _

/-- `freeproc` and `release` undo what has been done for the slot. -/
theorem Making.undo (hvm : vm.Lawful lay pages) (h : Making lay pages np s s')
    (hfree : (s.proc np).Free) (hne : np ≠ p) :
    ∃ s'', release (.proc np) (freeproc lay vm np s') = .ok s'' ∧ NoTrace pages p s s'' := by
  have hheld : Lock.proc np ∈ (freeproc lay vm np s').held := by
    change Lock.proc np ∈ s'.held
    rw [h.held]
    exact Finset.mem_singleton_self _
  have hb := freePages_borrowed hvm h.owns
  refine ⟨_, release_ok hheld, ?_⟩
  constructor
  · change s'.held.erase (.proc np) = ∅
    rw [h.held, Finset.erase_singleton]
  · exact hb.allocated.trans (Finset.union_empty _)
  · exact fun pt hpt => ⟨hb.tables pt hpt, hb.leaves pt hpt⟩
  · exact h.files
  · exact h.frames
  · have hnp : (freeproc lay vm np s').proc np = (s'.proc np).freed := Os.set_proc_self _ _ _
    refine .inr ⟨np, hne, fun j hj => (Os.set_proc_of_ne hj _ _).trans (h.others j hj), ?_⟩
    change ((freeproc lay vm np s').proc np).state = _ ∧ ((freeproc lay vm np s').proc np).pid = _ ∧
      ((freeproc lay vm np s').proc np).trapframe = _ ∧
      ((freeproc lay vm np s').proc np).pagetable = _ ∧
      (s.proc np).Alike ((freeproc lay vm np s').proc np)
    rw [hnp]
    refine ⟨rfl, rfl, rfl, rfl, ?_⟩
    unfold Slot.Alike Slot.freed
    rw [h.kstack, h.ofile, h.cwd, hfree.state, hfree.pid, hfree.trapframe, hfree.pagetable,
      hfree.sz, hfree.parent, hfree.name, hfree.chan, hfree.xstate]

theorem Os.set_mem_set (s : Os n M X) (p : Fin n) (q q' : Slot n) (m : M) :
    ({ s.set p q with mem := m } : Os n M X).set p q' = ({ s with mem := m } : Os n M X).set p q' :=
  congrArg (fun f => ({ s with mem := m, proc := f } : Os n M X)) (Function.update_idem _ _ _)

theorem Os.set_set (s : Os n M X) (p : Fin n) (q q' : Slot n) : (s.set p q).set p q' = s.set p q' :=
  congrArg (fun f => ({ s with proc := f } : Os n M X)) (Function.update_idem _ _ _)

def Slot.claimed (q : Slot n) (pid : Int) : Slot n :=
  { q with pid := pid, isThread := 0, tgid := pid, priority := 31, state := .used, syscalls := 0 }

def Os.making (s : Os n M X) (np : Fin n) (m : M) (q : Slot n) : Os n M X :=
  ({ s with nextpid := wrapInt (s.nextpid + 1), held := {.proc np}, mem := m } : Os n M X).set np q

theorem found_eq (s : Os n M X) (np : Fin n) : found lay vm np { s with held := {.proc np} } =
    match vm.kalloc s.mem with
    | (m₁, none) =>
      (release (.proc np) (freeproc lay vm np
        (s.making np m₁ { (s.proc np).claimed s.nextpid with trapframe := none }))).bind
        fun s => .ok (s, none)
    | (m₁, some pa) =>
      match procPagetable lay vm { (s.proc np).claimed s.nextpid with trapframe := some pa } m₁ with
      | (m₂, none) =>
        (release (.proc np) (freeproc lay vm np (s.making np m₂
          { (s.proc np).claimed s.nextpid with trapframe := some pa, pagetable := none }))).bind
          fun s => .ok (s, none)
      | (m₂, some pt) =>
        .ok (s.making np m₂ { (s.proc np).claimed s.nextpid with
          trapframe := some pa
          pagetable := some pt
          context :=
            { ra := lay.forkret, sp := (s.proc np).kstack + BitVec.ofNat 64 lay.pgsize,
              saved := fun _ => 0 } }, some np) := by
  have hlock : Lock.pidLock ∉ ({ s with held := {.proc np} } : Os n M X).held := by
    intro h
    cases Finset.mem_singleton.mp h
  have hmem (s : Os n M X) (p : Fin n) (q : Slot n) : (s.set p q).mem = s.mem := rfl
  simp only [found, allocpid_ok hlock, bind, Except.bind, hmem, Os.set_mem_set, Os.set_proc_self,
    Os.set_set, Os.making, Slot.claimed]
  obtain ⟨⟨m₁, trapframe⟩, hpa⟩ : ∃ x, vm.kalloc s.mem = x := ⟨_, rfl⟩
  cases trapframe with
  | none =>
    simp only [hpa, if_true]
    rfl
  | some pa =>
    obtain ⟨⟨m₂, table⟩, hpt⟩ : ∃ x, procPagetable lay vm
      { (s.proc np).claimed s.nextpid with trapframe := some pa } m₁ = x := ⟨_, rfl⟩
    rw [Slot.claimed] at hpt
    cases table with
    | none =>
      simp only [hpa, hpt, reduceCtorEq, if_true, if_false]
      rfl
    | some pt =>
      simp only [hpa, hpt, reduceCtorEq, if_false]
      rfl

theorem Os.making_making {q : Slot n} (howns : Owns lay (pages s.mem) (pages m) q)
    (hkstack : q.kstack = (s.proc np).kstack) (hofile : q.ofile = (s.proc np).ofile)
    (hcwd : q.cwd = (s.proc np).cwd) : Making lay pages np s (s.making np m q) := by
  have hnp : (s.making np m q).proc np = q := Os.set_proc_self _ _ _
  constructor
  · rfl
  · exact fun j hj => Os.set_proc_of_ne hj _ _
  · rw [hnp, hkstack]
  · rw [hnp, hofile]
  · rw [hnp, hcwd]
  · rw [hnp]
    exact howns
  · rfl
  · rfl

/-- From the label `found` on, `allocproc` undoes everything or makes a process. -/
theorem found_cases (hvm : vm.Lawful lay pages) (hfree : (s.proc np).Free) (hne : np ≠ p) :
    (∃ s', found lay vm np { s with held := {.proc np} } = .ok (s', none) ∧ NoTrace pages p s s') ∨
    ∃ s' pa pt, found lay vm np { s with held := {.proc np} } = .ok (s', some np) ∧
      Making lay pages np s s' ∧ Built lay vm s.mem pa pt s'.mem ∧
      (s'.proc np).pagetable = some pt := by
  have undone {s₁ : Os n M X} (h : Making lay pages np s s₁) : ∃ s',
      (release (.proc np) (freeproc lay vm np s₁)).bind (fun s => .ok (s, (none : Option (Fin n)))) =
        .ok (s', none) ∧ NoTrace pages p s s' := by
    obtain ⟨s', hundo, htrace⟩ := h.undo hvm hfree hne
    rw [hundo]
    exact ⟨s', rfl, htrace⟩
  rw [found_eq]
  obtain ⟨⟨m₁, trapframe⟩, hpa⟩ : ∃ x, vm.kalloc s.mem = x := ⟨_, rfl⟩
  rw [hpa]
  cases trapframe with
  | none =>
    have hsame := hvm.kalloc_null s.mem (by rw [hpa])
    rw [hpa] at hsame
    refine .inl (undone (Os.making_making ?_ rfl rfl rfl))
    have htable : ((s.proc np).claimed s.nextpid).pagetable = none := hfree.pagetable
    constructor
    · rw [Slot.owned, htable]
      exact (show pages m₁ = pages s.mem from hsame) ▸ .refl _
    · rintro pa ⟨⟩
    · rw [htable]
      rintro pt ⟨⟩
    · exact hfree.sz
  | some pa =>
    obtain ⟨hnew, htake⟩ := hvm.kalloc_page s.mem pa (by rw [hpa])
    rw [hpa] at htake
    have hb₁ : (pages s.mem).Borrowed (pages m₁) {pa} := by
      rw [show pages m₁ = _ from htake]
      exact (PageMap.Borrowed.refl _).take hnew
    have hno₁ (pt : ℕ) : pa ∉ (pages m₁).tables pt := by
      rw [show pages m₁ = _ from htake]
      exact fun hmem => hnew ((pages s.mem).tables_subset pt hmem)
    have hmem₁ : pa ∈ (pages m₁).allocated := by
      rw [hb₁.allocated]
      exact Finset.mem_union_right _ (Finset.mem_singleton_self _)
    obtain ⟨⟨m₂, table⟩, hpt⟩ : ∃ x, procPagetable lay vm
      { (s.proc np).claimed s.nextpid with trapframe := some pa } m₁ = x := ⟨_, rfl⟩
    have hcases := procPagetable_borrowed hvm
      { (s.proc np).claimed s.nextpid with trapframe := some pa } m₁
    rw [hpt] at hcases
    dsimp only
    rw [hpt]
    obtain ⟨htable, hb₂⟩ | ⟨pt, m', m'', hcreate, hmap, hmap', htable, hfresh, hroot, hleaves, hb₂⟩ :=
      hcases
    · obtain rfl : table = none := htable
      refine .inl (undone (Os.making_making ?_ rfl rfl rfl))
      constructor
      · exact hb₁.trans hb₂
      · rintro _ ⟨⟩ pt
        exact hb₂.not_mem_tables hmem₁ hno₁ pt
      · rintro pt ⟨⟩
      · exact hfree.sz
    · obtain rfl : table = some pt := htable
      refine .inr ⟨_, pa, pt, rfl, Os.making_making ?_ rfl rfl rfl,
        ⟨m₁, m', m'', hpa, hcreate, hmap, hmap'⟩, congrArg Slot.pagetable (Os.set_proc_self _ _ _)⟩
      constructor
      · exact hb₁.trans hb₂
      · rintro _ ⟨⟩ pt
        exact hb₂.not_mem_tables hmem₁ hno₁ pt
      · rintro _ ⟨⟩
        exact ⟨hb₁.not_mem hfresh, hroot, hleaves⟩
      · exact hfree.sz

/-- A failing fork leaves no trace: if there is no free slot or an allocation fails, `kfork` returns
-1, and apart from `nextpid` and some fields of the free slot that it has tried everything is as it
was. -/
theorem failed_fork_leaves_no_trace (hvm : vm.Lawful lay pages) (hs : s.Ready p)
    (hfails : Fails lay vm p s) :
    ∃ s', kfork lay vm files nofile p s = .ok (s', -1) ∧ NoTrace pages p s s' := by
  have hscan := scan_cases lay vm hs.held (List.finRange n)
  obtain ⟨-, hnone⟩ | ⟨np, hunused, hfound⟩ := hscan
  · refine ⟨s, ?_, ⟨hs.held, rfl, fun _ _ => ⟨rfl, rfl⟩, rfl, rfl, .inl rfl⟩⟩
    simp only [kfork, allocproc, hnone, bind, Except.bind]
    rfl
  · have hne : np ≠ p := by
      rintro rfl
      rw [hs.running] at hunused
      cases hunused
    have hfree := hs.free np hunused
    obtain ⟨s', hrun, htrace⟩ | ⟨s₁, pa, pt, hrun, hmaking, hbuilt, htable⟩ :=
      found_cases hvm hfree hne
    · refine ⟨s', ?_, htrace⟩
      simp only [kfork, allocproc, hfound, hrun, bind, Except.bind]
      rfl
    · obtain hnoslot | halloc := hfails
      · exact absurd hunused (hnoslot np)
      have hparent : s₁.proc p = s.proc p := hmaking.others p hne.symm
      have hcopy := hbuilt.copy_fails halloc
      obtain ⟨-, hroot, -⟩ := hmaking.owns.pagetable pt htable
      obtain ⟨⟨m', r⟩, hr⟩ : ∃ x, vm.uvmcopy ((s.proc p).pagetable.getD 0) pt (s.proc p).sz s₁.mem = x :=
        ⟨_, rfl⟩
      obtain ⟨g, hg, hgrown⟩ := hvm.uvmcopy s₁.mem _ pt _ hroot hcopy
      rw [hr] at hcopy hgrown
      have hmaking' : Making lay pages np s { s₁ with mem := m' } :=
        { hmaking with
          owns := (show pages m' = _ from hgrown) ▸ hmaking.owns.grow htable hroot hg }
      obtain ⟨s', hundo, htrace⟩ := hmaking'.undo hvm hfree hne
      refine ⟨s', ?_, htrace⟩
      simp only [kfork, allocproc, hfound, hrun, bind, Except.bind, hparent, htable,
        Option.getD_some, hr, if_pos (show r < 0 from hcopy), hundo]
      rfl

theorem NoTrace.ready (hs : s.Ready p) (h : NoTrace pages p s s') : s'.Ready p := by
  obtain rfl | ⟨np, hne, hothers, hunused, -, -, -, halike⟩ := h.slots
  · exact hs
  · have hold : (s.proc np).state = .unused := by
      rw [halike] at hunused
      exact hunused
    refine ⟨h.held, ?_, fun j hj => ?_⟩
    · rw [hothers p hne.symm]
      exact hs.running
    · by_cases heq : j = np
      · subst j
        obtain ⟨hst, hpid, htf, hpt, hsz, hparent, hname, hchan, hxstate⟩ := hs.free np hold
        rw [halike]
        exact ⟨hst, hpid, htf, hpt, hsz, hparent, hname, hchan, hxstate⟩
      · rw [hothers j heq] at hj ⊢
        exact hs.free j hj

def twoSlots : Os 2 Bounded Unit where
  proc j := if j.val = 0 then
    { toProc := { Proc.blank with state := .running, pid := 1, tgid := 1, priority := 31 }
      parent := none, kstack := 0, sz := 8192, pagetable := some 2, trapframe := some 1
      context := { ra := 0, sp := 0, saved := fun _ => 0 }
      ofile := fun _ => none, cwd := some 1, name := "init", syscalls := 1 }
    else
    { toProc := Proc.blank
      parent := none, kstack := 0, sz := 0, pagetable := none, trapframe := none
      context := { ra := 0, sp := 0, saved := fun _ => 0 }
      ofile := fun _ => none, cwd := none, name := "", syscalls := 0 }
  nextpid := 2
  held := ∅
  mem :=
    { limit := 15
      map :=
        { allocated := Finset.Ico 1 9
          tables := fun pt => if pt = 2 then Finset.Ico 2 7 else ∅
          leaves := fun pt => if pt = 2 then {(0, 7), (4096, 8)} else ∅
          tables_subset := fun pt => by
            split
            · decide
            · exact Finset.empty_subset _
          root_mem := fun pt hne => by
            split at hne
            · rename_i heq
              rw [if_pos heq, heq]
              decide
            · exact absurd hne Finset.not_nonempty_empty
          tables_disjoint := fun pt pt' hne => by
            split
            · rename_i heq
              rw [if_neg fun heq' => hne (heq.trans heq'.symm)]
              exact Finset.disjoint_empty_right _
            · exact Finset.disjoint_empty_left _ } }
  frames := fun _ _ => 0
  files := ()

def sv39 : Layout where
  pgsize := 4096
  trampolineVa := 2 ^ 38 - 4096
  trapframeVa := 2 ^ 38 - 2 * 4096
  apart := by decide
  trampoline := 0x80007000
  forkret := 0x80001c00

def uncounted : Files Unit where
  filedup f x := (x, f)
  idup ip x := (x, ip)
  safestrcpy t n := String.ofList (t.toList.take (n - 1))

theorem failed_fork_leaves_no_trace_copy : ∃ s',
    kfork sv39 Bounded.boundedVm uncounted 1 0 twoSlots = .ok (s', -1) ∧
      NoTrace Bounded.map 0 twoSlots s' := by
  obtain ⟨m', hbuilt, hcopy⟩ : ∃ m', Built sv39 Bounded.boundedVm twoSlots.mem 9 10 m' ∧
      (Bounded.boundedVm.uvmcopy 2 10 8192 m').2 < 0 :=
    ⟨_, ⟨_, _, _, rfl, rfl, ⟨_, rfl, by decide⟩, _, rfl, by decide⟩, by decide⟩
  refine failed_fork_leaves_no_trace (bounded_lawful sv39) ⟨rfl, rfl, fun j hj => ?_⟩
    (.inr (.copy hbuilt hcopy))
  obtain rfl | rfl : j = 0 ∨ j = 1 := by omega
  · cases hj
  · exact ⟨rfl, rfl, rfl, rfl, rfl, rfl, rfl, rfl, rfl⟩

end MultithreadMayhem.Kernel.ForkCall
