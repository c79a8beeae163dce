import MultithreadMayhem.SafeList.Sections
import Mathlib.Data.List.Infix
import Mathlib.Data.Nat.Find

/-!
# The list is linearizable

While a thread is in a loop the nodes ahead of it become fewer with each of its own
steps, and no other thread changes them. With the lock free the chain of nodes spells
the list that the sections make of the empty one.
-/

namespace MultithreadMayhem.SafeList

open Foundation Pthread

variable {T : Type} {x y : Shared T} {l : List (Cell Int32)} {pc next : Pc} {p : Option ℕ} {c k : ℕ}

/-- The pointer at which a loop goes on, and the statements before its next test. -/
def Pc.ahead : Pc → Option (Option ℕ × ℕ)
  | .contains _ (.loop curr) _ | .remove _ (.loop curr _) _ | .destroy (.loop curr) => some (curr, 2)
  | .contains _ (.advance a) _ | .remove _ (.advance a) _ | .destroy (.advance a) => some (some a, 1)
  | .destroy (.free _ curr) => some (curr, 3)
  | _ => none

def Pc.traversing (pc : Pc) : Bool := pc.ahead.isSome

def Left (x : Shared T) (pc : Pc) (k : ℕ) : Prop :=
  ∃ p c rest, pc.ahead = some (p, c) ∧ Segment x.heap.node p none rest ∧ k = 3 * rest.length + c

theorem Pc.inside_of_ahead (h : pc.ahead = some (p, c)) : pc.inside = true := by
  cases pc with
  | insert val pc ops => cases h
  | contains val pc ops =>
    cases pc with
    | loop | advance => rfl
    | _ => cases h
  | remove val pc ops =>
    cases pc with
    | loop | advance => rfl
    | _ => cases h
  | destroy pc =>
    cases pc with
    | loop | advance | free => rfl
    | _ => cases h
  | _ => cases h

theorem Shape.ahead (h : Shape x l pc) (hp : pc.ahead = some (p, c)) :
    ∃ pre rest, l = pre ++ rest ∧ Segment x.heap.node p none rest := by
  have scanned {val : Int32} {curr prev : Option ℕ} (hs : Scanned x l val curr prev) :
      ∃ pre rest, l = pre ++ rest ∧ Segment x.heap.node curr none rest := by
    obtain ⟨pre, rest, hl, hrest, -⟩ := hs
    exact ⟨pre, rest, hl, hrest⟩
  have compared {val : Int32} {a : ℕ} (hw : Whole x l) (hc : Compared l val a) :
      ∃ pre rest, l = pre ++ rest ∧ Segment x.heap.node (some a) none rest := by
    obtain ⟨pre, w, rest, rfl, -⟩ := hc
    obtain ⟨q, -, hrest⟩ := hw.1.split
    obtain ⟨rfl, -⟩ := hrest.head
    exact ⟨pre, _, rfl, hrest⟩
  cases pc with
  | contains val pc ops =>
    cases pc with
    | loop curr =>
      cases hp
      obtain ⟨-, prev, hs⟩ := h
      exact scanned hs
    | advance a =>
      cases hp
      exact compared h.1 h.2
    | _ => cases hp
  | remove val pc ops =>
    cases pc with
    | loop curr prev =>
      cases hp
      exact scanned h.2
    | advance a =>
      cases hp
      exact compared h.1 h.2
    | _ => cases hp
  | destroy pc =>
    cases pc with
    | loop | advance | free =>
      cases hp
      exact ⟨[], l, rfl, h⟩
    | _ => cases hp
  | _ => cases hp

theorem Left.of_shape (h : Shape x l pc) (ht : pc.traversing = true) : ∃ k, Left x pc k := by
  obtain ⟨⟨p, c⟩, hp⟩ := Option.isSome_iff_exists.mp ht
  obtain ⟨pre, rest, -, hrest⟩ := h.ahead hp
  exact ⟨_, p, c, rest, hp, hrest, rfl⟩

theorem Untouched.left (hu : Untouched x y l) (h : Shape x l pc) (hk : Left x pc k) : Left y pc k := by
  obtain ⟨p, c, rest, hp, hrest, rfl⟩ := hk
  obtain ⟨pre, rest', rfl, hrest'⟩ := h.ahead hp
  obtain rfl := hrest.unique hrest'
  refine ⟨p, c, rest, hp, hrest.congr fun a ha => hu.list a ?_, rfl⟩
  rw [addresses_append]
  exact List.mem_append_right _ ha

variable [DecidableEq T] [Fintype T] {malloc : Malloc} {hands : Thread T → Option ℕ} {t : Thread T}

variable (malloc) in
/-- A step in the loop leaves fewer steps. -/
theorem code_left (ho : Owned x.heap.node hands l) (hhand : hands t = pc.inHand)
    (h : Shape x l pc) (hk : Left x pc k) :
    (code malloc t pc x).Leads (fun y st => st.pc.traversing = true → ∃ k' < k, Left y st.pc k') x ∧
      ∃ y next, code malloc t pc x = .exec y next := by
  obtain ⟨p, c, rest, hp, hrest, rfl⟩ := hk
  have deref {a : ℕ} {f : Node Int32 → Act (Shared T) PEmpty Pc} {node : Node Int32}
      (hnode : x.heap.node a = some node) :
      (x.deref a f).getD (.exec x (.fault pc)) = f node := by
    rw [Shared.deref, hnode]
    rfl
  -- The node at which the loop stands is the first one ahead.
  have first {a : ℕ} (hrest : Segment x.heap.node (some a) none rest) :
      ∃ node rest', x.heap.node a = some node ∧ rest.length = rest'.length + 1 ∧
        Segment x.heap.node node.next none rest' := by
    obtain ⟨v, next, rest', rfl, hnode, hrest'⟩ := hrest.of_some
    exact ⟨_, rest', hnode, rfl, hrest'⟩
  cases pc with
  | contains val pc ops =>
    cases pc with
    | loop curr =>
      cases curr with
      | none => exact ⟨by rintro ⟨⟩, _, _, rfl⟩
      | some a =>
        cases hp
        obtain ⟨node, rest', hnode, hlen, -⟩ := first hrest
        simp only [code, statement, listContains]
        rw [deref hnode]
        split
        · exact ⟨by rintro ⟨⟩, _, _, rfl⟩
        · exact ⟨fun _ => ⟨3 * rest.length + 1, by omega, _, _, rest, rfl, hrest, rfl⟩, _, _, rfl⟩
    | advance a =>
      cases hp
      obtain ⟨node, rest', hnode, hlen, hrest'⟩ := first hrest
      simp only [code, statement, listContains]
      rw [deref hnode]
      exact ⟨fun _ => ⟨3 * rest'.length + 2, by omega, _, _, rest', rfl, hrest', rfl⟩, _, _, rfl⟩
    | _ => cases hp
  | remove val pc ops =>
    cases pc with
    | loop curr prev =>
      cases curr with
      | none => exact ⟨by rintro ⟨⟩, _, _, rfl⟩
      | some a =>
        cases hp
        obtain ⟨node, rest', hnode, hlen, -⟩ := first hrest
        simp only [code, statement, listRemove]
        rw [deref hnode]
        split
        · exact ⟨by rintro ⟨⟩, _, _, rfl⟩
        · exact ⟨fun _ => ⟨3 * rest.length + 1, by omega, _, _, rest, rfl, hrest, rfl⟩, _, _, rfl⟩
    | advance a =>
      cases hp
      obtain ⟨node, rest', hnode, hlen, hrest'⟩ := first hrest
      simp only [code, statement, listRemove]
      rw [deref hnode]
      exact ⟨fun _ => ⟨3 * rest'.length + 2, by omega, _, _, rest', rfl, hrest', rfl⟩, _, _, rfl⟩
    | _ => cases hp
  | destroy pc =>
    cases pc with
    | loop curr =>
      cases curr with
      | none => exact ⟨by rintro ⟨⟩, _, _, rfl⟩
      | some a =>
        cases hp
        exact ⟨fun _ => ⟨3 * rest.length + 1, by omega, _, _, rest, rfl, hrest, rfl⟩, _, _, rfl⟩
    | advance a =>
      cases hp
      obtain ⟨node, rest', hnode, hlen, hrest'⟩ := first hrest
      simp only [code, statement, listDestroy]
      rw [deref hnode]
      exact ⟨fun _ => ⟨3 * rest'.length + 3, by omega, _, _, rest', rfl, hrest', rfl⟩, _, _, rfl⟩
    | free a curr =>
      cases hp
      obtain rfl : rest = l := hrest.unique h
      obtain ⟨node, hnode⟩ := Option.ne_none_iff_exists'.mp (ho.hand_allocated hhand)
      simp only [code, statement, listDestroy]
      rw [deref hnode]
      exact ⟨fun _ => ⟨3 * rest.length + 2, by omega, _, _, rest, rfl,
        hrest.congr (free_list ho hhand), rfl⟩, _, _, rfl⟩
    | _ => cases hp
  | _ => cases hp

section Runs

variable {ops : Thread T → List Op} {s s' u : State (Thread T) (Shared T) PEmpty Pc}

def Traverses (t : Thread T) (s : State (Thread T) (Shared T) PEmpty Pc) : Prop :=
  (s.status t).pc.traversing = true

theorem left_step (hfresh : Fresh malloc) (hr : (listSystem malloc ops).Reachable s)
    (ht : Traverses t s) (hk : Left s.shared (s.status t).pc k) {lab : Label (Thread T)}
    (hstep : (listSystem malloc ops).step s lab = some s') (ht' : Traverses t s') :
    if lab = .run t then ∃ k' < k, Left s'.shared (s'.status t).pc k'
    else Left s'.shared (s'.status t).pc k := by
  obtain ⟨l, hinv⟩ := reachable_inv hfresh hr
  have hg : Guarded (code malloc) Pc.inside s :=
    reachable_guarded (code_disciplined malloc) (programStart_outside ops) hr
  obtain ⟨⟨p, c⟩, hp⟩ := Option.isSome_iff_exists.mp ht
  have hinside := Pc.inside_of_ahead hp
  have hshape := hinv.shape t hinside
  obtain ⟨hleads, y, next, hcode⟩ := code_left malloc hinv.owned rfl hshape hk
  -- Another thread is outside the mutex.
  have other {w : Thread T} {q : Pc} (hs : s.status w = .running q) (hne : w ≠ t) :
      (code malloc w q s.shared).Leads (fun y _ => Untouched s.shared y l) s.shared := by
    have hq : (s.status w).pc = q := by rw [hs, Status.running_pc]
    subst hq
    have houtside : (s.status w).pc.inside = false :=
      hg.oneInside hne.symm (hg.running t) hinside
    exact (outside_step hfresh houtside hinv.owned rfl (hinv.own w)).leads.imp
      fun _ _ h => h.toUntouched
  have status_other {w : Thread T} {q : Pc} (hne : w ≠ t) : (s.goto w q).status t = s.status t :=
    Function.update_of_ne hne.symm ..
  cases step_iff.mp hstep with
  | @lock w pc q hs hc hm =>
    obtain rfl | hne := eq_or_ne w t
    · have hpc : (s.status w).pc = pc := by rw [hs, Status.running_pc]
      rw [hpc, hc] at hcode
      cases hcode
    · rw [if_neg fun heq => hne (Label.run.inj heq)]
      change Left s.shared ((s.goto w q).status t).pc k
      rwa [status_other hne]
  | @unlock w pc q hs hc hm =>
    obtain rfl | hne := eq_or_ne w t
    · have hpc : (s.status w).pc = pc := by rw [hs, Status.running_pc]
      rw [hpc, hc] at hcode
      cases hcode
    · rw [if_neg fun heq => hne (Label.run.inj heq)]
      change Left s.shared ((s.goto w q).status t).pc k
      rwa [status_other hne]
  | @exec w pc q z hs hc =>
    obtain rfl | hne := eq_or_ne w t
    · have hpc : (s.status w).pc = pc := by rw [hs, Status.running_pc]
      rw [hpc, hc] at hleads
      have hself : (s.goto w q).status w = .running q := Function.update_self ..
      rw [if_pos rfl]
      change ∃ k' < k, Left z ((s.goto w q).status w).pc k'
      change ((s.goto w q).status w).pc.traversing = true at ht'
      rw [hself] at ht' ⊢
      exact hleads ht'
    · have hu := other hs hne
      rw [hc] at hu
      rw [if_neg fun heq => hne (Label.run.inj heq)]
      change Left z ((s.goto w q).status t).pc k
      rw [status_other hne]
      exact hu.left hshape hk
  | @wait w pc q cv hs hc hm => exact cv.elim
  | @signalNone w pc q cv hs hc hn => exact cv.elim
  | @signalWake w v pc q pc' cv hs hc hw => exact cv.elim
  | @broadcast w pc q cv hs hc => exact cv.elim
  | @relock w pc hs hm => exact absurd ((hg.running w).symm.trans hs) nofun
  | @spurious w cv pc hs => exact cv.elim

theorem left_run (hfresh : Fresh malloc) (hr : (listSystem malloc ops).Reachable s)
    (hk : Left s.shared (s.status t).pc k) (labels : List (Label (Thread T)))
    (hrun : (listSystem malloc ops).run s labels = some s')
    (hstay : ∀ pre u, pre <+: labels → (listSystem malloc ops).run s pre = some u → Traverses t u) :
    labels.count (.run t) ≤ k := by
  induction labels generalizing s k with
  | nil => exact Nat.zero_le k
  | cons lab labels ih =>
    obtain ⟨u, hstep, hrun⟩ := Option.bind_eq_some_iff.mp hrun
    have hbind (pre : List (Label (Thread T))) :
        (listSystem malloc ops).run s (lab :: pre) = (listSystem malloc ops).run u pre := by
      rw [System.run, hstep, Option.bind_some]
    have hs : Traverses t s := hstay [] s List.nil_prefix rfl
    have hu : Traverses t u := hstay [lab] u (List.prefix_append [lab] labels) (by rw [hbind]; rfl)
    have hstay' (pre : List (Label (Thread T))) (v : State (Thread T) (Shared T) PEmpty Pc)
        (hpre : pre <+: labels) (hv : (listSystem malloc ops).run u pre = some v) : Traverses t v :=
      hstay (lab :: pre) v (List.cons_prefix_cons.mpr ⟨rfl, hpre⟩) ((hbind pre).trans hv)
    have hleft := left_step hfresh hr hs hk hstep hu
    split at hleft
    · rename_i heq
      obtain ⟨k', hlt, hk'⟩ := hleft
      have hcount := ih (hr.step hstep) hk' hrun hstay'
      rw [heq, List.count_cons_self]
      omega
    · rename_i hne
      rw [List.count_cons_of_ne hne]
      exact ih (hr.step hstep) hleft hrun hstay'

/-- A thread in a loop can take its step, and it takes finitely many before it leaves the loop,
whatever the others do. -/
theorem traversal_ends (hfresh : Fresh malloc) (hr : (listSystem malloc ops).Reachable s)
    (ht : Traverses t s) :
    (∃ s', (listSystem malloc ops).step s (.run t) = some s') ∧
      ∃ k, ∀ labels s', (listSystem malloc ops).run s labels = some s' →
        (∀ pre u, pre <+: labels → (listSystem malloc ops).run s pre = some u → Traverses t u) →
        labels.count (.run t) ≤ k := by
  obtain ⟨l, hinv⟩ := reachable_inv hfresh hr
  have hg : Guarded (code malloc) Pc.inside s :=
    reachable_guarded (code_disciplined malloc) (programStart_outside ops) hr
  obtain ⟨⟨p, c⟩, hp⟩ := Option.isSome_iff_exists.mp ht
  have hshape := hinv.shape t (Pc.inside_of_ahead hp)
  obtain ⟨k, hk⟩ := Left.of_shape hshape ht
  obtain ⟨-, y, next, hcode⟩ := code_left malloc hinv.owned rfl hshape hk
  refine ⟨⟨_, step_iff.mpr (.exec (hg.running t) hcode)⟩, k, fun labels s' hrun hstay => ?_⟩
  exact left_run hfresh hr hk labels hrun hstay

/-- With the lock free the chain from `list.head` spells what the sections make of the empty list;
`list_contains` returns the truth at its section, and every loop ends. -/
theorem list_linearizable (hfresh : Fresh malloc) (hr : (listSystem malloc ops).Reachable s) :
    (s.mutex = none → ∃ l, (addresses l).Nodup ∧
      Segment s.shared.heap.node s.shared.head none l ∧ values l = contents s.shared.log) ∧
    (∀ later t val found earlier, s.shared.log = later ++ (t, .contains val found) :: earlier →
      (found = true ↔ val ∈ contents earlier)) ∧
    (∀ t val found ops', (s.status t).pc = .contains val (.done found) ops' →
      s.shared.log.find? (fun e => e.1 = t) = some (t, .contains val found)) ∧
    (∀ t, ops t = doneBy s.shared.log t ++ (s.status t).pc.pending) ∧
    ∀ t, Traverses t s → (∃ s', (listSystem malloc ops).step s (.run t) = some s') ∧
      ∃ k, ∀ labels s', (listSystem malloc ops).run s labels = some s' →
        (∀ pre u, pre <+: labels → (listSystem malloc ops).run s pre = some u → Traverses t u) →
        labels.count (.run t) ≤ k := by
  obtain ⟨l, hinv⟩ := reachable_inv hfresh hr
  have hg : Guarded (code malloc) Pc.inside s :=
    reachable_guarded (code_disciplined malloc) (programStart_outside ops) hr
  refine ⟨fun hfree => ?_, hinv.truthful, fun t val found ops' hpc => ?_,
    fun t => (reachable_calls hr t).1, fun t => traversal_ends hfresh hr⟩
  · obtain ⟨hsegment, hvalues⟩ := hinv.whole (hg.outside_of_free hfree)
    exact ⟨l, hinv.owned.nodup, hsegment, hvalues⟩
  · have hfound := (reachable_calls hr t).2
    rwa [hpc] at hfound

end Runs

def twoSlots : Malloc := fun i h =>
  (if (h.node (i % 2)).isNone then i % 2 else Nat.find h.exists_fresh, ⟨7, some 9⟩)

theorem twoSlots_fresh : Fresh twoSlots := by
  intro i h
  simp only [twoSlots]
  split
  · exact Option.isNone_iff_eq_none.mp ‹_›
  · exact Nat.find_spec h.exists_fresh

def twoThreads : Thread (Fin 2) → List Op
  | some 0 => [.insert 5, .contains 5]
  | some 1 => [.insert 7, .remove 5]
  | none => []

theorem list_linearizable_two : ∃ s, (listSystem twoSlots twoThreads).Reachable s ∧
    ∃ l, (addresses l).Nodup ∧ Segment s.shared.heap.node s.shared.head none l ∧ values l = [7] := by
  let M := listSystem twoSlots twoThreads
  let labels : List (Label (Thread (Fin 2))) := List.replicate 3 (.run (some 0)) ++
    List.replicate 3 (.run (some 1)) ++ List.replicate 4 (.run (some 0)) ++
    List.replicate 14 (.run (some 1)) ++ List.replicate 8 (.run (some 0))
  let s := (M.run M.init labels).get rfl
  have hreach : M.Reachable s := System.reachable_of_run labels rfl
  have hcontents : contents s.shared.log = [7] := rfl
  obtain ⟨l, hnodup, hsegment, hvalues⟩ := (list_linearizable twoSlots_fresh hreach).1 rfl
  exact ⟨s, hreach, l, hnodup, hsegment, hvalues.trans hcontents⟩

end MultithreadMayhem.SafeList
