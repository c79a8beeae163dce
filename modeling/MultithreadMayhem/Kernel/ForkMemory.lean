import MultithreadMayhem.Kernel.ForkCall
import Mathlib.Data.Finset.Lattice.Fold
import Mathlib.Order.Lattice.Nat
import Mathlib.Order.Interval.Finset.Nat

/-!
# The pages of a process that is being made

What `kfork` relies on in `kalloc.c` and `vm.c`, and which pages its functions take and
give back. `Owns` says that a process that is being made has all the pages that have
been taken for it, so that `freeproc` can give them back.
-/

namespace MultithreadMayhem.Kernel.ForkCall

open Foundation

variable {n : ℕ} {M : Type} {lay : Layout} {vm : Vm M} {pages : M → PageMap} {m m' : M}
  {base : PageMap} {q : Slot n} {e : Finset ℕ} {pa pt va : ℕ}

/-- What `kalloc.c` and `vm.c` promise about the pages. A call that fails returns a null pointer or
-1; `mappages` may have added pages to the page table even then, and so may `uvmcopy`, which has
freed the user pages that it copied. -/
structure Vm.Lawful (vm : Vm M) (lay : Layout) (pages : M → PageMap) : Prop where
  kalloc_null (m : M) : (vm.kalloc m).2 = none → pages (vm.kalloc m).1 = pages m
  kalloc_page (m : M) (pa : ℕ) : (vm.kalloc m).2 = some pa →
    pa ∉ (pages m).allocated ∧ pages (vm.kalloc m).1 = (pages m).take pa
  kfree (m : M) (pa : ℕ) (h : ∀ pt, pa ∉ (pages m).tables pt) : pa ∈ (pages m).allocated →
    pages (vm.kfree pa m) = (pages m).give pa h
  uvmcreate_null (m : M) : (vm.uvmcreate m).2 = none → pages (vm.uvmcreate m).1 = pages m
  uvmcreate_page (m : M) (pt : ℕ) : (vm.uvmcreate m).2 = some pt →
    ∃ h, pages (vm.uvmcreate m).1 = (pages m).create pt h
  mappages (m : M) (pt va pa : ℕ) (perm : List Pte) (hpt : pt ∈ (pages m).tables pt) :
    (∀ leaf ∈ (pages m).leaves pt, leaf.1 ≠ va) →
    ∃ g hg, (vm.mappages pt va lay.pgsize pa perm m).2 = 0 ∧
        pages (vm.mappages pt va lay.pgsize pa perm m).1 =
          ((pages m).grow pt g hpt hg).map pt va pa ∨
      (vm.mappages pt va lay.pgsize pa perm m).2 = -1 ∧
        pages (vm.mappages pt va lay.pgsize pa perm m).1 = (pages m).grow pt g hpt hg
  uvmunmap (m : M) (pt va : ℕ) : (∃ pa, (va, pa) ∈ (pages m).leaves pt) →
    pages (vm.uvmunmap pt va 1 false m) = (pages m).unmap pt va
  uvmfree (m : M) (pt : ℕ) : pt ∈ (pages m).tables pt → (pages m).leaves pt = ∅ →
    pages (vm.uvmfree pt 0 m) = (pages m).discard pt
  uvmcopy (m : M) (old new : ℕ) (sz : BitVec 64) (hpt : new ∈ (pages m).tables new) :
    (vm.uvmcopy old new sz m).2 < 0 →
    ∃ g hg, pages (vm.uvmcopy old new sz m).1 = (pages m).grow new g hpt hg

def Slot.owned (q : Slot n) (m : PageMap) : Finset ℕ :=
  q.trapframe.elim ∅ ({·}) ∪ q.pagetable.elim ∅ m.tables

/-- The process `q` that is being made has all the pages that have been taken since `base`. -/
structure Owns (lay : Layout) (base m : PageMap) (q : Slot n) : Prop where
  borrowed : base.Borrowed m (q.owned m)
  trapframe : ∀ pa ∈ q.trapframe, ∀ pt, pa ∉ m.tables pt
  pagetable : ∀ pt ∈ q.pagetable, pt ∉ base.allocated ∧ pt ∈ m.tables pt ∧
    m.leaves pt = {(lay.trapframeVa, q.trapframe.getD 0), (lay.trampolineVa, lay.trampoline)}
  sz : q.sz = 0

theorem Owns.grow {m : PageMap} {g : Finset ℕ} (h : Owns lay base m q)
    (hq : q.pagetable = some pt) (hpt : pt ∈ m.tables pt) (hg : Disjoint m.allocated g) :
    Owns lay base (m.grow pt g hpt hg) q := by
  have howned : q.owned (m.grow pt g hpt hg) = q.owned m ∪ g := by
    simp only [Slot.owned, hq, Option.elim, PageMap.tables_grow_self, Finset.union_assoc]
  obtain ⟨hnew, hroot, hleaves⟩ := h.pagetable pt hq
  constructor
  · rw [howned]
    exact h.borrowed.grow hnew hpt hg
  · intro pa hpa pt'
    by_cases heq : pt' = pt
    · subst pt'
      rw [PageMap.tables_grow_self, Finset.mem_union, not_or]
      refine ⟨h.trapframe pa hpa pt, fun hmem => Finset.disjoint_left.mp hg ?_ hmem⟩
      have hpa : q.trapframe = some pa := hpa
      rw [h.borrowed.allocated, Slot.owned, hpa]
      exact Finset.mem_union_right _ (Finset.mem_union_left _ (Finset.mem_singleton_self _))
    · exact fun hmem => h.trapframe pa hpa pt' (Function.update_of_ne heq _ m.tables ▸ hmem)
  · intro pt' hpt'
    obtain rfl := Option.some.inj (hq.symm.trans hpt')
    refine ⟨hnew, ?_, hleaves⟩
    rw [PageMap.tables_grow_self]
    exact Finset.mem_union_left _ hpt
  · exact h.sz

theorem procFreepagetable_borrowed (hvm : vm.Lawful lay pages) (hb : base.Borrowed (pages m) e)
    (hnew : pt ∉ base.allocated) (hpt : pt ∈ (pages m).tables pt)
    (hleaves : (pages m).leaves pt = {(lay.trapframeVa, pa), (lay.trampolineVa, lay.trampoline)}) :
    base.Borrowed (pages (procFreepagetable lay vm pt 0 m)) (e \ (pages m).tables pt) := by
  have h₁ : pages (vm.uvmunmap pt lay.trampolineVa 1 false m) = (pages m).unmap pt lay.trampolineVa :=
    hvm.uvmunmap m pt _ ⟨lay.trampoline, by
      rw [hleaves]
      exact Finset.mem_insert_of_mem (Finset.mem_singleton_self _)⟩
  have hone : ((pages m).unmap pt lay.trampolineVa).leaves pt = {(lay.trapframeVa, pa)} := by
    rw [PageMap.leaves_unmap_self, hleaves, Finset.filter_insert, if_pos lay.apart.symm,
      Finset.filter_singleton, if_neg (fun h => h rfl)]
    rfl
  have h₂ := hvm.uvmunmap (vm.uvmunmap pt lay.trampolineVa 1 false m) pt lay.trapframeVa ⟨pa, by
    rw [h₁, hone]
    exact Finset.mem_singleton_self _⟩
  rw [h₁] at h₂
  have h₃ := hvm.uvmfree (vm.uvmunmap pt lay.trapframeVa 1 false
      (vm.uvmunmap pt lay.trampolineVa 1 false m)) pt (by rw [h₂]; exact hpt) (by
    rw [h₂, PageMap.leaves_unmap_self, hone, Finset.filter_singleton, if_neg (fun h => h rfl)])
  rw [h₂] at h₃
  change base.Borrowed (pages (vm.uvmfree _ _ _)) _
  rw [h₃]
  exact ((hb.unmap hnew).unmap hnew).discard hnew

/-- `freeproc` takes back all the pages of the process. -/
theorem freePages_borrowed (hvm : vm.Lawful lay pages) (h : Owns lay base (pages m) q) :
    base.Borrowed (pages (freePages lay vm q m)) ∅ := by
  -- the trapframe page goes first, the page table still maps it
  obtain ⟨m', hm', hb, htables, hleaves⟩ : ∃ m', (q.trapframe.elim m fun pa => vm.kfree pa m) = m' ∧
      base.Borrowed (pages m') (q.pagetable.elim ∅ (pages m).tables) ∧
        (pages m').tables = (pages m).tables ∧ (pages m').leaves = (pages m).leaves := by
    have hb := h.borrowed
    have hno := h.trapframe
    cases htf : q.trapframe with
    | none =>
      rw [Slot.owned, htf] at hb
      refine ⟨_, rfl, ?_, rfl, rfl⟩
      exact Finset.empty_union (q.pagetable.elim ∅ (pages m).tables) ▸ hb
    | some pa =>
      have hpa := hno pa htf
      have hmem : pa ∈ q.owned (pages m) := by
        rw [Slot.owned, htf]
        exact Finset.mem_union_left _ (Finset.mem_singleton_self _)
      have hgive := hvm.kfree m pa hpa (by
        rw [hb.allocated]
        exact Finset.mem_union_right _ hmem)
      have hrest : (q.owned (pages m)).erase pa = q.pagetable.elim ∅ (pages m).tables := by
        have hpt : pa ∉ q.pagetable.elim ∅ (pages m).tables := by
          cases q.pagetable with
          | none => exact Finset.notMem_empty _
          | some pt => exact hpa pt
        rw [Slot.owned, htf]
        exact (Finset.erase_union_distrib _ _ _).trans (by
          rw [Finset.erase_eq_of_notMem hpt]
          exact (congrArg (· ∪ _) (Finset.erase_singleton pa)).trans (Finset.empty_union _))
      rw [Option.elim_some]
      refine ⟨_, rfl, ?_, by rw [hgive]; rfl, by rw [hgive]; rfl⟩
      rw [hgive, ← hrest]
      exact hb.give hmem hpa
  have hfree : freePages lay vm q m =
      q.pagetable.elim m' fun pagetable => procFreepagetable lay vm pagetable q.sz m' := by
    rw [← hm']
    rfl
  rw [hfree]
  cases hpt : q.pagetable with
  | none =>
    rw [hpt] at hb
    exact hb
  | some pt =>
    rw [hpt] at hb
    obtain ⟨hnew, hroot, hmaps⟩ := h.pagetable pt hpt
    have hall := procFreepagetable_borrowed hvm hb hnew (by rw [htables]; exact hroot)
      (by rw [hleaves]; exact hmaps)
    rw [htables] at hall
    change base.Borrowed (pages (procFreepagetable lay vm pt q.sz m')) ∅
    rw [h.sz, ← Finset.sdiff_self ((pages m).tables pt)]
    exact hall

theorem mappages_borrowed (hvm : vm.Lawful lay pages) (perm : List Pte)
    (hb : base.Borrowed (pages m) ((pages m).tables pt)) (hnew : pt ∉ base.allocated)
    (hpt : pt ∈ (pages m).tables pt) (hva : ∀ leaf ∈ (pages m).leaves pt, leaf.1 ≠ va)
    {r : Int} (hr : vm.mappages pt va lay.pgsize pa perm m = (m', r)) :
    base.Borrowed (pages m') ((pages m').tables pt) ∧ pt ∈ (pages m').tables pt ∧
      (pages m').leaves pt =
        if r < 0 then (pages m).leaves pt else insert (va, pa) ((pages m).leaves pt) := by
  obtain ⟨g, hg, hcases⟩ := hvm.mappages m pt va pa perm hpt hva
  rw [hr] at hcases
  have hgrown := hb.grow hnew hpt hg
  rw [← PageMap.tables_grow_self _ _ _ hpt hg] at hgrown
  have hroot : pt ∈ ((pages m).grow pt g hpt hg).tables pt := by
    rw [PageMap.tables_grow_self]
    exact Finset.mem_union_left _ hpt
  obtain ⟨hzero, hm'⟩ | ⟨hneg, hm'⟩ := hcases
  · obtain rfl : r = 0 := hzero
    rw [show pages m' = _ from hm', if_neg (lt_irrefl _), PageMap.leaves_map_self]
    exact ⟨hgrown.map hnew, hroot, rfl⟩
  · obtain rfl : r = -1 := hneg
    rw [show pages m' = _ from hm', if_pos (by decide)]
    exact ⟨hgrown, hroot, rfl⟩

theorem uvmfree_borrowed (hvm : vm.Lawful lay pages)
    (hb : base.Borrowed (pages m) ((pages m).tables pt)) (hnew : pt ∉ base.allocated)
    (hpt : pt ∈ (pages m).tables pt) (hleaves : (pages m).leaves pt = ∅) :
    base.Borrowed (pages (vm.uvmfree pt 0 m)) ∅ := by
  rw [hvm.uvmfree m pt hpt hleaves, ← Finset.sdiff_self ((pages m).tables pt)]
  exact hb.discard hnew

theorem procPagetable_borrowed (hvm : vm.Lawful lay pages) (q : Slot n) (m : M) :
    ((procPagetable lay vm q m).2 = none ∧
      (pages m).Borrowed (pages (procPagetable lay vm q m).1) ∅) ∨
    ∃ pt m₁ m₂, vm.uvmcreate m = (m₁, some pt) ∧
      (∃ r, vm.mappages pt lay.trampolineVa lay.pgsize lay.trampoline [.r, .x] m₁ = (m₂, r) ∧
        ¬r < 0) ∧
      (∃ r, vm.mappages pt lay.trapframeVa lay.pgsize (q.trapframe.getD 0) [.r, .w] m₂ =
        ((procPagetable lay vm q m).1, r) ∧ ¬r < 0) ∧
      (procPagetable lay vm q m).2 = some pt ∧ pt ∉ (pages m).allocated ∧
      pt ∈ (pages (procPagetable lay vm q m).1).tables pt ∧
      (pages (procPagetable lay vm q m).1).leaves pt =
        {(lay.trapframeVa, q.trapframe.getD 0), (lay.trampolineVa, lay.trampoline)} ∧
      (pages m).Borrowed (pages (procPagetable lay vm q m).1)
        ((pages (procPagetable lay vm q m).1).tables pt) := by
  obtain ⟨⟨m₁, table⟩, hcreate⟩ : ∃ x, vm.uvmcreate m = x := ⟨_, rfl⟩
  cases table with
  | none =>
    have heq : procPagetable lay vm q m = (m₁, none) := by simp only [procPagetable, hcreate]
    have hsame := hvm.uvmcreate_null m (by rw [hcreate])
    rw [hcreate] at hsame
    rw [heq]
    refine .inl ⟨rfl, ?_⟩
    rw [show pages m₁ = pages m from hsame]
    exact .refl _
  | some pt =>
    obtain ⟨hnew, h₁⟩ := hvm.uvmcreate_page m pt (by rw [hcreate])
    rw [hcreate] at h₁
    have h₁ : pages m₁ = (pages m).create pt hnew := h₁
    have hroot₁ : pt ∈ (pages m₁).tables pt := by
      rw [h₁, PageMap.tables_create_self]
      exact Finset.mem_singleton_self _
    have hleaves₁ : (pages m₁).leaves pt = ∅ := by rw [h₁, PageMap.leaves_create_self]
    have hb₁ : (pages m).Borrowed (pages m₁) ((pages m₁).tables pt) := by
      rw [h₁, PageMap.tables_create_self]
      exact (PageMap.Borrowed.refl _).create hnew
    obtain ⟨⟨m₂, r⟩, hr⟩ : ∃ x,
        vm.mappages pt lay.trampolineVa lay.pgsize lay.trampoline [.r, .x] m₁ = x := ⟨_, rfl⟩
    obtain ⟨hb₂, hroot₂, hleaves₂⟩ := mappages_borrowed hvm _ hb₁ hnew hroot₁
      (by rw [hleaves₁]; exact fun leaf hleaf => absurd hleaf (Finset.notMem_empty _)) hr
    rw [hleaves₁] at hleaves₂
    by_cases hneg : r < 0
    · have heq : procPagetable lay vm q m = (vm.uvmfree pt 0 m₂, none) := by
        simp only [procPagetable, hcreate, hr, if_pos hneg]
      rw [if_pos hneg] at hleaves₂
      rw [heq]
      exact .inl ⟨rfl, uvmfree_borrowed hvm hb₂ hnew hroot₂ hleaves₂⟩
    · rw [if_neg hneg] at hleaves₂
      obtain ⟨⟨m₃, r'⟩, hr'⟩ : ∃ x,
          vm.mappages pt lay.trapframeVa lay.pgsize (q.trapframe.getD 0) [.r, .w] m₂ = x := ⟨_, rfl⟩
      obtain ⟨hb₃, hroot₃, hleaves₃⟩ := mappages_borrowed hvm _ hb₂ hnew hroot₂ (by
        rw [hleaves₂]
        intro leaf hleaf hva
        obtain rfl := Finset.mem_singleton.mp hleaf
        exact lay.apart hva) hr'
      rw [hleaves₂] at hleaves₃
      by_cases hneg' : r' < 0
      · have heq : procPagetable lay vm q m =
            (vm.uvmfree pt 0 (vm.uvmunmap pt lay.trampolineVa 1 false m₃), none) := by
          simp only [procPagetable, hcreate, hr, if_neg hneg, hr', if_pos hneg']
        rw [if_pos hneg'] at hleaves₃
        have hunmap := hvm.uvmunmap m₃ pt lay.trampolineVa ⟨lay.trampoline, by
          rw [hleaves₃]
          exact Finset.mem_singleton_self _⟩
        rw [heq]
        refine .inl ⟨rfl, uvmfree_borrowed hvm ?_ hnew ?_ ?_⟩
        · rw [hunmap]
          exact hb₃.unmap hnew
        · rw [hunmap]
          exact hroot₃
        · rw [hunmap, PageMap.leaves_unmap_self, hleaves₃]
          exact (Finset.filter_singleton _ _).trans (if_neg fun h => h rfl)
      · have heq : procPagetable lay vm q m = (m₃, some pt) := by
          simp only [procPagetable, hcreate, hr, if_neg hneg, hr', if_neg hneg']
        rw [if_neg hneg'] at hleaves₃
        rw [heq]
        exact .inr ⟨pt, m₁, m₂, hcreate, ⟨r, hr, hneg⟩, ⟨r', hr', hneg'⟩, rfl, hnew, hroot₃, hleaves₃,
          hb₃⟩

/-- A memory with `limit` pages. -/
structure Bounded where
  limit : ℕ
  map : PageMap

namespace Bounded

variable (m : Bounded)

def room : ℕ := m.limit - m.map.allocated.card

def next : ℕ := m.map.allocated.sup id + 1

def fresh (k : ℕ) : Finset ℕ := Finset.Ico m.next (m.next + k)

theorem le_sup {pa : ℕ} (h : pa ∈ m.map.allocated) : pa < m.next :=
  Nat.lt_succ_of_le (Finset.le_sup (f := id) h)

theorem disjoint_fresh (k : ℕ) : Disjoint m.map.allocated (m.fresh k) := by
  rw [Finset.disjoint_left]
  intro pa hpa hfresh
  have hlow : m.next ≤ pa := (Finset.mem_Ico.mp hfresh).1
  exact absurd (m.le_sup hpa) (Nat.not_lt.mpr hlow)

theorem next_notMem : m.next ∉ m.map.allocated :=
  fun h => lt_irrefl _ (m.le_sup h)

def kalloc : Bounded × Option ℕ :=
  if 0 < m.room then ({ m with map := m.map.take m.next }, some m.next) else (m, none)

theorem not_mem_tables {pa : ℕ} (h : ∀ pt ∈ m.map.allocated, pa ∉ m.map.tables pt) (pt : ℕ) :
    pa ∉ m.map.tables pt := by
  by_cases hpt : pt ∈ m.map.allocated
  · exact h pt hpt
  · rw [PageMap.tables_eq_empty hpt]
    exact Finset.notMem_empty _

def kfree (pa : ℕ) : Bounded :=
  if h : ∀ pt ∈ m.map.allocated, pa ∉ m.map.tables pt then
    { m with map := m.map.give pa (m.not_mem_tables h) }
  else m

def uvmcreate : Bounded × Option ℕ :=
  if 0 < m.room then ({ m with map := m.map.create m.next m.next_notMem }, some m.next)
  else (m, none)

def grow (pt k : ℕ) : Bounded :=
  if hpt : pt ∈ m.map.tables pt then
    { m with map := m.map.grow pt (m.fresh k) hpt (m.disjoint_fresh k) }
  else m

/-- The first mapping needs two more pages of the page table. -/
def mappages (pt va pa : ℕ) : Bounded × Int :=
  let needed := if m.map.leaves pt = ∅ then 2 else 0
  if needed ≤ m.room then
    let m := m.grow pt needed
    ({ m with map := m.map.map pt va pa }, 0)
  else (m.grow pt m.room, -1)

def uvmfree (pt : ℕ) : Bounded :=
  if m.map.leaves pt = ∅ then { m with map := m.map.discard pt } else m

/-- A copy needs the pages of the user memory and two pages of the page table. The first of the pages
is taken before the page table is enlarged; a copy that fails has freed it. -/
def uvmcopy (new : ℕ) (sz : BitVec 64) : Bounded × Int :=
  let user := (sz.toNat + 4095) / 4096
  if user = 0 then (m, 0)
  else if m.room < user + 2 then (m.grow new (min 2 (m.room - 1)), -1)
  else
    let m := m.grow new 2
    ((List.range user).foldl (fun m i =>
      { m with map := (m.map.take m.next).map new (4096 * i) m.next }) m, 0)

def boundedVm : Vm Bounded where
  kalloc := kalloc
  kfree pa m := m.kfree pa
  uvmcreate := uvmcreate
  mappages pt va _ pa _ m := m.mappages pt va pa
  uvmunmap pt va _ _ m := { m with map := m.map.unmap pt va }
  uvmfree pt _ m := m.uvmfree pt
  uvmcopy _ new sz m := m.uvmcopy new sz

theorem grow_map {pt k : ℕ} (hpt : pt ∈ m.map.tables pt) :
    (m.grow pt k).map = m.map.grow pt (m.fresh k) hpt (m.disjoint_fresh k) := by
  rw [grow, dif_pos hpt]

end Bounded

theorem bounded_lawful (lay : Layout) : Bounded.boundedVm.Lawful lay Bounded.map where
  kalloc_null m hnull := by
    simp only [Bounded.boundedVm, Bounded.kalloc] at hnull ⊢
    split at hnull
    · cases hnull
    · rename_i hroom
      rw [if_neg hroom]
  kalloc_page m pa hpa := by
    simp only [Bounded.boundedVm, Bounded.kalloc] at hpa ⊢
    split at hpa
    · rename_i hroom
      obtain rfl := Option.some.inj hpa
      rw [if_pos hroom]
      exact ⟨m.next_notMem, rfl⟩
    · cases hpa
  kfree m pa h _ := by
    simp only [Bounded.boundedVm, Bounded.kfree]
    rw [dif_pos fun pt _ => h pt]
  uvmcreate_null m hnull := by
    simp only [Bounded.boundedVm, Bounded.uvmcreate] at hnull ⊢
    split at hnull
    · cases hnull
    · rename_i hroom
      rw [if_neg hroom]
  uvmcreate_page m pt hpt := by
    simp only [Bounded.boundedVm, Bounded.uvmcreate] at hpt ⊢
    split at hpt
    · rename_i hroom
      obtain rfl := Option.some.inj hpt
      rw [if_pos hroom]
      exact ⟨m.next_notMem, rfl⟩
    · cases hpt
  mappages m pt va pa perm hpt _ := by
    simp only [Bounded.boundedVm, Bounded.mappages]
    generalize (if m.map.leaves pt = ∅ then 2 else 0) = needed
    by_cases hroom : needed ≤ m.room
    · rw [if_pos hroom]
      refine ⟨_, m.disjoint_fresh needed, .inl ⟨rfl, ?_⟩⟩
      rw [m.grow_map hpt]
    · rw [if_neg hroom]
      exact ⟨_, m.disjoint_fresh m.room, .inr ⟨rfl, m.grow_map hpt⟩⟩
  uvmunmap m pt va _ := rfl
  uvmfree m pt _ hleaves := by
    simp only [Bounded.boundedVm, Bounded.uvmfree]
    rw [if_pos hleaves]
  uvmcopy m old new sz hpt hneg := by
    simp only [Bounded.boundedVm, Bounded.uvmcopy] at hneg ⊢
    split at hneg
    · exact absurd hneg (lt_irrefl _)
    · rename_i huser
      rw [if_neg huser]
      split at hneg
      · rename_i hroom
        rw [if_pos hroom]
        exact ⟨_, m.disjoint_fresh _, m.grow_map hpt⟩
      · exact absurd hneg (lt_irrefl _)

end MultithreadMayhem.Kernel.ForkCall
