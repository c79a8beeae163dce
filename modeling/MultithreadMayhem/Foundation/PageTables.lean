import Mathlib.Data.Finset.Basic
import Mathlib.Data.Finset.Lattice.Lemmas
import Mathlib.Data.Finset.SDiff
import Mathlib.Logic.Function.Basic

/-!
# Page tables on an allocator

Pages are numbers. The allocator has handed out a set of pages, and some of them are
the pages of page tables; a page table is named by its root page, and its leaves map
addresses to pages. `Borrowed` compares the pages with those of an earlier moment:
which pages have been taken since, while the page tables of that moment are as they
were.
-/

namespace MultithreadMayhem.Foundation

structure PageMap where
  allocated : Finset ℕ
  /-- The pages of which a page table consists. -/
  tables : ℕ → Finset ℕ
  /-- The addresses that a page table maps, with their pages. -/
  leaves : ℕ → Finset (ℕ × ℕ)
  tables_subset (pt : ℕ) : tables pt ⊆ allocated
  root_mem (pt : ℕ) : (tables pt).Nonempty → pt ∈ tables pt
  tables_disjoint (pt pt' : ℕ) : pt ≠ pt' → Disjoint (tables pt) (tables pt')

namespace PageMap

variable {base m : PageMap} {e g : Finset ℕ} {pa pt va : ℕ}

theorem tables_eq_empty (h : pt ∉ m.allocated) : m.tables pt = ∅ := by
  rw [← Finset.not_nonempty_iff_eq_empty]
  intro hne
  exact h (m.tables_subset pt (m.root_mem pt hne))

def take (m : PageMap) (pa : ℕ) : PageMap where
  allocated := insert pa m.allocated
  tables := m.tables
  leaves := m.leaves
  tables_subset pt := (m.tables_subset pt).trans (Finset.subset_insert _ _)
  root_mem := m.root_mem
  tables_disjoint := m.tables_disjoint

def give (m : PageMap) (pa : ℕ) (h : ∀ pt, pa ∉ m.tables pt) : PageMap where
  allocated := m.allocated.erase pa
  tables := m.tables
  leaves := m.leaves
  tables_subset pt := Finset.subset_erase.mpr ⟨m.tables_subset pt, h pt⟩
  root_mem := m.root_mem
  tables_disjoint := m.tables_disjoint

theorem update_disjoint (hg : ∀ pt', pt' ≠ pt → Disjoint g (m.tables pt')) (a b : ℕ) (hab : a ≠ b) :
    Disjoint (Function.update m.tables pt g a) (Function.update m.tables pt g b) := by
  by_cases ha : a = pt
  · subst a
    rw [Function.update_self, Function.update_of_ne hab.symm]
    exact hg b hab.symm
  · rw [Function.update_of_ne ha]
    by_cases hb : b = pt
    · subst b
      rw [Function.update_self]
      exact (hg a ha).symm
    · rw [Function.update_of_ne hb]
      exact m.tables_disjoint a b hab

def create (m : PageMap) (pt : ℕ) (h : pt ∉ m.allocated) : PageMap where
  allocated := insert pt m.allocated
  tables := Function.update m.tables pt {pt}
  leaves := Function.update m.leaves pt ∅
  tables_subset pt' := by
    by_cases hpt : pt' = pt
    · subst pt'
      rw [Function.update_self]
      exact Finset.singleton_subset_iff.mpr (Finset.mem_insert_self _ _)
    · rw [Function.update_of_ne hpt]
      exact (m.tables_subset pt').trans (Finset.subset_insert _ _)
  root_mem pt' hne := by
    by_cases hpt : pt' = pt
    · subst pt'
      rw [Function.update_self]
      exact Finset.mem_singleton_self _
    · rw [Function.update_of_ne hpt] at hne ⊢
      exact m.root_mem pt' hne
  tables_disjoint := update_disjoint fun pt' _ =>
    Finset.disjoint_singleton_left.mpr fun hmem => h (m.tables_subset pt' hmem)

def grow (m : PageMap) (pt : ℕ) (g : Finset ℕ) (hpt : pt ∈ m.tables pt)
    (hg : Disjoint m.allocated g) : PageMap where
  allocated := m.allocated ∪ g
  tables := Function.update m.tables pt (m.tables pt ∪ g)
  leaves := m.leaves
  tables_subset pt' := by
    by_cases heq : pt' = pt
    · subst pt'
      rw [Function.update_self]
      exact Finset.union_subset_union_left (m.tables_subset pt)
    · rw [Function.update_of_ne heq]
      exact (m.tables_subset pt').trans Finset.subset_union_left
  root_mem pt' hne := by
    by_cases heq : pt' = pt
    · subst pt'
      rw [Function.update_self]
      exact Finset.mem_union_left _ hpt
    · rw [Function.update_of_ne heq] at hne ⊢
      exact m.root_mem pt' hne
  tables_disjoint := update_disjoint fun pt' hne =>
    Finset.disjoint_union_left.mpr ⟨m.tables_disjoint pt pt' hne.symm,
      hg.symm.mono_right (m.tables_subset pt')⟩

def map (m : PageMap) (pt va pa : ℕ) : PageMap :=
  { m with leaves := Function.update m.leaves pt (insert (va, pa) (m.leaves pt)) }

def unmap (m : PageMap) (pt va : ℕ) : PageMap :=
  { m with leaves := Function.update m.leaves pt ((m.leaves pt).filter fun l => l.1 ≠ va) }

theorem leaves_map_self (m : PageMap) (pt va pa : ℕ) :
    (m.map pt va pa).leaves pt = insert (va, pa) (m.leaves pt) :=
  Function.update_self _ _ _

theorem leaves_unmap_self (m : PageMap) (pt va : ℕ) :
    (m.unmap pt va).leaves pt = (m.leaves pt).filter fun leaf => leaf.1 ≠ va :=
  Function.update_self _ _ _

theorem tables_create_self (m : PageMap) (pt : ℕ) (h : pt ∉ m.allocated) :
    (m.create pt h).tables pt = {pt} :=
  Function.update_self _ _ _

theorem leaves_create_self (m : PageMap) (pt : ℕ) (h : pt ∉ m.allocated) :
    (m.create pt h).leaves pt = ∅ :=
  Function.update_self _ _ _

theorem tables_grow_self (m : PageMap) (pt : ℕ) (g : Finset ℕ) (hpt : pt ∈ m.tables pt)
    (hg : Disjoint m.allocated g) : (m.grow pt g hpt hg).tables pt = m.tables pt ∪ g :=
  Function.update_self _ _ _

def discard (m : PageMap) (pt : ℕ) : PageMap where
  allocated := m.allocated \ m.tables pt
  tables := Function.update m.tables pt ∅
  leaves := m.leaves
  tables_subset pt' := by
    by_cases heq : pt' = pt
    · subst pt'
      rw [Function.update_self]
      exact Finset.empty_subset _
    · rw [Function.update_of_ne heq]
      exact Finset.subset_sdiff.mpr ⟨m.tables_subset pt', m.tables_disjoint pt' pt heq⟩
  root_mem pt' hne := by
    by_cases heq : pt' = pt
    · subst pt'
      rw [Function.update_self] at hne
      exact absurd hne Finset.not_nonempty_empty
    · rw [Function.update_of_ne heq] at hne ⊢
      exact m.root_mem pt' hne
  tables_disjoint := update_disjoint fun _ _ => Finset.disjoint_empty_left _

/-- Since `base` exactly the pages `e` have been taken, page tables have been built from them only,
and the page tables of `base` are as they were. -/
structure Borrowed (base m : PageMap) (e : Finset ℕ) : Prop where
  allocated : m.allocated = base.allocated ∪ e
  fresh : Disjoint base.allocated e
  tables : ∀ pt ∈ base.allocated, m.tables pt = base.tables pt
  leaves : ∀ pt ∈ base.allocated, m.leaves pt = base.leaves pt
  own : ∀ pt ∉ base.allocated, m.tables pt ⊆ e

namespace Borrowed

protected theorem refl (m : PageMap) : Borrowed m m ∅ where
  allocated := (Finset.union_empty _).symm
  fresh := Finset.disjoint_empty_right _
  tables _ _ := rfl
  leaves _ _ := rfl
  own _ hpt := (tables_eq_empty hpt).subset

theorem not_mem (h : Borrowed base m e) (hpa : pa ∉ m.allocated) : pa ∉ base.allocated := by
  intro hmem
  rw [h.allocated] at hpa
  exact hpa (Finset.mem_union_left _ hmem)

theorem not_mem_base (h : Borrowed base m e) (hpa : pa ∈ e) : pa ∉ base.allocated :=
  fun hmem => Finset.disjoint_left.mp h.fresh hmem hpa

theorem not_mem_tables (h : Borrowed base m e) (hpa : pa ∈ base.allocated)
    (hno : ∀ pt, pa ∉ base.tables pt) (pt : ℕ) : pa ∉ m.tables pt := by
  by_cases hpt : pt ∈ base.allocated
  · rw [h.tables pt hpt]
    exact hno pt
  · intro hmem
    exact h.not_mem_base (h.own pt hpt hmem) hpa

theorem trans {m' : PageMap} (h : Borrowed base m e) (h' : Borrowed m m' g) :
    Borrowed base m' (e ∪ g) where
  allocated := by rw [h'.allocated, h.allocated, Finset.union_assoc]
  fresh := Finset.disjoint_union_right.mpr ⟨h.fresh, h'.fresh.mono_left (by
    rw [h.allocated]
    exact Finset.subset_union_left)⟩
  tables pt hpt := by
    have hmem : pt ∈ m.allocated := by
      rw [h.allocated]
      exact Finset.mem_union_left _ hpt
    rw [h'.tables pt hmem, h.tables pt hpt]
  leaves pt hpt := by
    have hmem : pt ∈ m.allocated := by
      rw [h.allocated]
      exact Finset.mem_union_left _ hpt
    rw [h'.leaves pt hmem, h.leaves pt hpt]
  own pt hpt := by
    by_cases hmem : pt ∈ m.allocated
    · rw [h'.tables pt hmem]
      exact (h.own pt hpt).trans Finset.subset_union_left
    · exact (h'.own pt hmem).trans Finset.subset_union_right

theorem take (h : Borrowed base m e) (hpa : pa ∉ m.allocated) :
    Borrowed base (m.take pa) (insert pa e) where
  allocated := by
    change insert pa m.allocated = _
    rw [h.allocated, Finset.union_insert]
  fresh := Finset.disjoint_insert_right.mpr ⟨h.not_mem hpa, h.fresh⟩
  tables := h.tables
  leaves := h.leaves
  own pt hpt := (h.own pt hpt).trans (Finset.subset_insert _ _)

theorem give (h : Borrowed base m e) (hpa : pa ∈ e) (hno : ∀ pt, pa ∉ m.tables pt) :
    Borrowed base (m.give pa hno) (e.erase pa) where
  allocated := by
    change m.allocated.erase pa = _
    rw [h.allocated, Finset.erase_union_distrib, Finset.erase_eq_of_notMem (h.not_mem_base hpa)]
  fresh := h.fresh.mono_right (Finset.erase_subset _ _)
  tables := h.tables
  leaves := h.leaves
  own pt hpt := Finset.subset_erase.mpr ⟨h.own pt hpt, hno pt⟩

theorem create (h : Borrowed base m e) (hpt : pt ∉ m.allocated) :
    Borrowed base (m.create pt hpt) (insert pt e) where
  allocated := by
    change insert pt m.allocated = _
    rw [h.allocated, Finset.union_insert]
  fresh := Finset.disjoint_insert_right.mpr ⟨h.not_mem hpt, h.fresh⟩
  tables pt' hpt' := by
    have hne : pt' ≠ pt := fun heq => h.not_mem hpt (heq ▸ hpt')
    exact (Function.update_of_ne hne _ _).trans (h.tables pt' hpt')
  leaves pt' hpt' := by
    have hne : pt' ≠ pt := fun heq => h.not_mem hpt (heq ▸ hpt')
    exact (Function.update_of_ne hne _ _).trans (h.leaves pt' hpt')
  own pt' hpt' := by
    change Function.update m.tables pt {pt} pt' ⊆ _
    by_cases heq : pt' = pt
    · subst pt'
      rw [Function.update_self]
      exact Finset.singleton_subset_iff.mpr (Finset.mem_insert_self _ _)
    · rw [Function.update_of_ne heq]
      exact (h.own pt' hpt').trans (Finset.subset_insert _ _)

theorem grow (h : Borrowed base m e) (hnew : pt ∉ base.allocated) (hpt : pt ∈ m.tables pt)
    (hg : Disjoint m.allocated g) : Borrowed base (m.grow pt g hpt hg) (e ∪ g) where
  allocated := by
    change m.allocated ∪ g = _
    rw [h.allocated, Finset.union_assoc]
  fresh := Finset.disjoint_union_right.mpr ⟨h.fresh, hg.mono_left (by
    rw [h.allocated]
    exact Finset.subset_union_left)⟩
  tables pt' hpt' := by
    have hne : pt' ≠ pt := fun heq => hnew (heq ▸ hpt')
    exact (Function.update_of_ne hne _ _).trans (h.tables pt' hpt')
  leaves := h.leaves
  own pt' hpt' := by
    change Function.update m.tables pt (m.tables pt ∪ g) pt' ⊆ _
    by_cases heq : pt' = pt
    · subst pt'
      rw [Function.update_self]
      exact Finset.union_subset_union_left (h.own pt hpt')
    · rw [Function.update_of_ne heq]
      exact (h.own pt' hpt').trans Finset.subset_union_left

theorem map (h : Borrowed base m e) (hnew : pt ∉ base.allocated) :
    Borrowed base (m.map pt va pa) e where
  allocated := h.allocated
  fresh := h.fresh
  tables := h.tables
  leaves pt' hpt' := by
    have hne : pt' ≠ pt := fun heq => hnew (heq ▸ hpt')
    exact (Function.update_of_ne hne _ _).trans (h.leaves pt' hpt')
  own := h.own

theorem unmap (h : Borrowed base m e) (hnew : pt ∉ base.allocated) :
    Borrowed base (m.unmap pt va) e where
  allocated := h.allocated
  fresh := h.fresh
  tables := h.tables
  leaves pt' hpt' := by
    have hne : pt' ≠ pt := fun heq => hnew (heq ▸ hpt')
    exact (Function.update_of_ne hne _ _).trans (h.leaves pt' hpt')
  own := h.own

theorem discard (h : Borrowed base m e) (hnew : pt ∉ base.allocated) :
    Borrowed base (m.discard pt) (e \ m.tables pt) where
  allocated := by
    change m.allocated \ m.tables pt = _
    have hapart : Disjoint base.allocated (m.tables pt) := h.fresh.mono_right (h.own pt hnew)
    rw [h.allocated, Finset.union_sdiff_distrib, Finset.sdiff_eq_self_of_disjoint hapart]
  fresh := h.fresh.mono_right Finset.sdiff_subset
  tables pt' hpt' := by
    have hne : pt' ≠ pt := fun heq => hnew (heq ▸ hpt')
    exact (Function.update_of_ne hne _ _).trans (h.tables pt' hpt')
  leaves := h.leaves
  own pt' hpt' := by
    change Function.update m.tables pt ∅ pt' ⊆ _
    by_cases heq : pt' = pt
    · subst pt'
      rw [Function.update_self]
      exact Finset.empty_subset _
    · rw [Function.update_of_ne heq]
      exact Finset.subset_sdiff.mpr ⟨h.own pt' hpt', m.tables_disjoint pt' pt heq⟩

end Borrowed

end PageMap

end MultithreadMayhem.Foundation
