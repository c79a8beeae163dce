import Mathlib.Data.BitVec

/-!
# Growing and shrinking a process

`sys_sbrk()` and `growproc()`. The size is an unsigned 64-bit number and the change
a signed 32-bit one, so `sz + n` wraps around when a process shrinks below zero:
`uvmdealloc()` then sees a larger size and does nothing, and the call reports
success.
-/

namespace MultithreadMayhem.Kernel.Sbrk

structure Layout where
  trapframe : BitVec 64
  sbrkEager : BitVec 32
  /-- User addresses are below `MAXVA`. -/
  trapframe_lt : trapframe.toNat < 2 ^ 38

/-- The functions of `vm.c` for one page table; `M` is the memory and the page table together. -/
structure Vm (M : Type) where
  uvmalloc : M → (oldsz newsz : BitVec 64) → M × BitVec 64
  uvmdealloc : M → (oldsz newsz : BitVec 64) → M × BitVec 64

/-- What `vm.c` promises of the sizes it returns. -/
structure Vm.Sized {M : Type} (vm : Vm M) : Prop where
  uvmalloc : ∀ m oldsz newsz, oldsz ≤ newsz →
    (vm.uvmalloc m oldsz newsz).2 = 0 ∨ (vm.uvmalloc m oldsz newsz).2 = newsz
  uvmdealloc : ∀ m oldsz newsz,
    (vm.uvmdealloc m oldsz newsz).2 = if newsz ≥ oldsz then oldsz else newsz

structure Proc (M : Type) where
  sz : BitVec 64
  memory : M

variable {M : Type} (lay : Layout) (vm : Vm M)

def growproc (p : Proc M) (n : BitVec 32) : Proc M × Int :=
  let sz := p.sz
  if n.toInt > 0 then
    if sz + n.signExtend 64 > lay.trapframe then (p, -1)
    else
      let (memory, sz) := vm.uvmalloc p.memory sz (sz + n.signExtend 64)
      if sz = 0 then ({ p with memory := memory }, -1)
      else ({ sz := sz, memory := memory }, 0)
  else if n.toInt < 0 then
    let (memory, sz) := vm.uvmdealloc p.memory sz (sz + n.signExtend 64)
    ({ sz := sz, memory := memory }, 0)
  else ({ p with sz := sz }, 0)

/-- `sys_sbrk()` with the arguments `n` and `t`. -/
def sysSbrk (p : Proc M) (n t : BitVec 32) : Proc M × BitVec 64 :=
  let addr := p.sz
  if t = lay.sbrkEager ∨ n.toInt < 0 then
    let (p, r) := growproc lay vm p n
    if r < 0 then (p, -1) else (p, addr)
  else if addr + n.signExtend 64 < addr then (p, -1)
  else if addr + n.signExtend 64 > lay.trapframe then (p, -1)
  else ({ p with sz := p.sz + n.signExtend 64 }, addr)

/-- The call fails and leaves the size alone, or it moves the size by exactly `n`. -/
def Exact (p : Proc M) (n : BitVec 32) (result : Proc M × BitVec 64) : Prop :=
  (result.2 = -1 ∧ result.1.sz = p.sz) ∨
  (result.2 = p.sz ∧ (result.1.sz.toNat : Int) = p.sz.toNat + n.toInt ∧
    result.1.sz ≤ lay.trapframe)

section Arithmetic

variable {sz : BitVec 64} {n : BitVec 32}

theorem toInt_bounds (n : BitVec 32) : -2 ^ 31 ≤ n.toInt ∧ n.toInt < 2 ^ 31 :=
  ⟨BitVec.le_toInt n, BitVec.toInt_lt⟩

theorem toNat_signExtend (n : BitVec 32) :
    ((n.signExtend 64).toNat : Int) = if n.toInt < 0 then 2 ^ 64 + n.toInt else n.toInt := by
  have hext : (n.signExtend 64).toInt = n.toInt := BitVec.toInt_signExtend_of_le (by decide)
  have hbounds := toInt_bounds n
  have hlt := (n.signExtend 64).isLt
  rw [BitVec.toInt_eq_toNat_cond] at hext
  split at hext <;> split <;> omega

theorem toNat_add_of_nonneg (hsz : sz.toNat < 2 ^ 38) (h : 0 ≤ sz.toNat + n.toInt) :
    ((sz + n.signExtend 64).toNat : Int) = sz.toNat + n.toInt := by
  have hext := toNat_signExtend n
  have hbounds := toInt_bounds n
  have hlt := (n.signExtend 64).isLt
  rw [BitVec.toNat_add]
  split at hext <;> omega

theorem toNat_add_of_neg (h : sz.toNat + n.toInt < 0) :
    ((sz + n.signExtend 64).toNat : Int) = 2 ^ 64 + sz.toNat + n.toInt := by
  have hext := toNat_signExtend n
  have hbounds := toInt_bounds n
  have hlt := (n.signExtend 64).isLt
  rw [BitVec.toNat_add]
  split at hext <;> omega

theorem ne_neg_one {sz : BitVec 64} (hsz : sz.toNat < 2 ^ 38) : sz ≠ -1 := by
  rintro rfl
  revert hsz
  decide

end Arithmetic

variable {lay vm} {p : Proc M} {n : BitVec 32}

/-- `growproc()` moves the size by `n` or fails, as long as the size does not become negative. -/
theorem growproc_moves (hvm : vm.Sized) (hsz : p.sz ≤ lay.trapframe)
    (h : 0 ≤ p.sz.toNat + n.toInt) :
    ((growproc lay vm p n).2 = -1 ∧ (growproc lay vm p n).1.sz = p.sz) ∨
    ((growproc lay vm p n).2 = 0 ∧ (growproc lay vm p n).1.sz = p.sz + n.signExtend 64 ∧
      p.sz + n.signExtend 64 ≤ lay.trapframe) := by
  have hadd := toNat_add_of_nonneg (lt_of_le_of_lt hsz lay.trapframe_lt) h
  obtain hneg | hzero | hpos := lt_trichotomy n.toInt 0
  · have heq : growproc lay vm p n =
        (⟨(vm.uvmdealloc p.memory p.sz (p.sz + n.signExtend 64)).2,
          (vm.uvmdealloc p.memory p.sz (p.sz + n.signExtend 64)).1⟩, 0) := by
      simp only [growproc, if_neg (not_lt.mpr hneg.le), if_pos hneg]
    have hlt : p.sz + n.signExtend 64 < p.sz := by
      change (p.sz + n.signExtend 64).toNat < p.sz.toNat
      omega
    have hsize := hvm.uvmdealloc p.memory p.sz (p.sz + n.signExtend 64)
    rw [if_neg (BitVec.not_le.mpr hlt)] at hsize
    rw [heq]
    exact .inr ⟨rfl, hsize, BitVec.le_trans (BitVec.le_of_lt hlt) hsz⟩
  · have heq : growproc lay vm p n = (p, 0) := by
      simp only [growproc, hzero, gt_iff_lt, lt_irrefl, if_false]
    have hsame : p.sz + n.signExtend 64 = p.sz := by
      apply BitVec.eq_of_toNat_eq
      omega
    rw [heq, hsame]
    exact .inr ⟨rfl, rfl, hsz⟩
  · by_cases htop : p.sz + n.signExtend 64 > lay.trapframe
    · have heq : growproc lay vm p n = (p, -1) := by
        simp only [growproc, if_pos hpos, if_pos htop]
      rw [heq]
      exact .inl ⟨rfl, rfl⟩
    · have hle : p.sz ≤ p.sz + n.signExtend 64 := by
        change p.sz.toNat ≤ (p.sz + n.signExtend 64).toNat
        omega
      have hne : p.sz + n.signExtend 64 ≠ 0 := by
        intro heq
        rw [heq] at hadd
        change ((0 : ℕ) : Int) = _ at hadd
        omega
      obtain hfail | hsize := hvm.uvmalloc p.memory p.sz _ hle
      · have heq : growproc lay vm p n =
            (⟨p.sz, (vm.uvmalloc p.memory p.sz (p.sz + n.signExtend 64)).1⟩, -1) := by
          simp only [growproc, if_pos hpos, if_neg htop, if_pos hfail]
        rw [heq]
        exact .inl ⟨rfl, rfl⟩
      · have heq : growproc lay vm p n =
            (⟨p.sz + n.signExtend 64,
              (vm.uvmalloc p.memory p.sz (p.sz + n.signExtend 64)).1⟩, 0) := by
          simp only [growproc, if_pos hpos, if_neg htop, hsize, if_neg hne]
        rw [heq]
        exact .inr ⟨rfl, rfl, BitVec.not_lt.mp htop⟩

theorem exact_of_nonneg (hvm : vm.Sized) (hsz : p.sz ≤ lay.trapframe)
    (h : 0 ≤ p.sz.toNat + n.toInt) (t : BitVec 32) : Exact lay p n (sysSbrk lay vm p n t) := by
  have hadd := toNat_add_of_nonneg (lt_of_le_of_lt hsz lay.trapframe_lt) h
  by_cases hgrow : t = lay.sbrkEager ∨ n.toInt < 0
  · obtain ⟨hresult, hsame⟩ | ⟨hresult, hsize, hle⟩ := growproc_moves hvm hsz h
    · have heq : sysSbrk lay vm p n t = ((growproc lay vm p n).1, -1) := by
        simp only [sysSbrk, if_pos hgrow, hresult]
        rfl
      rw [heq]
      exact .inl ⟨rfl, hsame⟩
    · have heq : sysSbrk lay vm p n t = ((growproc lay vm p n).1, p.sz) := by
        simp only [sysSbrk, if_pos hgrow, hresult, lt_irrefl, if_false]
      rw [heq]
      refine .inr ⟨rfl, ?_, ?_⟩
      · rw [hsize]
        exact hadd
      · rw [hsize]
        exact hle
  -- The lazy path.
  · simp only [sysSbrk, if_neg hgrow]
    split
    · exact .inl ⟨rfl, rfl⟩
    · split
      · exact .inl ⟨rfl, rfl⟩
      · rename_i htop
        exact .inr ⟨rfl, hadd, BitVec.not_lt.mp htop⟩

/-- A call that shrinks a process below zero reports success and leaves the size alone. -/
theorem sbrk_below_zero (hvm : vm.Sized) (h : p.sz.toNat + n.toInt < 0) (t : BitVec 32) :
    (sysSbrk lay vm p n t).2 = p.sz ∧ (sysSbrk lay vm p n t).1.sz = p.sz := by
  have hneg : n.toInt < 0 := by omega
  have hadd := toNat_add_of_neg h
  have hge : p.sz + n.signExtend 64 ≥ p.sz := by
    have hbounds := toInt_bounds n
    change p.sz.toNat ≤ (p.sz + n.signExtend 64).toNat
    omega
  have hsize := hvm.uvmdealloc p.memory p.sz (p.sz + n.signExtend 64)
  rw [if_pos hge] at hsize
  have heq : sysSbrk lay vm p n t =
      (⟨(vm.uvmdealloc p.memory p.sz (p.sz + n.signExtend 64)).2,
        (vm.uvmdealloc p.memory p.sz (p.sz + n.signExtend 64)).1⟩, p.sz) := by
    simp only [sysSbrk, growproc, if_pos (Or.inr hneg), if_neg (not_lt.mpr hneg.le), if_pos hneg,
      lt_irrefl, if_false]
  rw [heq]
  exact ⟨rfl, hsize⟩

/-- `sbrk` changes the size by exactly `n` or fails, except when it should fail because the size would
become negative. -/
theorem sbrk_exact_iff (hvm : vm.Sized) (hsz : p.sz ≤ lay.trapframe) (t : BitVec 32) :
    Exact lay p n (sysSbrk lay vm p n t) ↔ 0 ≤ p.sz.toNat + n.toInt := by
  constructor
  · intro hexact
    by_contra hneg
    have hbelow : (sysSbrk lay vm p n t).2 = p.sz ∧ (sysSbrk lay vm p n t).1.sz = p.sz :=
      sbrk_below_zero hvm (not_le.mp hneg) t
    obtain ⟨hresult, hsame⟩ := hbelow
    obtain ⟨hfail, _⟩ | ⟨_, hmoved, _⟩ := hexact
    · exact ne_neg_one (lt_of_le_of_lt hsz lay.trapframe_lt) (hresult.symm.trans hfail)
    · omega
  · intro h
    exact exact_of_nonneg hvm hsz h t

def sv39 : Layout where
  trapframe := 2 ^ 38 - 2 * 4096
  sbrkEager := 1
  trapframe_lt := by decide

def pages (sz : BitVec 64) : ℕ := (sz.toNat + 4095) / 4096

def countingVm : Vm ℕ where
  uvmalloc free oldsz newsz :=
    if newsz < oldsz then (free, oldsz)
    else if pages newsz - pages oldsz ≤ free then (free - (pages newsz - pages oldsz), newsz)
    else (free, 0)
  uvmdealloc free oldsz newsz :=
    if newsz ≥ oldsz then (free, oldsz) else (free + (pages oldsz - pages newsz), newsz)

theorem countingVm_sized : countingVm.Sized where
  uvmalloc free oldsz newsz hle := by
    simp only [countingVm, if_neg (BitVec.not_lt.mpr hle)]
    split
    · exact .inr rfl
    · exact .inl rfl
  uvmdealloc free oldsz newsz := by
    simp only [countingVm]
    split <;> rfl

/-- A process of one page that gives back two pages is told that it did. -/
theorem sbrk_not_exact :
    ¬ ∀ (p : Proc ℕ) (n t : BitVec 32), p.sz ≤ sv39.trapframe →
      Exact sv39 p n (sysSbrk sv39 countingVm p n t) := by
  intro h
  have hexact := h ⟨4096, 10⟩ (-8192) 1 (by decide)
  have hbelow : (sysSbrk sv39 countingVm ⟨4096, 10⟩ (-8192) 1).2 = 4096 ∧
      (sysSbrk sv39 countingVm ⟨4096, 10⟩ (-8192) 1).1.sz = 4096 :=
    sbrk_below_zero countingVm_sized (by decide) 1
  obtain ⟨hfail, _⟩ | ⟨_, hmoved, _⟩ := hexact
  · rw [hbelow.1] at hfail
    exact absurd hfail (by decide)
  · rw [hbelow.2] at hmoved
    exact absurd hmoved (by decide)

theorem sbrk_exact_iff_grow :
    Exact sv39 (⟨4096, 10⟩ : Proc ℕ) 4096 (sysSbrk sv39 countingVm ⟨4096, 10⟩ 4096 1) :=
  (sbrk_exact_iff countingVm_sized (by decide) 1).mpr (by decide)

end MultithreadMayhem.Kernel.Sbrk
