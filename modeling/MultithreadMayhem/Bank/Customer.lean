import MultithreadMayhem.Pthread.Mutex
import Mathlib.Algebra.Order.BigOperators.Group.Finset

/-!
# Guarded withdrawals

`customer()` of `bank_chaos_fixed.c`. The balance is what the successful
withdrawals have left of the initial one, in every order; a rejection is possible
only when the balance is below the amount, where it stays. Hence the totals do not
depend on the schedule.
-/

namespace MultithreadMayhem.Bank

open Foundation Pthread

structure Locals where
  i : ℕ
  successful : ℕ
  rejected : ℕ
  deriving DecidableEq, Repr

inductive Pc
  | loop (l : Locals)
  | test (l : Locals)
  | load (l : Locals)
  | store (l : Locals) (tmp : Int)
  | succeed (l : Locals)
  | reject (l : Locals)
  | unlock (l : Locals)
  deriving DecidableEq, Repr

/-- `customer()`; `balance -= WITHDRAWAL_AMOUNT` is a load and a store. -/
def customer (attempts : ℕ) (amount : Int) (pc : Pc) (balance : Int) : Act Int PEmpty Pc :=
  match pc with
  | .loop l => if l.i < attempts then .lock (.test l) else .exit
  | .test l => .exec balance (if balance ≥ amount then .load l else .reject l)
  | .load l => .exec balance (.store l balance)
  | .store l tmp => .exec (tmp - amount) (.succeed l)
  | .succeed l => .exec balance (.unlock { l with successful := l.successful + 1 })
  | .reject l => .exec balance (.unlock { l with rejected := l.rejected + 1 })
  | .unlock l => .unlock (.loop { l with i := l.i + 1 })

variable {T : Type}

def code (attempts : T → ℕ) (amount : Int) (t : T) (pc : Pc) (balance : Int) :
    Act Int PEmpty Pc :=
  customer (attempts t) amount pc balance

def bankSystem [Fintype T] [DecidableEq T] (attempts : T → ℕ) (amount balance : Int) :
    System (State T Int PEmpty Pc) (Label T) :=
  Pthread.system (code attempts amount) balance fun _ => .loop ⟨0, 0, 0⟩

def Pc.inside : Pc → Bool
  | .loop _ => false
  | _ => true

def Pc.locals : Pc → Locals
  | .loop l | .test l | .load l | .store l _ | .succeed l | .reject l | .unlock l => l

def Pc.withdrawals : Pc → ℕ
  | .succeed l => l.successful + 1
  | pc => pc.locals.successful

/-- The attempts of the thread that are rejected, the current one included. -/
def Pc.rejections : Pc → ℕ
  | .reject l => l.rejected + 1
  | pc => pc.locals.rejected

theorem code_disciplined (attempts : T → ℕ) (amount : Int) :
    Disciplined (code attempts amount) Pc.inside := by
  intro t pc balance
  cases pc with
  | loop l =>
    simp only [code, customer]
    split
    · exact ⟨rfl, rfl⟩
    · rfl
  | test l =>
    change Pc.inside (ite _ _ _) = _
    split <;> rfl
  | unlock l => exact ⟨rfl, rfl⟩
  | _ => rfl

def Counted (attempts : ℕ) : Pc → Prop
  | .loop l => l.successful + l.rejected = l.i ∧ l.i ≤ attempts
  | .unlock l => l.successful + l.rejected = l.i + 1 ∧ l.i < attempts
  | pc => pc.locals.successful + pc.locals.rejected = pc.locals.i ∧ pc.locals.i < attempts

structure Knows (attempts : ℕ) (amount balance : Int) (pc : Pc) : Prop where
  counted : Counted attempts pc
  nonneg : 0 ≤ balance
  exhausted : 0 < pc.rejections → balance < amount
  sufficient : ∀ l, pc = .load l → amount ≤ balance
  loaded : ∀ l tmp, pc = .store l tmp → tmp = balance ∧ amount ≤ balance

theorem Knows.goto {attempts : ℕ} {amount balance : Int} {pc next : Pc}
    (h : Knows attempts amount balance pc) (hcounted : Counted attempts next)
    (hrejections : next.rejections = pc.rejections) (hload : ∀ l, next ≠ .load l)
    (hstore : ∀ l tmp, next ≠ .store l tmp) : Knows attempts amount balance next where
  counted := hcounted
  nonneg := h.nonneg
  exhausted := hrejections ▸ h.exhausted
  sufficient l hl := absurd hl (hload l)
  loaded l tmp hl := absurd hl (hstore l tmp)

section Rules

variable (attempts : T → ℕ) {amount : Int}

theorem knows_own (t : T) (pc : Pc) (balance : Int)
    (h : Knows (attempts t) amount balance pc) :
    (code attempts amount t pc balance).Leads
      (fun y st => Knows (attempts t) amount y st.pc) balance := by
  cases pc with
  | loop l =>
    simp only [code, customer]
    split
    · exact h.goto ⟨h.counted.1, ‹_›⟩ rfl nofun nofun
    · trivial
  | test l =>
    change Knows _ _ _ (ite _ _ _)
    split
    · exact ⟨h.counted, h.nonneg, h.exhausted, fun _ _ => ‹_›, nofun⟩
    · exact ⟨h.counted, h.nonneg, fun _ => not_le.mp ‹_›, nofun, nofun⟩
  | load l =>
    have hle := h.sufficient l rfl
    refine ⟨h.counted, h.nonneg, h.exhausted, nofun, ?_⟩
    intro l' tmp heq
    cases heq
    exact ⟨rfl, hle⟩
  | store l tmp =>
    obtain ⟨rfl, hle⟩ := h.loaded l tmp rfl
    refine ⟨h.counted, Int.sub_nonneg.mpr hle, ?_, nofun, nofun⟩
    intro hpos
    have := h.exhausted hpos
    omega
  | succeed l =>
    have hcount := h.counted
    simp only [Counted, Pc.locals] at hcount
    exact h.goto ⟨by simp only; omega, hcount.2⟩ rfl nofun nofun
  | reject l =>
    have hcount := h.counted
    simp only [Counted, Pc.locals] at hcount
    exact h.goto ⟨by simp only; omega, hcount.2⟩ rfl nofun nofun
  | unlock l => exact h.goto ⟨h.counted.1, h.counted.2⟩ rfl nofun nofun

theorem code_le (hamount : 1 ≤ amount) (t : T) (pc : Pc) (balance : Int)
    (h : Knows (attempts t) amount balance pc) :
    (code attempts amount t pc balance).Leads
      (fun y _ => y = balance ∨ pc.inside = true ∧ 0 ≤ y ∧ y ≤ balance) balance := by
  cases pc with
  | loop l =>
    simp only [code, customer]
    split
    · exact .inl rfl
    · trivial
  | store l tmp =>
    obtain ⟨rfl, hle⟩ := h.loaded l tmp rfl
    exact .inr ⟨rfl, Int.sub_nonneg.mpr hle, Int.sub_le_self tmp (by omega)⟩
  | _ => exact .inl rfl

theorem knows_rule (hamount : 1 ≤ amount) :
    RelyRule (code attempts amount) (OneInside Pc.inside)
      (fun t balance pc => Knows (attempts t) amount balance pc) where
  own := knows_own attempts
  others t u pc q balance _ hone h h' := by
    apply (code_le attempts hamount u q balance h').imp
    rintro y _ (rfl | ⟨hq, hnonneg, hle⟩)
    · exact h
    · have hout := hone hq
      refine ⟨h.counted, hnonneg, fun hpos => lt_of_le_of_lt hle (h.exhausted hpos), ?_, ?_⟩
      · rintro l rfl
        cases hout
      · rintro l tmp rfl
        cases hout

theorem withdrawals_rule : TallyRule (code attempts amount)
    (fun t balance pc => Knows (attempts t) amount balance pc) id
    (fun _ pc => -(amount * pc.withdrawals)) := by
  intro t pc balance h
  cases pc with
  | loop l =>
    simp only [code, customer]
    split
    · rfl
    · trivial
  | test l =>
    change balance + _ = balance + -(amount * (Pc.withdrawals (ite _ _ _) : ℕ))
    split <;> rfl
  | store l tmp =>
    obtain ⟨rfl, _⟩ := h.loaded l tmp rfl
    change tmp - amount + -(amount * (l.successful : Int)) =
      tmp + -(amount * ((l.successful + 1 : ℕ) : Int))
    push_cast
    ring
  | _ => rfl

end Rules

section Reachable

variable [Fintype T] [DecidableEq T] {attempts : T → ℕ} {amount balance : Int}
variable {s : State T Int PEmpty Pc}

theorem reachable_knows (hamount : 1 ≤ amount) (hbalance : 0 ≤ balance)
    (h : (bankSystem attempts amount balance).Reachable s) (t : T) :
    Knows (attempts t) amount s.shared (s.status t).pc := by
  refine (knows_rule attempts hamount).reachable_mutex (code_disciplined attempts amount)
    (fun _ => rfl) (fun _ => ?_) h t
  exact ⟨⟨rfl, Nat.zero_le _⟩, hbalance, fun hpos => absurd hpos (lt_irrefl 0), nofun, nofun⟩

theorem reachable_withdrawals (hamount : 1 ≤ amount) (hbalance : 0 ≤ balance)
    (h : (bankSystem attempts amount balance).Reachable s) :
    s.shared = balance - amount * ∑ t, ((s.status t).pc.withdrawals : Int) := by
  have hsum := (withdrawals_rule attempts).reachable
    (fun _ hs => reachable_knows hamount hbalance hs) (fun _ => by simp [Pc.withdrawals, Pc.locals]) h
  rw [Finset.sum_neg_distrib, ← Finset.mul_sum] at hsum
  exact hsum

/-- The value of a customer's counter of successful withdrawals. -/
def successful (s : State T Int PEmpty Pc) (t : T) : ℕ := (s.status t).pc.locals.successful

def rejected (s : State T Int PEmpty Pc) (t : T) : ℕ := (s.status t).pc.locals.rejected

def Finished (attempts : T → ℕ) (amount : Int) (s : State T Int PEmpty Pc) : Prop :=
  ∀ t, ∃ pc, s.status t = .running pc ∧ code attempts amount t pc s.shared = .exit

omit [Fintype T] [DecidableEq T] in
theorem eq_loop_of_exit {t : T} {pc : Pc} {x : Int}
    (h : code attempts amount t pc x = .exit) : ∃ l, pc = .loop l ∧ attempts t ≤ l.i := by
  cases pc with
  | loop l =>
    simp only [code, customer] at h
    split at h
    · cases h
    · exact ⟨l, rfl, not_lt.mp ‹_›⟩
  | _ => cases h

theorem conserved (hamount : 1 ≤ amount) (hbalance : 0 ≤ balance)
    (h : (bankSystem attempts amount balance).Reachable s) (hfree : s.mutex = none) :
    0 ≤ s.shared ∧ s.shared = balance - amount * ∑ t, (successful s t : Int) := by
  have hg : Guarded (code attempts amount) Pc.inside s :=
    reachable_guarded (code_disciplined attempts amount) (fun _ => rfl) h
  have hsum := reachable_withdrawals hamount hbalance h
  have hsame : ∀ t, (s.status t).pc.withdrawals = successful s t := by
    intro t
    have hout := hg.outside_of_free hfree t
    rw [successful]
    generalize (s.status t).pc = pc at hout
    cases pc <;> first | rfl | cases hout
  simp only [hsame] at hsum
  refine ⟨?_, hsum⟩
  obtain hempty | ⟨⟨t⟩⟩ := isEmpty_or_nonempty T
  · simp only [Finset.univ_eq_empty, Finset.sum_empty, mul_zero, sub_zero] at hsum
    rwa [hsum]
  · exact (reachable_knows hamount hbalance h t).nonneg

theorem finished_counts (hamount : 1 ≤ amount) (hbalance : 0 ≤ balance)
    (h : (bankSystem attempts amount balance).Reachable s) (hfinished : Finished attempts amount s)
    (t : T) : successful s t + rejected s t = attempts t := by
  obtain ⟨pc, hs, hexit⟩ := hfinished t
  obtain ⟨l, rfl, hle⟩ := eq_loop_of_exit hexit
  have hcounted := (reachable_knows hamount hbalance h t).counted
  simp only [successful, rejected]
  rw [hs] at hcounted ⊢
  change l.successful + l.rejected = l.i ∧ l.i ≤ attempts t at hcounted
  change l.successful + l.rejected = attempts t
  omega

/-- The withdrawals end when the attempts or the balance are used up, whichever is first. -/
theorem total_eq_min {total all : ℕ} {w b rest : Int} (hw : 1 ≤ w) (hrest : 0 ≤ rest)
    (hb : rest = b - w * total) (hle : total ≤ all) (hend : total < all → rest < w) :
    (total : Int) = min (all : Int) (b / w) := by
  have hdiv : b / w = total + rest / w := by
    have hsplit : b = rest + w * total := by omega
    rw [hsplit, Int.add_mul_ediv_left _ _ (by omega), add_comm]
  have hquot : 0 ≤ rest / w := Int.ediv_nonneg hrest (by omega)
  obtain hlt | rfl := Nat.lt_or_eq_of_le hle
  · rw [hdiv, Int.ediv_eq_zero_of_lt hrest (hend hlt), add_zero, min_eq_right (by omega)]
  · rw [min_eq_left (by omega)]

/-- With the lock free the balance is what the successful withdrawals have left; at the end the
totals are the same for every schedule. -/
theorem withdrawals_schedule_independent (hamount : 1 ≤ amount) (hbalance : 0 ≤ balance)
    (h : (bankSystem attempts amount balance).Reachable s) :
    (s.mutex = none →
      0 ≤ s.shared ∧ s.shared = balance - amount * ∑ t, (successful s t : Int)) ∧
    (Finished attempts amount s →
      (∑ t, (successful s t : Int)) = min (∑ t, (attempts t : Int)) (balance / amount) ∧
      s.shared = balance - amount * min (∑ t, (attempts t : Int)) (balance / amount) ∧
      ∀ t, successful s t + rejected s t = attempts t) := by
  refine ⟨conserved hamount hbalance h, fun hfinished => ?_⟩
  have hg : Guarded (code attempts amount) Pc.inside s :=
    reachable_guarded (code_disciplined attempts amount) (fun _ => rfl) h
  have hcounts := finished_counts hamount hbalance h hfinished
  have hfree : s.mutex = none := by
    cases hm : s.mutex with
    | none => rfl
    | some t =>
      obtain ⟨pc, hs, hin⟩ := (hg.holder t).mp hm
      obtain ⟨pc', hs', hexit⟩ := hfinished t
      obtain ⟨l, rfl, _⟩ := eq_loop_of_exit hexit
      rw [hs] at hs'
      cases hs'
      cases hin
  obtain ⟨hnonneg, hrest⟩ := conserved hamount hbalance h hfree
  have htotal : (∑ t, (successful s t : Int)) =
      min (∑ t, (attempts t : Int)) (balance / amount) := by
    have hle : ∑ t, successful s t ≤ ∑ t, attempts t :=
      Finset.sum_le_sum fun t _ => by have := hcounts t; omega
    have hmin := total_eq_min hamount hnonneg (by push_cast; exact hrest) hle ?_
    · push_cast at hmin
      exact hmin
    -- If an attempt is missing somebody was rejected.
    · intro hlt
      obtain ⟨t, _, ht⟩ := Finset.exists_lt_of_sum_lt hlt
      have hreject : 0 < rejected s t := by
        have := hcounts t
        omega
      obtain ⟨pc, hs, hexit⟩ := hfinished t
      obtain ⟨l, rfl, _⟩ := eq_loop_of_exit hexit
      apply (reachable_knows hamount hbalance h t).exhausted
      simp only [rejected] at hreject
      rw [hs] at hreject ⊢
      exact hreject
  exact ⟨htotal, htotal ▸ hrest, hcounts⟩

end Reachable

theorem withdrawals_schedule_independent_three :
    ∃ s, (bankSystem (T := Fin 2) (fun _ => 3) 2 7).Reachable s ∧ s.shared = 1 := by
  let M := bankSystem (T := Fin 2) (fun _ => 3) 2 7
  let labels : List (Label (Fin 2)) := List.replicate 6 (.run 0) ++ List.replicate 12 (.run 1) ++
    List.replicate 8 (.run 0) ++ List.replicate 4 (.run 1)
  let s := (M.run M.init labels).get rfl
  have hreach : M.Reachable s := System.reachable_of_run labels rfl
  have hfinal := (withdrawals_schedule_independent (by decide) (by decide) hreach).2 fun
    | 0 => ⟨_, rfl, rfl⟩
    | 1 => ⟨_, rfl, rfl⟩
  refine ⟨s, hreach, hfinal.2.1.trans ?_⟩
  decide

/-- The counters of the single customers are not the same for every schedule. -/
theorem split_depends_on_schedule :
    ∃ (attempts : Fin 2 → ℕ) (amount balance : Int) (s s' : State (Fin 2) Int PEmpty Pc),
      1 ≤ amount ∧ 0 ≤ balance ∧
      (bankSystem attempts amount balance).Reachable s ∧ Finished attempts amount s ∧
      (bankSystem attempts amount balance).Reachable s' ∧ Finished attempts amount s' ∧
      ∀ t, successful s t ≠ successful s' t := by
  let M := bankSystem (T := Fin 2) (fun _ => 1) 1 1
  -- The first customer takes all the money and the other one finds none.
  let schedule (first second : Fin 2) : List (Label (Fin 2)) :=
    List.replicate 6 (.run first) ++ List.replicate 4 (.run second)
  let s := (M.run M.init (schedule 0 1)).get rfl
  let s' := (M.run M.init (schedule 1 0)).get rfl
  have hs : M.Reachable s := System.reachable_of_run (schedule 0 1) rfl
  have hs' : M.Reachable s' := System.reachable_of_run (schedule 1 0) rfl
  have hfinished : Finished (fun _ => 1) 1 s := fun
    | 0 => ⟨_, rfl, rfl⟩
    | 1 => ⟨_, rfl, rfl⟩
  have hfinished' : Finished (fun _ => 1) 1 s' := fun
    | 0 => ⟨_, rfl, rfl⟩
    | 1 => ⟨_, rfl, rfl⟩
  exact ⟨fun _ => 1, 1, 1, s, s', by decide, by decide, hs, hfinished, hs', hfinished', by decide⟩

end MultithreadMayhem.Bank
