import Mathlib.Data.Fintype.Card
import Mathlib.Data.Finset.Card
import Mathlib.Tactic.Ring

/-!
# Counting the threads in a given condition

The counters of a monitor count threads. `countThreads P f` is the number of
threads whose state satisfies `P`; one step changes the state of one thread, so
the number moves by what that thread contributes before and after.
-/

namespace MultithreadMayhem.Foundation

universe u v

variable {T : Type u} {α : Type v} [Fintype T]

def countThreads (P : α → Bool) (f : T → α) : ℕ :=
  (Finset.univ.filter fun t => P (f t) = true).card

theorem countThreads_pos_iff {P : α → Bool} {f : T → α} :
    0 < countThreads P f ↔ ∃ t, P (f t) = true := by
  rw [countThreads, Finset.card_pos]
  constructor
  · rintro ⟨t, ht⟩
    exact ⟨t, (Finset.mem_filter.mp ht).2⟩
  · rintro ⟨t, ht⟩
    exact ⟨t, Finset.mem_filter.mpr ⟨Finset.mem_univ t, ht⟩⟩

theorem countThreads_eq_zero_iff {P : α → Bool} {f : T → α} :
    countThreads P f = 0 ↔ ∀ t, P (f t) = false := by
  constructor
  · intro h t
    by_contra ht
    have hpos : 0 < countThreads P f := countThreads_pos_iff.mpr ⟨t, by simpa using ht⟩
    omega
  · intro h
    by_contra hne
    obtain ⟨t, ht⟩ := countThreads_pos_iff.mp (Nat.pos_of_ne_zero hne)
    rw [h t] at ht
    cases ht

theorem two_le_countThreads {P : α → Bool} {f : T → α} {t u : T} (hne : t ≠ u)
    (ht : P (f t) = true) (hu : P (f u) = true) : 2 ≤ countThreads P f := by
  apply Finset.one_lt_card.mpr
  exact ⟨t, Finset.mem_filter.mpr ⟨Finset.mem_univ t, ht⟩, u,
    Finset.mem_filter.mpr ⟨Finset.mem_univ u, hu⟩, hne⟩

theorem countThreads_congr {P Q : α → Bool} {f g : T → α} (h : ∀ t, P (f t) = Q (g t)) :
    countThreads P f = countThreads Q g := by
  simp only [countThreads, h]

theorem countThreads_mono {P Q : α → Bool} {f g : T → α}
    (h : ∀ t, P (f t) = true → Q (g t) = true) : countThreads P f ≤ countThreads Q g :=
  Finset.card_le_card (Finset.monotone_filter_right _ fun t _ ht => h t ht)

theorem countThreads_or {P Q : α → Bool} {f : T → α} (h : ∀ a, P a = true → Q a = false) :
    countThreads (fun a => P a || Q a) f = countThreads P f + countThreads Q f := by
  classical
  have hdisjoint : Disjoint (Finset.univ.filter fun t => P (f t) = true)
      (Finset.univ.filter fun t => Q (f t) = true) := by
    rw [Finset.disjoint_filter]
    intro t _ hp
    simp [h _ hp]
  simp only [countThreads, Bool.or_eq_true]
  rw [Finset.filter_or, Finset.card_union_of_disjoint hdisjoint]

theorem countThreads_update [DecidableEq T] (P : α → Bool) (f : T → α) (t : T) (a : α) :
    countThreads P (Function.update f t a) + (P (f t)).toNat = countThreads P f + (P a).toNat := by
  have split (g : T → α) : countThreads P g =
      (P (g t)).toNat + ((Finset.univ.erase t).filter fun u => P (g u) = true).card := by
    rw [countThreads, ← Finset.insert_erase (Finset.mem_univ t), Finset.filter_insert]
    cases hp : P (g t) with
    | false => simp
    | true =>
      rw [if_pos rfl, Finset.card_insert_of_notMem (by simp)]
      simp [Nat.add_comm]
  have rest : (Finset.univ.erase t).filter (fun u => P (Function.update f t a u) = true) =
      (Finset.univ.erase t).filter fun u => P (f u) = true := by
    apply Finset.filter_congr
    intro u hu
    rw [Function.update_of_ne (Finset.ne_of_mem_erase hu)]
  rw [split (Function.update f t a), split f, rest, Function.update_self]
  ring

end MultithreadMayhem.Foundation
