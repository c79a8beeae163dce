import Mathlib.Data.List.Basic
import Mathlib.Order.Lattice

/-!
# The first entry with the smallest key

A scan that goes through entries one by one, keeps the best one so far and replaces
it only by an entry with a smaller key ends with the first of the entries whose key
is minimal. Only the entries that satisfy `p` are candidates.
-/

namespace MultithreadMayhem.Foundation

universe u v

variable {E : Type u} {K : Type v} [LinearOrder K] {key : E → K} {p : E → Prop} {es : List E}
  {e a : E}

/-- `e` is the first of the candidates in the list whose key is minimal. -/
def FirstMin (key : E → K) (p : E → Prop) (es : List E) (e : E) : Prop :=
  p e ∧ ∃ l r, es = l ++ e :: r ∧ (∀ a ∈ l, p a → key e < key a) ∧ ∀ a ∈ r, p a → key e ≤ key a

namespace FirstMin

theorem of_none (hes : ∀ a ∈ es, ¬p a) (he : p e) : FirstMin key p (es ++ [e]) e :=
  ⟨he, es, [], rfl, fun a ha hp => absurd hp (hes a ha), nofun⟩

theorem mem (h : FirstMin key p es e) : e ∈ es := by
  obtain ⟨-, l, r, rfl, -, -⟩ := h
  exact List.mem_append_right l List.mem_cons_self

theorem le (h : FirstMin key p es e) (ha : a ∈ es) (hp : p a) : key e ≤ key a := by
  obtain ⟨-, l, r, rfl, hl, hr⟩ := h
  obtain ha | ha := List.mem_append.mp ha
  · exact (hl a ha hp).le
  · obtain rfl | ha := List.mem_cons.mp ha
    · exact le_rfl
    · exact hr a ha hp

theorem keep (h : FirstMin key p es e) (ha : p a → key e ≤ key a) :
    FirstMin key p (es ++ [a]) e := by
  obtain ⟨he, l, r, rfl, hl, hr⟩ := h
  refine ⟨he, l, r ++ [a], by rw [List.append_assoc, List.cons_append], hl, fun b hb hp => ?_⟩
  obtain hb | hb := List.mem_append.mp hb
  · exact hr b hb hp
  · obtain rfl := List.mem_singleton.mp hb
    exact ha hp

theorem replace (h : FirstMin key p es e) (hp : p a) (ha : key a < key e) :
    FirstMin key p (es ++ [a]) a :=
  ⟨hp, es, [], rfl, fun _ hb hp => ha.trans_le (h.le hb hp), nofun⟩

end FirstMin

end MultithreadMayhem.Foundation
