import Mathlib.Algebra.BigOperators.Group.List.Basic
import Mathlib.Data.Int.ModEq

set_option autoImplicit false

namespace Wissbi.ThreadPool

variable {τ : Type*}

theorem split_at {pool : List τ} {i : ℕ} {t : τ} (h : pool[i]? = some t) :
    ∃ before after, pool = before ++ t :: after ∧
      ∀ u, pool.set i u = before ++ u :: after := by
  obtain ⟨hi, rfl⟩ := List.getElem?_eq_some_iff.mp h
  refine ⟨pool.take i, pool.drop (i + 1), ?_, ?_⟩
  · rw [List.getElem_cons_drop hi, List.take_append_drop]
  · intro u
    rw [List.set_eq_take_append_cons_drop, if_pos hi]

def total (f : τ → ℕ) (pool : List τ) : ℕ := (pool.map f).sum

@[simp] theorem total_nil (f : τ → ℕ) : total f [] = 0 := rfl

@[simp] theorem total_append (f : τ → ℕ) (a b : List τ) :
    total f (a ++ b) = total f a + total f b := by
  simp [total]

@[simp] theorem total_cons (f : τ → ℕ) (t : τ) (a : List τ) :
    total f (t :: a) = f t + total f a := by
  simp [total]

/-- The sum over the pool before and after a step of one thread. -/
theorem total_set (f : τ → ℕ) {pool : List τ} {i : ℕ} {t : τ} (h : pool[i]? = some t) (u : τ) :
    total f (pool.set i u) + f t = total f pool + f u := by
  obtain ⟨before, after, rfl, hset⟩ := split_at h
  rw [hset]
  simp only [total_append, total_cons]
  omega

theorem total_eq_zero (f : τ → ℕ) {pool : List τ} (h : ∀ t ∈ pool, f t = 0) : total f pool = 0 := by
  rw [total, List.sum_eq_zero_iff_forall_eq_nat]
  exact List.forall_mem_map.mpr h

theorem le_total (f : τ → ℕ) {pool : List τ} {t : τ} (h : t ∈ pool) : f t ≤ total f pool := by
  obtain ⟨before, after, rfl⟩ := List.append_of_mem h
  simp only [total_append, total_cons]
  omega

theorem forall_set {P : τ → Prop} {pool : List τ} {i : ℕ} {u : τ} (h : ∀ t ∈ pool, P t) (hu : P u) :
    ∀ t ∈ pool.set i u, P t := by
  intro t ht
  rcases List.mem_or_eq_of_mem_set ht with hm | rfl
  · exact h t hm
  · exact hu

end Wissbi.ThreadPool
