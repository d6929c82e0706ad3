import Mathlib.Data.List.Forall2

set_option autoImplicit false

namespace Wissbi.Interleavings

variable {α : Type*}

inductive Interleaves : List (List α) → List α → Prop where
  | nil (parts : List (List α)) (h : ∀ p ∈ parts, p = []) : Interleaves parts []
  | snoc (before after : List (List α)) (p out : List α) (x : α)
      (h : Interleaves (before ++ p :: after) out) :
      Interleaves (before ++ (p ++ [x]) :: after) (out ++ [x])

theorem Interleaves.mem {parts : List (List α)} {out : List α} (h : Interleaves parts out) :
    ∀ x ∈ out, ∃ p ∈ parts, x ∈ p := by
  induction h with
  | nil parts _ => simp
  | snoc before after p out y _ ih =>
    intro x hx
    rcases List.mem_append.mp hx with hx | hx
    · obtain ⟨q, hq, hxq⟩ := ih x hx
      simp only [List.mem_append, List.mem_cons] at hq ⊢
      rcases hq with hq | rfl | hq
      · exact ⟨q, .inl hq, hxq⟩
      · exact ⟨q ++ [y], .inr (.inl rfl), List.mem_append_left _ hxq⟩
      · exact ⟨q, .inr (.inr hq), hxq⟩
    · exact ⟨p ++ [y], by simp, List.mem_append_right _ hx⟩

theorem forall₂_prefix_snoc {parts : List (List α)} (before after : List (List α)) (p : List α)
    (x : α) (h : List.Forall₂ (· <+: ·) parts (before ++ p :: after)) :
    List.Forall₂ (· <+: ·) parts (before ++ (p ++ [x]) :: after) := by
  induction before generalizing parts with
  | nil =>
    cases h with
    | cons hp hrest => exact .cons (hp.trans (List.prefix_append p [x])) hrest
  | cons b before ih =>
    cases h with
    | cons hb hrest => exact .cons hb (ih hrest)

/-- What has come out so far interleaves prefixes of the sequences. -/
theorem Interleaves.first {parts : List (List α)} {out : List α} (h : Interleaves parts out)
    {first : List α} (hp : first <+: out) :
    ∃ prefixes, List.Forall₂ (· <+: ·) prefixes parts ∧ Interleaves prefixes first := by
  induction h with
  | nil parts hnil =>
    refine ⟨parts, List.forall₂_same.mpr fun _ _ => List.prefix_rfl, ?_⟩
    rw [List.prefix_nil.mp hp]
    exact .nil parts hnil
  | snoc before after p out x h ih =>
    rcases List.prefix_concat_iff.mp hp with rfl | hp
    · exact ⟨_, List.forall₂_same.mpr fun _ _ => List.prefix_rfl, .snoc before after p out x h⟩
    · obtain ⟨prefixes, hpre, hint⟩ := ih hp
      exact ⟨prefixes, forall₂_prefix_snoc before after p x hpre, hint⟩

end Wissbi.Interleavings
