import Mathlib.Data.Set.Card

set_option autoImplicit false

namespace Wissbi.FiniteMaps

variable {κ β : Type*}

/-- The entries are those of the map, each once. -/
structure Lists (entries : List (κ × β)) (m : κ → Option β) : Prop where
  keys : (entries.map Prod.fst).Nodup
  entries : ∀ k b, (k, b) ∈ entries ↔ m k = some b

variable {entries : List (κ × β)} {m : κ → Option β}

theorem Lists.perm (h : Lists entries m) {order : List (κ × β)} (hp : order.Perm entries) :
    Lists order m :=
  ⟨(hp.map Prod.fst).nodup_iff.mpr h.keys, fun k b => hp.mem_iff.trans (h.entries k b)⟩

theorem Lists.mem_keys (h : Lists entries m) (k : κ) :
    k ∈ entries.map Prod.fst ↔ (m k).isSome = true := by
  rw [List.mem_map, Option.isSome_iff_exists]
  constructor
  · rintro ⟨⟨_, b⟩, hmem, rfl⟩
    exact ⟨b, (h.entries _ b).mp hmem⟩
  · rintro ⟨b, hb⟩
    exact ⟨(k, b), (h.entries k b).mpr hb, rfl⟩

theorem Lists.length_eq (h : Lists entries m) :
    entries.length = {k | (m k).isSome = true}.ncard := by
  classical
  have hset : {k | (m k).isSome = true} = ((entries.map Prod.fst).toFinset : Set κ) := by
    ext k
    rw [List.coe_toFinset]
    exact (h.mem_keys k).symm
  rw [hset, Set.ncard_coe_finset, List.toFinset_card_of_nodup h.keys, List.length_map]

section
variable [BEq κ] [LawfulBEq κ]

theorem lookup_iff_mem {l : List (κ × β)} (h : (l.map Prod.fst).Nodup) (k : κ) (b : β) :
    l.lookup k = some b ↔ (k, b) ∈ l := by
  induction l with
  | nil => simp
  | cons e l ih =>
    obtain ⟨k', b'⟩ := e
    obtain ⟨hnot, hrest⟩ := List.nodup_cons.mp h
    by_cases he : k = k'
    · subst he
      have hout : (k, b) ∉ l := fun hm => hnot (List.mem_map.mpr ⟨_, hm, rfl⟩)
      rw [List.lookup_cons_self, List.mem_cons, or_iff_left hout]
      simp [eq_comm]
    · rw [List.lookup_cons, beq_false_of_ne he, List.mem_cons, or_iff_right (by simp [he])]
      exact ih hrest

theorem lookup_filter_key (l : List (κ × β)) (p : κ → Bool) (k : κ) :
    (l.filter fun e => p e.1).lookup k = if p k then l.lookup k else none := by
  induction l with
  | nil => simp
  | cons e l ih =>
    obtain ⟨k', b⟩ := e
    by_cases he : k = k'
    · subst he
      cases hp : p k with
      | true => simp [hp]
      | false => simpa [hp] using ih
    · have hskip : ((k', b) :: l).lookup k = l.lookup k := by
        rw [List.lookup_cons, beq_false_of_ne he]
      rw [hskip, ← ih]
      cases hp : p k' with
      | true => simp [hp, List.lookup_cons, beq_false_of_ne he]
      | false => simp [hp]

end

variable [DecidableEq κ]

def assign (k : κ) (b : β) (entries : List (κ × β)) : List (κ × β) :=
  if k ∈ entries.map Prod.fst then entries.map fun e => if e.1 = k then (k, b) else e
  else (k, b) :: entries

def discard (k : κ) (entries : List (κ × β)) : List (κ × β) := entries.filter fun e => e.1 ≠ k

theorem Lists.assign (h : Lists entries m) (k : κ) (b : β) :
    Lists (assign k b entries) (Function.update m k (some b)) := by
  unfold FiniteMaps.assign
  split_ifs with hk
  · refine ⟨?_, fun k' b' => ?_⟩
    · have hkeys : (entries.map fun e => if e.1 = k then (k, b) else e).map Prod.fst =
          entries.map Prod.fst := by
        rw [List.map_map]
        refine List.map_congr_left fun e _ => ?_
        by_cases he : e.1 = k <;> simp [he]
      rw [hkeys]
      exact h.keys
    · rw [List.mem_map]
      constructor
      · rintro ⟨e, hmem, he⟩
        split_ifs at he with hek
        · cases he
          exact Function.update_self ..
        · subst he
          rw [Function.update_of_ne hek]
          exact (h.entries _ _).mp hmem
      · intro he
        by_cases hkk : k' = k
        · subst hkk
          rw [Function.update_self] at he
          obtain ⟨e, hmem, hek⟩ := List.mem_map.mp hk
          exact ⟨e, hmem, by rw [if_pos hek, Option.some.inj he]⟩
        · rw [Function.update_of_ne hkk] at he
          exact ⟨(k', b'), (h.entries _ _).mpr he, if_neg hkk⟩
  · refine ⟨List.nodup_cons.mpr ⟨hk, h.keys⟩, fun k' b' => ?_⟩
    by_cases he : k' = k
    · subst he
      have hno : (k', b') ∉ entries := fun hm => hk (List.mem_map_of_mem (f := Prod.fst) hm)
      simp [hno, eq_comm]
    · simp [he, h.entries]

theorem Lists.discard (h : Lists entries m) (k : κ) :
    Lists (discard k entries) (Function.update m k none) := by
  refine ⟨h.keys.sublist (List.filter_sublist.map _), fun k' b => ?_⟩
  by_cases he : k' = k
  · subst he
    simp [FiniteMaps.discard]
  · simp [FiniteMaps.discard, he, h.entries]

theorem lookup_assign [BEq κ] [LawfulBEq κ] {l : List (κ × β)} (h : (l.map Prod.fst).Nodup) (k : κ)
    (b : β) (j : κ) :
    ((assign k b l).map Prod.fst).Nodup ∧
      (assign k b l).lookup j = if j = k then some b else l.lookup j := by
  have hl : Lists l fun k => l.lookup k := ⟨h, fun k b => (lookup_iff_mem h k b).symm⟩
  have ha := hl.assign k b
  refine ⟨ha.keys, Option.ext fun c => ?_⟩
  rw [lookup_iff_mem ha.keys, ha.entries]
  by_cases hj : j = k
  · simp [hj]
  · simp [hj]

end Wissbi.FiniteMaps
