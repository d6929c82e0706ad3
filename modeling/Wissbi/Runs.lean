import Mathlib.Data.Int.ModEq
import Mathlib.Data.List.Basic
import Mathlib.Data.List.Induction

set_option autoImplicit false

/-!
# Runs of a machine given by a partial step function

A machine is `step : σ → α → Option σ`; an action that is not enabled in a state
has no successor there. A schedule is a list of actions, so a statement about
every schedule is a statement about every interleaving of the machine's threads.
-/
namespace Wissbi.Runs

variable {σ α : Type*} (step : σ → α → Option σ)

def run : σ → List α → Option σ
  | s, [] => some s
  | s, a :: as => (step s a).bind (fun t => run t as)

/-- Every step of the schedule meets `P` in the state it is taken from. -/
def Along (P : σ → α → Prop) : σ → List α → Prop
  | _, [] => True
  | s, a :: as => P s a ∧ ∀ t, step s a = some t → Along P t as

variable {step}

theorem run_cons {s u : σ} {a : α} {as : List α} (h : run step s (a :: as) = some u) :
    ∃ t, step s a = some t ∧ run step t as = some u :=
  Option.bind_eq_some_iff.mp h

theorem run_append (s : σ) (as bs : List α) :
    run step s (as ++ bs) = (run step s as).bind (fun t => run step t bs) := by
  induction as generalizing s with
  | nil => rfl
  | cons a as ih =>
    simp only [List.cons_append, run]
    cases h : step s a with
    | none => rfl
    | some t => simpa using ih t

theorem run_isSome_iff (P : α → Prop) {as : List α}
    (enabled : ∀ s, ∀ a ∈ as, (step s a).isSome ↔ P a) (s : σ) :
    (run step s as).isSome ↔ ∀ a ∈ as, P a := by
  induction as generalizing s with
  | nil => simp [run]
  | cons a as ih =>
    have hrest := ih fun s x hx => enabled s x (List.mem_cons_of_mem a hx)
    rw [List.forall_mem_cons, ← enabled s a List.mem_cons_self, run]
    cases h : step s a with
    | none => simp
    | some t => simpa using hrest t

def Reaches (step : σ → α → Option σ) (s t : σ) : Prop := ∃ as, run step s as = some t

theorem Reaches.refl (s : σ) : Reaches step s s := ⟨[], rfl⟩

theorem Reaches.single {s t : σ} {a : α} (h : step s a = some t) : Reaches step s t :=
  ⟨[a], by simp [run, h]⟩

theorem Reaches.trans {s t u : σ} (h : Reaches step s t) (h' : Reaches step t u) :
    Reaches step s u := by
  obtain ⟨as, ha⟩ := h
  obtain ⟨bs, hb⟩ := h'
  exact ⟨as ++ bs, by rw [run_append, ha, Option.bind_some, hb]⟩

/-- The induction rule: what the initial state has and every step keeps, every
reached state has. -/
theorem run_invariant (I : σ → Prop) (keep : ∀ s a t, I s → step s a = some t → I t)
    {s u : σ} {as : List α} (h : run step s as = some u) (hs : I s) : I u := by
  induction as generalizing s with
  | nil =>
    cases h
    exact hs
  | cons a as ih =>
    obtain ⟨t, ht, hu⟩ := run_cons h
    exact ih hu (keep s a t hs ht)

theorem run_invariant_along (P : σ → α → Prop) (I : σ → Prop)
    (keep : ∀ s a t, I s → P s a → step s a = some t → I t)
    {s u : σ} {as : List α} (h : run step s as = some u) (along : Along step P s as)
    (hs : I s) : I u := by
  induction as generalizing s with
  | nil =>
    cases h
    exact hs
  | cons a as ih =>
    obtain ⟨t, ht, hu⟩ := run_cons h
    exact ih hu (along.2 t ht) (keep s a t hs along.1 ht)

theorem along_of_invariant (P Q : σ → α → Prop) (I : σ → Prop)
    (keep : ∀ s a t, I s → P s a → step s a = some t → I t) (imp : ∀ s a, I s → P s a → Q s a)
    {s : σ} {as : List α} (hs : I s) (h : Along step P s as) : Along step Q s as := by
  induction as generalizing s with
  | nil => trivial
  | cons a as ih => exact ⟨imp s a hs h.1, fun t ht => ih (keep s a t hs h.1 ht) (h.2 t ht)⟩

theorem along_of_forall (P : α → Prop) (s : σ) (as : List α) (h : ∀ a ∈ as, P a) :
    Along step (fun _ a => P a) s as := by
  induction as generalizing s with
  | nil => trivial
  | cons a as ih => exact ⟨h a (by simp), fun t _ => ih t fun x hx => h x (by simp [hx])⟩

instance Along.decidable (P : σ → α → Prop) [∀ s a, Decidable (P s a)] :
    ∀ (s : σ) (as : List α), Decidable (Along step P s as)
  | _, [] => isTrue trivial
  | s, a :: as =>
    match h : step s a with
    | none => decidable_of_iff (P s a) ⟨fun hp => ⟨hp, fun t ht => by simp [h] at ht⟩, And.left⟩
    | some t =>
      have := Along.decidable P t as
      decidable_of_iff (P s a ∧ Along step P t as)
        ⟨fun hp => ⟨hp.1, fun u hu => Option.some.inj (h.symm.trans hu) ▸ hp.2⟩,
          fun hp => ⟨hp.1, hp.2 t h⟩⟩

theorem run_adds (f : σ → ℕ) (g : α → ℕ) (keep : ∀ s a t, step s a = some t → f t = f s + g a)
    {s u : σ} {as : List α} (h : run step s as = some u) : f u = f s + (as.map g).sum := by
  induction as generalizing s with
  | nil =>
    cases h
    rfl
  | cons a as ih =>
    obtain ⟨t, ht, hu⟩ := run_cons h
    rw [ih hu, keep s a t ht, List.map_cons, List.sum_cons]
    omega

/-- When every step lowers a measure, by one at least where `p` holds of its action, a run has
no more such steps than the measure allows. -/
theorem run_countP_le (I : σ → Prop) (inv : ∀ s a t, I s → step s a = some t → I t) (f : σ → ℕ)
    (p : α → Bool) (down : ∀ s a t, I s → step s a = some t → f t + (if p a then 1 else 0) ≤ f s)
    {s u : σ} {as : List α} (h : run step s as = some u) (hs : I s) :
    as.countP p + f u ≤ f s := by
  induction as generalizing s with
  | nil =>
    cases h
    simp
  | cons a as ih =>
    obtain ⟨t, ht, hu⟩ := run_cons h
    have hrest := ih hu (inv s a t hs ht)
    have hfirst := down s a t hs ht
    rw [List.countP_cons]
    omega

/-- When every state that is not at the end has a step that lowers a measure, the end can be
reached. -/
theorem reaches_of_measure (I D : σ → Prop) (f : σ → ℕ)
    (next : ∀ s, I s → ¬ D s → ∃ a t, step s a = some t ∧ I t ∧ f t < f s) {s : σ} (hs : I s) :
    ∃ t, Reaches step s t ∧ D t := by
  induction hn : f s using Nat.strong_induction_on generalizing s with
  | _ n ih =>
    by_cases hd : D s
    · exact ⟨s, Reaches.refl s, hd⟩
    · obtain ⟨a, t, ht, hi, hlt⟩ := next s hs hd
      obtain ⟨u, hu, hdu⟩ := ih (f t) (hn ▸ hlt) hi rfl
      exact ⟨u, (Reaches.single ht).trans hu, hdu⟩

theorem along_append (P : σ → α → Prop) {s t : σ} {as : List α} (h : run step s as = some t)
    (bs : List α) :
    Along step P s (as ++ bs) ↔ Along step P s as ∧ Along step P t bs := by
  induction as generalizing s with
  | nil =>
    cases h
    simp [Along]
  | cons b as ih =>
    obtain ⟨u, hu, ht⟩ := run_cons h
    simp only [List.cons_append, Along, hu, Option.some.injEq, forall_eq', ih ht, and_assoc]

theorem along_snoc (P : σ → α → Prop) {s t : σ} {as : List α} (h : run step s as = some t) (a : α) :
    Along step P s (as ++ [a]) ↔ Along step P s as ∧ P t a := by
  rw [along_append P h]
  simp [Along]

def ReachesAlong (step : σ → α → Option σ) (P : σ → α → Prop) (s t : σ) : Prop :=
  ∃ as, run step s as = some t ∧ Along step P s as

theorem ReachesAlong.refl (P : σ → α → Prop) (s : σ) : ReachesAlong step P s s :=
  ⟨[], rfl, trivial⟩

theorem ReachesAlong.single {P : σ → α → Prop} {s t : σ} {a : α} (h : step s a = some t)
    (hp : P s a) : ReachesAlong step P s t :=
  ⟨[a], by simp [run, h], hp, fun _ _ => trivial⟩

theorem ReachesAlong.trans {P : σ → α → Prop} {s t u : σ} (h : ReachesAlong step P s t)
    (h' : ReachesAlong step P t u) : ReachesAlong step P s u := by
  obtain ⟨as, ha, hal⟩ := h
  obtain ⟨bs, hb, hbl⟩ := h'
  refine ⟨as ++ bs, ?_, (along_append P ha bs).mpr ⟨hal, hbl⟩⟩
  rw [run_append, ha, Option.bind_some, hb]

/-- The induction rule with the schedule so far. -/
theorem run_history (I : List α → σ → Prop) {s u : σ} {as : List α} (h : run step s as = some u)
    (hs : I [] s)
    (keep : ∀ bs t b v, run step s bs = some t → I bs t → step t b = some v → I (bs ++ [b]) v) :
    I as u := by
  induction as using List.reverseRecOn generalizing u with
  | nil =>
    cases h
    exact hs
  | append_singleton as a ih =>
    rw [run_append] at h
    obtain ⟨t, ht, hu⟩ := Option.bind_eq_some_iff.mp h
    obtain ⟨v, hv, he⟩ := run_cons hu
    cases he
    exact keep as t a u ht (ih ht) hv

/-- Two quantities that move together but for a loss at some steps stay equal exactly in the
runs without such a step. -/
theorem run_lossless_iff (I : σ → Prop) (inv : ∀ s a t, I s → step s a = some t → I t)
    (f g : σ → ℕ) (P : σ → α → Prop)
    (keep : ∀ s a t, I s → step s a = some t →
      ∃ loss, f t + g s + loss = f s + g t ∧ (loss = 0 ↔ P s a))
    {s u : σ} {as : List α} (h : run step s as = some u) (hs : I s) :
    f u + g s ≤ f s + g u ∧ (f u + g s = f s + g u ↔ Along step P s as) := by
  induction as generalizing s with
  | nil =>
    cases h
    exact ⟨Nat.le_refl _, fun _ => trivial, fun _ => rfl⟩
  | cons a as ih =>
    obtain ⟨t, ht, hu⟩ := run_cons h
    obtain ⟨hle, hiff⟩ := ih hu (inv s a t hs ht)
    obtain ⟨loss, hloss, hzero⟩ := keep s a t hs ht
    refine ⟨by omega, ?_⟩
    simp only [Along, ht, Option.some.injEq, forall_eq', ← hzero, ← hiff]
    omega

def Followed (b : α) (l as : List α) : Prop := ∀ xs ys, as = xs ++ b :: ys → l.Sublist ys

theorem followed_nil (b : α) (as : List α) : Followed b [] as := fun _ ys _ => List.nil_sublist ys

theorem followed_start (b : α) (l : List α) : Followed b l [] := by
  intro xs ys h
  simp at h

theorem followed_cons (b a : α) (l as : List α) :
    Followed b l (a :: as) ↔ (a = b → l.Sublist as) ∧ Followed b l as := by
  constructor
  · intro h
    exact ⟨fun hb => h [] as (by rw [hb]; rfl), fun xs ys he => h (a :: xs) ys (by rw [he]; rfl)⟩
  · rintro ⟨h, ht⟩ xs ys he
    cases xs with
    | nil =>
      cases he
      exact h rfl
    | cons x xs =>
      cases he
      exact ht xs ys rfl

instance Followed.decidable [DecidableEq α] (b : α) (l : List α) :
    ∀ as : List α, Decidable (Followed b l as)
  | [] => isTrue (followed_start b l)
  | a :: as =>
    have := Followed.decidable b l as
    decidable_of_iff _ (followed_cons b a l as).symm

theorem snoc_eq_split {as xs ys : List α} {a b : α} (h : as ++ [a] = xs ++ b :: ys) :
    (a = b ∧ ys = []) ∨ ∃ zs, ys = zs ++ [a] ∧ as = xs ++ b :: zs := by
  rcases List.eq_nil_or_concat ys with rfl | ⟨zs, z, rfl⟩
  · exact .inl ⟨(List.append_singleton_inj.mp h).2, rfl⟩
  · rw [List.concat_eq_append, ← List.cons_append, ← List.append_assoc,
      List.append_singleton_inj] at h
    exact .inr ⟨zs, by rw [List.concat_eq_append, h.2], h.1⟩

theorem snoc_sublist_snoc {l ys : List α} {c a : α} :
    (l ++ [c]).Sublist (ys ++ [a]) ↔ (l ++ [c]).Sublist ys ∨ (a = c ∧ l.Sublist ys) := by
  constructor
  · intro h
    obtain ⟨l₁, l₂, he, h₁, h₂⟩ := List.sublist_append_iff.mp h
    rcases List.sublist_singleton.mp h₂ with rfl | rfl
    · rw [List.append_nil] at he
      exact .inl (he ▸ h₁)
    · obtain ⟨rfl, rfl⟩ := List.append_singleton_inj.mp he
      exact .inr ⟨rfl, h₁⟩
  · rintro (h | ⟨rfl, h⟩)
    · exact h.trans (List.sublist_append_left ys [a])
    · exact h.append (List.Sublist.refl _)

theorem followed_snoc_self (b c : α) (l as : List α) : ¬ Followed b (l ++ [c]) (as ++ [b]) := by
  intro h
  have := h as [] rfl
  simp at this

theorem followed_snoc_last {b c : α} (l as : List α) (hc : c ≠ b) :
    Followed b (l ++ [c]) (as ++ [c]) ↔ Followed b l as := by
  constructor
  · intro h xs ys he
    have hl := h xs (ys ++ [c]) (by rw [he, List.append_assoc, List.cons_append])
    rcases snoc_sublist_snoc.mp hl with hl | hl
    · exact (List.sublist_append_left l [c]).trans hl
    · exact hl.2
  · intro h xs ys he
    rcases snoc_eq_split he with ⟨hb, -⟩ | ⟨zs, rfl, hz⟩
    · exact absurd hb hc
    · exact snoc_sublist_snoc.mpr (.inr ⟨rfl, h xs zs hz⟩)

theorem followed_snoc_other {a b c : α} (l as : List α) (hb : a ≠ b) (hc : a ≠ c) :
    Followed b (l ++ [c]) (as ++ [a]) ↔ Followed b (l ++ [c]) as := by
  constructor
  · intro h xs ys he
    have hl := h xs (ys ++ [a]) (by rw [he, List.append_assoc, List.cons_append])
    rcases snoc_sublist_snoc.mp hl with hl | hl
    · exact hl
    · exact absurd hl.1 hc
  · intro h xs ys he
    rcases snoc_eq_split he with ⟨he, -⟩ | ⟨zs, rfl, hz⟩
    · exact absurd he hb
    · exact snoc_sublist_snoc.mpr (.inl (h xs zs hz))

end Wissbi.Runs
