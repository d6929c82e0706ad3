import Mathlib.Data.Finset.Basic
import Mathlib.Data.List.Basic
import Mathlib.Logic.Function.Basic
import Wissbi.Runs

set_option autoImplicit false

namespace Wissbi.Descriptors

inductive Op (V : Type) where
  | opens (v : V)
  | requires (v : V)
  | uses (v : V)
  | closes (v : V)
  | assigns (v w : V)
  | spawns
  deriving DecidableEq, Repr

/-- A variable holds a number, with the open file description that the number stood for when
it was given out, or `-1`. -/
structure Thread (V : Type) where
  vars : V → Option (ℕ × ℕ)
  code : List (Op V)

/-- The open file description of each number that is in use. -/
structure State (V : Type) where
  table : ℕ → Option ℕ
  fresh : ℕ
  threads : List (Thread V)
  exited : Bool

section
variable {V κ : Type} [DecidableEq V] (give : Option V) (child : κ → List (Op V))

def own (owned : Finset V) : Op V → Option (Finset V)
  | .opens v => if v ∈ owned then none else some (insert v owned)
  | .requires v => if v ∈ owned then none else some (insert v owned)
  | .uses v => if v ∈ owned then some owned else none
  | .closes v => if v ∈ owned then some (owned.erase v) else none
  | .assigns v w => if w ∈ owned ∧ v ∉ owned then some (insert v (owned.erase w)) else none
  | .spawns => match give with
    | none => some owned
    | some g => if g ∈ owned then some (owned.erase g) else none

def check (owned : Finset V) : List (Op V) → Option (Finset V)
  | [] => some owned
  | op :: code => (own give owned op).bind fun owned' => check owned' code

def State.goto (s : State V) (i : ℕ) (vars : V → Option (ℕ × ℕ)) (code : List (Op V)) : State V :=
  { s with threads := s.threads.set i ⟨vars, code⟩ }

def State.opened (s : State V) (i : ℕ) (vars : V → Option (ℕ × ℕ)) (code : List (Op V)) (v : V)
    (fd : ℕ) : State V :=
  { s with
    table := Function.update s.table fd (some s.fresh)
    fresh := s.fresh + 1
    threads := s.threads.set i ⟨Function.update vars v (some (fd, s.fresh)), code⟩ }

/-- A new thread; where it is to take over the variable `give`, only if that is positive. -/
def State.spawn (s : State V) (i : ℕ) (vars : V → Option (ℕ × ℕ)) (code new : List (Op V)) :
    State V :=
  let s' := s.goto i vars code
  match give with
  | none => { s' with threads := s'.threads ++ [⟨fun _ => none, new⟩] }
  | some g =>
    match vars g with
    | some (n + 1, d) =>
      { s' with
        threads := s'.threads ++ [⟨Function.update (fun _ => none) g (some (n + 1, d)), new⟩] }
    | _ => s'

/-- The next call of thread `i`. The kernel answers with `result`, and a new thread behaves as
`k` says. -/
def step (s : State V) (a : ℕ × Option ℕ × κ) : Option (State V) :=
  if s.exited then none
  else (s.threads[a.1]?).bind fun t =>
    match t.code with
    | [] => none
    | .opens v :: code =>
      match a.2.1 with
      | none => some (s.goto a.1 (Function.update t.vars v none) code)
      | some fd => if s.table fd = none then some (s.opened a.1 t.vars code v fd) else none
    | .requires v :: code =>
      match a.2.1 with
      | none => some { s with exited := true }
      | some fd => if s.table fd = none then some (s.opened a.1 t.vars code v fd) else none
    | .uses _ :: code => some (s.goto a.1 t.vars code)
    | .closes v :: code =>
      -- `close` of a number that is not in use fails and changes nothing
      let s' := s.goto a.1 t.vars code
      some ((t.vars v).elim s' fun r => { s' with table := Function.update s.table r.1 none })
    | .assigns v w :: code => some (s.goto a.1 (Function.update t.vars v (t.vars w)) code)
    | .spawns :: code => some (s.spawn give a.1 t.vars code (child a.2.2))

def start (table : ℕ → Option ℕ) (fresh : ℕ) (main : List (Op V)) : State V :=
  ⟨table, fresh, [⟨fun _ => none, main⟩], false⟩

end

section
variable {V κ : Type} {s s' : State V} {owned owned' : ℕ → Finset V}

def Holds (s : State V) (owned : ℕ → Finset V) (i : ℕ) (v : V) (fd d : ℕ) : Prop :=
  ∃ t, s.threads[i]? = some t ∧ v ∈ owned i ∧ t.vars v = some (fd, d)

variable [DecidableEq V]

/-- Nothing is open but what was open at the start, what some variable owns, and a descriptor
zero that was not passed on. -/
structure Disciplined (give : Option V) (base : ℕ → Option ℕ) (last : ℕ → Finset V) (s : State V)
    (owned : ℕ → Finset V) : Prop where
  code : ∀ i t, s.threads[i]? = some t → check give (owned i) t.code = some (last i)
  live : ∀ i v fd d, Holds s owned i v fd d → s.table fd = some d
  unique : ∀ i v j w fd fd' d, Holds s owned i v fd d → Holds s owned j w fd' d → i = j ∧ v = w
  accounted : ∀ fd d, s.table fd = some d →
    base fd = some d ∨ (give ≠ none ∧ fd = 0) ∨ ∃ i v, Holds s owned i v fd d
  kept : ∀ fd d, base fd = some d → s.table fd = some d ∧ ∀ i v fd', ¬ Holds s owned i v fd' d
  fresh : ∀ fd d, s.table fd = some d → d < s.fresh

variable {give : Option V} {base : ℕ → Option ℕ} {last : ℕ → Finset V}

theorem Disciplined.moved (h : Disciplined give base last s owned)
    (htable : s'.table = s.table) (hfresh : s'.fresh = s.fresh)
    (hcode : ∀ i t, s'.threads[i]? = some t → check give (owned' i) t.code = some (last i))
    (f : ℕ × V → ℕ × V)
    (back : ∀ i v fd d, Holds s' owned' i v fd d → Holds s owned (f (i, v)).1 (f (i, v)).2 fd d)
    (inj : ∀ p q fd fd' d d', Holds s' owned' p.1 p.2 fd d → Holds s' owned' q.1 q.2 fd' d' →
      f p = f q → p = q)
    (forth : ∀ i v fd d, Holds s owned i v fd d →
      (give ≠ none ∧ fd = 0) ∨ ∃ j w, Holds s' owned' j w fd d) :
    Disciplined give base last s' owned' where
  code := hcode
  live := by
    intro i v fd d hh
    rw [htable]
    exact h.live _ _ _ _ (back i v fd d hh)
  unique := by
    intro i v j w fd fd' d hi hj
    obtain ⟨h₁, h₂⟩ := h.unique _ _ _ _ _ _ _ (back i v fd d hi) (back j w fd' d hj)
    have := inj (i, v) (j, w) fd fd' d d hi hj (Prod.ext h₁ h₂)
    exact ⟨congrArg Prod.fst this, congrArg Prod.snd this⟩
  accounted := by
    intro fd d hd
    rw [htable] at hd
    rcases h.accounted fd d hd with hb | h0 | ⟨i, v, hh⟩
    · exact .inl hb
    · exact .inr (.inl h0)
    · exact .inr (forth i v fd d hh)
  kept := by
    intro fd d hb
    obtain ⟨hd, hnot⟩ := h.kept fd d hb
    rw [htable]
    exact ⟨hd, fun i v fd' hh => hnot _ _ _ (back i v fd' d hh)⟩
  fresh := by
    rw [htable, hfresh]
    exact h.fresh

omit [DecidableEq V] in
theorem holds_iff {i : ℕ} {t : Thread V} (ht : s.threads[i]? = some t) (v : V) (fd d : ℕ) :
    Holds s owned i v fd d ↔ v ∈ owned i ∧ t.vars v = some (fd, d) := by
  simp [Holds, ht]

omit [DecidableEq V] in
theorem holds_self {i : ℕ} {t u : Thread V} (ht : s.threads[i]? = some t)
    (hs : s'.threads = s.threads.set i u) (mine : Finset V) (v : V) (fd d : ℕ) :
    Holds s' (Function.update owned i mine) i v fd d ↔ v ∈ mine ∧ u.vars v = some (fd, d) := by
  have hi := (List.getElem?_eq_some_iff.mp ht).1
  simp [Holds, hs, hi]

omit [DecidableEq V] in
theorem holds_other {i j : ℕ} {u : Thread V} (hs : s'.threads = s.threads.set i u)
    (mine : Finset V) (hj : j ≠ i) (v : V) (fd d : ℕ) :
    Holds s' (Function.update owned i mine) j v fd d ↔ Holds s owned j v fd d := by
  simp [Holds, hs, List.getElem?_set_ne hj.symm, Function.update_of_ne hj]

theorem code_set (h : Disciplined give base last s owned) {i : ℕ} {u : Thread V} {mine : Finset V}
    (hs : s'.threads = s.threads.set i u) (hu : check give mine u.code = some (last i)) (j : ℕ)
    (t' : Thread V) (ht' : s'.threads[j]? = some t') :
    check give (Function.update owned i mine j) t'.code = some (last j) := by
  rw [hs] at ht'
  by_cases hj : j = i
  · subst hj
    rw [List.getElem?_set_self' ] at ht'
    obtain ⟨_, -, rfl⟩ := Option.map_eq_some_iff.mp ht'
    rw [Function.update_self]
    exact hu
  · rw [List.getElem?_set_ne (Ne.symm hj)] at ht'
    rw [Function.update_of_ne hj]
    exact h.code j t' ht'

theorem Disciplined.goto (h : Disciplined give base last s owned) {i : ℕ} {t : Thread V}
    (ht : s.threads[i]? = some t) {vars : V → Option (ℕ × ℕ)} {code : List (Op V)}
    {mine : Finset V} (hu : check give mine code = some (last i)) (f : V → V)
    (back : ∀ v r, v ∈ mine → vars v = some r → f v ∈ owned i ∧ t.vars (f v) = some r)
    (inj : ∀ v w, v ∈ mine → w ∈ mine → f v = f w → v = w)
    (forth : ∀ v r, v ∈ owned i → t.vars v = some r →
      (give ≠ none ∧ r.1 = 0) ∨ ∃ w ∈ mine, vars w = some r) :
    Disciplined give base last (s.goto i vars code) (Function.update owned i mine) := by
  have hs : (s.goto i vars code).threads = s.threads.set i ⟨vars, code⟩ := rfl
  refine h.moved rfl rfl (code_set h hs hu)
    (fun p => if p.1 = i then (i, f p.2) else p) ?_ ?_ ?_
  · intro j v fd d hh
    by_cases hj : j = i
    · subst hj
      rw [holds_self ht hs] at hh
      obtain ⟨hv, hvar⟩ := back v (fd, d) hh.1 hh.2
      rw [if_pos rfl]
      exact ⟨t, ht, hv, hvar⟩
    · rw [holds_other hs mine hj] at hh
      rw [if_neg hj]
      exact hh
  · rintro ⟨j, v⟩ ⟨k, w⟩ fd fd' d d' hv hw he
    by_cases hj : j = i
    · by_cases hk : k = i
      · subst hj hk
        rw [holds_self ht hs] at hv hw
        simp only [↓reduceIte, Prod.mk.injEq, true_and] at he
        rw [inj v w hv.1 hw.1 he]
      · simp only [if_pos hj, if_neg hk, Prod.mk.injEq] at he
        exact absurd he.1.symm hk
    · by_cases hk : k = i
      · simp only [if_neg hj, if_pos hk, Prod.mk.injEq] at he
        exact absurd he.1 hj
      · simpa only [hj, hk, ↓reduceIte] using he
  · intro j v fd d hh
    by_cases hj : j = i
    · subst hj
      obtain ⟨hv, hvar⟩ := (holds_iff ht v fd d).mp hh
      apply (forth v (fd, d) hv hvar).imp_right
      rintro ⟨w, hw, hwar⟩
      exact ⟨j, w, (holds_self ht hs mine w fd d).mpr ⟨hw, hwar⟩⟩
    · exact .inr ⟨j, v, (holds_other hs mine hj v fd d).mpr hh⟩

theorem holds_opened {i : ℕ} {t : Thread V} (ht : s.threads[i]? = some t) {v : V}
    (hv : v ∉ owned i) (fd : ℕ) (code : List (Op V)) (j : ℕ) (w : V) (n d : ℕ) :
    Holds (s.opened i t.vars code v fd) (Function.update owned i (insert v (owned i))) j w n d ↔
      (j = i ∧ w = v ∧ n = fd ∧ d = s.fresh) ∨ Holds s owned j w n d := by
  have hs : (s.opened i t.vars code v fd).threads =
      s.threads.set i ⟨Function.update t.vars v (some (fd, s.fresh)), code⟩ := rfl
  by_cases hj : j = i
  · subst hj
    rw [holds_self ht hs, holds_iff ht]
    by_cases hw : w = v
    · subst hw
      simp only [Finset.mem_insert_self, Function.update_self, Option.some.injEq, Prod.mk.injEq,
        true_and, hv, false_and, or_false]
      exact and_congr eq_comm eq_comm
    · simp [hw]
  · rw [holds_other hs _ hj]
    simp [hj]

theorem Disciplined.opened (h : Disciplined give base last s owned) {i : ℕ} {t : Thread V}
    (ht : s.threads[i]? = some t) {v : V} (hv : v ∉ owned i) {fd : ℕ} (hfd : s.table fd = none)
    {code : List (Op V)} (hu : check give (insert v (owned i)) code = some (last i)) :
    Disciplined give base last (s.opened i t.vars code v fd)
      (Function.update owned i (insert v (owned i))) := by
  have hcases := holds_opened ht hv fd code
  have hused : ∀ n d, s.table n = some d → n ≠ fd ∧ d < s.fresh := by
    intro n d hopen
    refine ⟨?_, h.fresh n d hopen⟩
    rintro rfl
    rw [hfd] at hopen
    cases hopen
  refine ⟨code_set h rfl hu, ?_, ?_, ?_, ?_, ?_⟩
  · intro j w n d hh
    rcases (hcases j w n d).mp hh with ⟨-, -, rfl, rfl⟩ | hh
    · exact Function.update_self ..
    · have hopen := h.live j w n d hh
      exact (Function.update_of_ne (hused n d hopen).1 _ _).trans hopen
  · intro j w k x n n' d hj hk
    rcases (hcases j w n d).mp hj with ⟨rfl, rfl, -, rfl⟩ | hj
    · rcases (hcases k x n' _).mp hk with ⟨rfl, rfl, -, -⟩ | hk
      · exact ⟨rfl, rfl⟩
      · exact absurd (h.fresh n' _ (h.live k x n' _ hk)) (Nat.lt_irrefl _)
    · rcases (hcases k x n' d).mp hk with ⟨-, -, -, rfl⟩ | hk
      · exact absurd (h.fresh n _ (h.live j w n _ hj)) (Nat.lt_irrefl _)
      · exact h.unique j w k x n n' d hj hk
  · intro n d hd
    by_cases hn : n = fd
    · subst hn
      simp only [State.opened, Function.update_self, Option.some.injEq] at hd
      exact .inr (.inr ⟨i, v, (hcases i v n d).mpr (.inl ⟨rfl, rfl, rfl, hd.symm⟩)⟩)
    · simp only [State.opened, Function.update_of_ne hn] at hd
      refine (h.accounted n d hd).imp_right fun hrest => hrest.imp_right ?_
      rintro ⟨j, w, hh⟩
      exact ⟨j, w, (hcases j w n d).mpr (.inr hh)⟩
  · intro n d hb
    obtain ⟨hopen, hnot⟩ := h.kept n d hb
    obtain ⟨hn, hlt⟩ := hused n d hopen
    refine ⟨(Function.update_of_ne hn _ _).trans hopen, fun j w n' hh => ?_⟩
    rcases (hcases j w n' d).mp hh with ⟨-, -, -, rfl⟩ | hh
    · exact Nat.lt_irrefl _ hlt
    · exact hnot j w n' hh
  · intro n d hd
    by_cases hn : n = fd
    · subst hn
      simp only [State.opened, Function.update_self, Option.some.injEq] at hd
      subst hd
      exact Nat.lt_succ_self _
    · simp only [State.opened, Function.update_of_ne hn] at hd
      exact Nat.lt_succ_of_lt (h.fresh n d hd)

theorem holds_erased {i : ℕ} {t : Thread V} (ht : s.threads[i]? = some t) {v : V}
    {code : List (Op V)} (hs : s'.threads = s.threads.set i ⟨t.vars, code⟩) (j : ℕ) (w : V)
    (n e : ℕ) :
    Holds s' (Function.update owned i ((owned i).erase v)) j w n e ↔
      Holds s owned j w n e ∧ (j, w) ≠ (i, v) := by
  by_cases hj : j = i
  · subst hj
    rw [holds_self ht hs, holds_iff ht, Finset.mem_erase]
    simp only [ne_eq, Prod.mk.injEq, true_and]
    tauto
  · rw [holds_other hs _ hj]
    simp [hj]

theorem Disciplined.number_unique (h : Disciplined give base last s owned) {i j : ℕ} {v w : V}
    {fd d e : ℕ} (hi : Holds s owned i v fd d) (hj : Holds s owned j w fd e) : (j, w) = (i, v) := by
  have hsame : e = d := Option.some.inj ((h.live j w fd e hj).symm.trans (h.live i v fd d hi))
  subst hsame
  obtain ⟨rfl, rfl⟩ := h.unique j w i v fd fd e hj hi
  rfl

theorem Disciplined.closed (h : Disciplined give base last s owned) {i : ℕ} {t : Thread V}
    (ht : s.threads[i]? = some t) {v : V} (hv : v ∈ owned i) {fd d : ℕ}
    (hvar : t.vars v = some (fd, d)) {code : List (Op V)}
    (hu : check give ((owned i).erase v) code = some (last i)) :
    Disciplined give base last
      { s.goto i t.vars code with table := Function.update s.table fd none }
      (Function.update owned i ((owned i).erase v)) := by
  have hcases : ∀ j w n e, Holds { s.goto i t.vars code with
      table := Function.update s.table fd none }
      (Function.update owned i ((owned i).erase v)) j w n e ↔
      Holds s owned j w n e ∧ (j, w) ≠ (i, v) := holds_erased ht rfl
  have hmine : Holds s owned i v fd d := ⟨t, ht, hv, hvar⟩
  have htable : ∀ n e, Function.update s.table fd none n = some e ↔
      n ≠ fd ∧ s.table n = some e := by
    intro n e
    by_cases hn : n = fd
    · simp [hn]
    · simp [hn]
  refine ⟨code_set h rfl hu, ?_, ?_, ?_, ?_, ?_⟩
  · intro j w n e hh
    obtain ⟨hold, hne⟩ := (hcases j w n e).mp hh
    refine (htable n e).mpr ⟨?_, h.live j w n e hold⟩
    rintro rfl
    exact hne (h.number_unique hmine hold)
  · intro j w k x n n' e hj hk
    exact h.unique j w k x n n' e ((hcases j w n e).mp hj).1 ((hcases k x n' e).mp hk).1
  · intro n e he
    obtain ⟨hn, he⟩ := (htable n e).mp he
    refine (h.accounted n e he).imp_right fun hrest => hrest.imp_right ?_
    rintro ⟨j, w, hh⟩
    refine ⟨j, w, (hcases j w n e).mpr ⟨hh, fun hsame => ?_⟩⟩
    cases hsame
    have hwar := ((holds_iff ht v n e).mp hh).2
    rw [hvar] at hwar
    cases hwar
    exact hn rfl
  · intro n e hb
    obtain ⟨hopen, hnot⟩ := h.kept n e hb
    refine ⟨(htable n e).mpr ⟨?_, hopen⟩, fun j w n' hh => hnot j w n' ((hcases j w n' e).mp hh).1⟩
    rintro rfl
    have hsame : e = d := Option.some.inj (hopen.symm.trans (h.live i v n d hmine))
    subst hsame
    exact hnot i v n hmine
  · intro n e he
    exact h.fresh n e ((htable n e).mp he).2

omit [DecidableEq V] in
theorem holds_append {u : Thread V} (hs : s'.threads = s.threads ++ [u]) (first : Finset V)
    (j : ℕ) (v : V) (fd d : ℕ) :
    Holds s' (Function.update owned s.threads.length first) j v fd d ↔
      (j = s.threads.length ∧ v ∈ first ∧ u.vars v = some (fd, d)) ∨ Holds s owned j v fd d := by
  by_cases hj : j = s.threads.length
  · subst hj
    simp [Holds, hs]
  · have hget : s'.threads[j]? = s.threads[j]? := by
      rw [hs]
      rcases Nat.lt_or_gt_of_ne hj with hlt | hgt
      · exact List.getElem?_append_left hlt
      · rw [List.getElem?_eq_none (by simp; omega), List.getElem?_eq_none (by omega)]
    simp [Holds, hget, hj]

omit [DecidableEq V] in
/-- The holdings after a thread has started another one: what it was handed, what the parent
kept, and those of the others. -/
theorem holds_spawned (owned : ℕ → Finset V) {i : ℕ} {t : Thread V} (u : Thread V)
    (ht : s.threads[i]? = some t) (code : List (Op V)) (mine first : Finset V) (j : ℕ) (v : V)
    (fd d : ℕ) :
    Holds { s.goto i t.vars code with threads := (s.goto i t.vars code).threads ++ [u] }
      (Function.update (Function.update owned i mine) s.threads.length first) j v fd d ↔
      (j = s.threads.length ∧ v ∈ first ∧ u.vars v = some (fd, d)) ∨
      (j = i ∧ v ∈ mine ∧ t.vars v = some (fd, d)) ∨ (j ≠ i ∧ Holds s owned j v fd d) := by
  have hs : (s.goto i t.vars code).threads = s.threads.set i ⟨t.vars, code⟩ := rfl
  have hlen : s.threads.length = (s.goto i t.vars code).threads.length := by simp [State.goto]
  rw [hlen, holds_append rfl]
  apply or_congr_right
  by_cases hj : j = i
  · subst hj
    rw [holds_self ht hs]
    simp
  · rw [holds_other hs mine hj]
    simp [hj]

theorem code_append {u : Thread V} {first : Finset V}
    (h : ∀ i t, s.threads[i]? = some t → check give (owned i) t.code = some (last i))
    (hs : s'.threads = s.threads ++ [u])
    (hu : check give first u.code = some (last s.threads.length)) (j : ℕ) (t' : Thread V)
    (ht' : s'.threads[j]? = some t') :
    check give (Function.update owned s.threads.length first j) t'.code = some (last j) := by
  rw [hs] at ht'
  by_cases hj : j = s.threads.length
  · subst hj
    rw [List.getElem?_append_right (Nat.le_refl _), Nat.sub_self, List.getElem?_cons_zero] at ht'
    cases ht'
    rw [Function.update_self]
    exact hu
  · have hlt := (List.getElem?_eq_some_iff.mp ht').1
    rw [List.length_append, List.length_singleton] at hlt
    rw [List.getElem?_append_left (by omega)] at ht'
    rw [Function.update_of_ne hj]
    exact h j t' ht'

omit [DecidableEq V] in
theorem Holds.lt {i : ℕ} {v : V} {fd d : ℕ} (h : Holds s owned i v fd d) :
    i < s.threads.length := by
  obtain ⟨t, ht, -⟩ := h
  exact (List.getElem?_eq_some_iff.mp ht).1

theorem Disciplined.spawned (h : Disciplined give base last s owned) {i : ℕ} {t u : Thread V}
    (ht : s.threads[i]? = some t) {code : List (Op V)} {mine first : Finset V}
    (hmine : check give mine code = some (last i))
    (hfirst : check give first u.code = some (last s.threads.length)) (hsub : mine ⊆ owned i)
    (back : ∀ v r, v ∈ first → u.vars v = some r → v ∈ owned i ∧ v ∉ mine ∧ t.vars v = some r)
    (forth : ∀ v r, v ∈ owned i → t.vars v = some r → v ∈ mine ∨ (v ∈ first ∧ u.vars v = some r)) :
    Disciplined give base last
      { s.goto i t.vars code with threads := (s.goto i t.vars code).threads ++ [u] }
      (Function.update (Function.update owned i mine) s.threads.length first) := by
  have hs : (s.goto i t.vars code).threads = s.threads.set i ⟨t.vars, code⟩ := rfl
  have hlen : (s.goto i t.vars code).threads.length = s.threads.length := by simp [State.goto]
  have hi : i ≠ s.threads.length := Nat.ne_of_lt (List.getElem?_eq_some_iff.mp ht).1
  have hcases := holds_spawned owned u ht code mine first
  refine h.moved rfl rfl ?_ (fun p => if p.1 = s.threads.length then (i, p.2) else p) ?_ ?_ ?_
  · rw [← hlen] at hfirst ⊢
    exact code_append (code_set h hs hmine) rfl hfirst
  · intro j v fd d hh
    rcases (hcases j v fd d).mp hh with ⟨rfl, hv, hvar⟩ | ⟨rfl, hv, hvar⟩ | ⟨hj, hh⟩
    · obtain ⟨hvi, -, htv⟩ := back v _ hv hvar
      rw [if_pos rfl]
      exact ⟨t, ht, hvi, htv⟩
    · rw [if_neg hi]
      exact ⟨t, ht, hsub hv, hvar⟩
    · rw [if_neg (Nat.ne_of_lt hh.lt)]
      exact hh
  · -- what the parent kept is not what it handed over
    have hclash : ∀ v fd d fd' d', Holds
        { s.goto i t.vars code with threads := (s.goto i t.vars code).threads ++ [u] }
        (Function.update (Function.update owned i mine) s.threads.length first)
        s.threads.length v fd d → ¬ Holds
        { s.goto i t.vars code with threads := (s.goto i t.vars code).threads ++ [u] }
        (Function.update (Function.update owned i mine) s.threads.length first) i v fd' d' := by
      intro v fd d fd' d' hv hw
      rcases (hcases _ v fd d).mp hv with ⟨-, hv, hvar⟩ | ⟨he, -⟩ | ⟨-, hv⟩
      · rcases (hcases i v fd' d').mp hw with ⟨he, -⟩ | ⟨-, hw, -⟩ | ⟨hne, -⟩
        · exact hi he
        · exact (back v _ hv hvar).2.1 hw
        · exact hne rfl
      · exact hi he.symm
      · exact Nat.lt_irrefl _ hv.lt
    rintro ⟨j, v⟩ ⟨k, w⟩ fd fd' d d' hv hw he
    by_cases hj : j = s.threads.length
    · by_cases hk : k = s.threads.length
      · simp only [if_pos hj, if_pos hk, Prod.mk.injEq, true_and] at he
        rw [hj, hk, he]
      · simp only [if_pos hj, if_neg hk, Prod.mk.injEq] at he
        obtain ⟨rfl, rfl⟩ := he
        subst hj
        exact absurd hw (hclash v fd d fd' d' hv)
    · by_cases hk : k = s.threads.length
      · simp only [if_neg hj, if_pos hk, Prod.mk.injEq] at he
        obtain ⟨rfl, rfl⟩ := he
        subst hk
        exact absurd hv (hclash v fd' d' fd d hw)
      · simpa only [if_neg hj, if_neg hk] using he
  · intro j v fd d hh
    by_cases hj : j = i
    · subst hj
      obtain ⟨hv, hvar⟩ := (holds_iff ht v fd d).mp hh
      rcases forth v (fd, d) hv hvar with hm | hf
      · exact .inr ⟨j, v, (hcases j v fd d).mpr (.inr (.inl ⟨rfl, hm, hvar⟩))⟩
      · exact .inr ⟨_, v, (hcases _ v fd d).mpr (.inl ⟨rfl, hf⟩)⟩
    · exact .inr ⟨j, v, (hcases j v fd d).mpr (.inr (.inr ⟨hj, hh⟩))⟩

theorem check_cons {mine : Finset V} {op : Op V} {code : List (Op V)} {final : Finset V}
    (h : check give mine (op :: code) = some final) :
    ∃ next, own give mine op = some next ∧ check give next code = some final :=
  Option.bind_eq_some_iff.mp h

theorem check_append (mine : Finset V) (a b : List (Op V)) :
    check give mine (a ++ b) = (check give mine a).bind fun next => check give next b := by
  induction a generalizing mine with
  | nil => rfl
  | cons op a ih =>
    simp only [List.cons_append, check, Option.bind_assoc]
    exact Option.bind_congr fun next _ => ih next

theorem check_flatMap {α : Type} (f : α → List (Op V)) (mine : Finset V)
    (h : ∀ a, check give mine (f a) = some mine) (l : List α) :
    check give mine (l.flatMap f) = some mine := by
  induction l with
  | nil => rfl
  | cons a l ih => rw [List.flatMap_cons, check_append, h a, Option.bind_some, ih]

theorem check_uses {mine : Finset V} {v : V} (hv : v ∈ mine) (n : ℕ) :
    check give mine (List.replicate n (.uses v)) = some mine := by
  induction n with
  | zero => rfl
  | succ n ih => simpa [List.replicate_succ, check, own, hv] using ih

def given (give : Option V) : Finset V := give.elim ∅ ({·})

theorem step_opens (h : Disciplined give base last s owned) {i : ℕ} {t : Thread V}
    (ht : s.threads[i]? = some t) {v : V} {code : List (Op V)}
    (hu : check give (owned i) (.opens v :: code) = some (last i)) {fd : ℕ}
    (hs : (if s.table fd = none then some (s.opened i t.vars code v fd) else none) = some s') :
    ∃ owned', Disciplined give base last s' owned' := by
  obtain ⟨mine, hown, hu⟩ := check_cons hu
  simp only [own, Option.ite_none_left_eq_some, Option.some.injEq] at hown
  obtain ⟨hv, rfl⟩ := hown
  split at hs
  next hfd =>
    cases hs
    exact ⟨_, h.opened ht hv hfd hu⟩
  next => cases hs

theorem step_fails (h : Disciplined give base last s owned) {i : ℕ} {t : Thread V}
    (ht : s.threads[i]? = some t) {v : V} {code : List (Op V)}
    (hu : check give (owned i) (.opens v :: code) = some (last i)) :
    ∃ owned',
      Disciplined give base last (s.goto i (Function.update t.vars v none) code) owned' := by
  obtain ⟨mine, hown, hu⟩ := check_cons hu
  simp only [own, Option.ite_none_left_eq_some, Option.some.injEq] at hown
  obtain ⟨hv, rfl⟩ := hown
  refine ⟨_, h.goto ht hu id ?_ (fun _ _ _ _ he => he) ?_⟩
  · intro w r hw hr
    by_cases he : w = v
    · subst he
      simp at hr
    · rw [Function.update_of_ne he] at hr
      exact ⟨Finset.mem_of_mem_insert_of_ne hw he, hr⟩
  · intro w r hw hr
    have he : w ≠ v := fun he => hv (he ▸ hw)
    exact .inr ⟨w, Finset.mem_insert_of_mem hw, by rw [Function.update_of_ne he, hr]⟩

theorem step_uses (h : Disciplined give base last s owned) {i : ℕ} {t : Thread V}
    (ht : s.threads[i]? = some t) {v : V} {code : List (Op V)}
    (hu : check give (owned i) (.uses v :: code) = some (last i)) :
    ∃ owned', Disciplined give base last (s.goto i t.vars code) owned' := by
  obtain ⟨mine, hown, hu⟩ := check_cons hu
  simp only [own, Option.ite_none_right_eq_some, Option.some.injEq] at hown
  obtain ⟨-, rfl⟩ := hown
  exact ⟨_, h.goto ht hu id (fun w r hw hr => ⟨hw, hr⟩) (fun _ _ _ _ he => he)
    fun w r hw hr => .inr ⟨w, hw, hr⟩⟩

theorem step_closes (h : Disciplined give base last s owned) {i : ℕ} {t : Thread V}
    (ht : s.threads[i]? = some t) {v : V} {code : List (Op V)}
    (hu : check give (owned i) (.closes v :: code) = some (last i)) :
    ∃ owned', Disciplined give base last ((t.vars v).elim (s.goto i t.vars code) fun r =>
      { s.goto i t.vars code with table := Function.update s.table r.1 none }) owned' := by
  obtain ⟨mine, hown, hu⟩ := check_cons hu
  simp only [own, Option.ite_none_right_eq_some, Option.some.injEq] at hown
  obtain ⟨hv, rfl⟩ := hown
  cases hvar : t.vars v with
  | some r => exact ⟨_, h.closed ht hv hvar hu⟩
  | none =>
    refine ⟨_, h.goto ht hu id (fun w r hw hr => ⟨Finset.mem_of_mem_erase hw, hr⟩)
      (fun _ _ _ _ he => he) fun w r hw hr => .inr ⟨w, Finset.mem_erase.mpr ⟨?_, hw⟩, hr⟩⟩
    rintro rfl
    rw [hvar] at hr
    cases hr

theorem step_assigns (h : Disciplined give base last s owned) {i : ℕ} {t : Thread V}
    (ht : s.threads[i]? = some t) {v w : V} {code : List (Op V)}
    (hu : check give (owned i) (.assigns v w :: code) = some (last i)) :
    ∃ owned', Disciplined give base last
      (s.goto i (Function.update t.vars v (t.vars w)) code) owned' := by
  obtain ⟨mine, hown, hu⟩ := check_cons hu
  simp only [own, Option.ite_none_right_eq_some, Option.some.injEq] at hown
  obtain ⟨⟨hw, hv⟩, rfl⟩ := hown
  have hne : w ≠ v := fun he => hv (he ▸ hw)
  refine ⟨_, h.goto ht hu (fun x => if x = v then w else x) ?_ ?_ ?_⟩
  · intro x r hx hr
    by_cases he : x = v
    · subst he
      rw [Function.update_self] at hr
      rw [if_pos rfl]
      exact ⟨hw, hr⟩
    · rw [Function.update_of_ne he] at hr
      rw [if_neg he]
      exact ⟨Finset.mem_of_mem_erase (Finset.mem_of_mem_insert_of_ne hx he), hr⟩
  · intro x y hx hy he
    have hout : ∀ z, z ∈ insert v ((owned i).erase w) → z ≠ v → z ≠ w := fun z hz hzv =>
      Finset.ne_of_mem_erase (Finset.mem_of_mem_insert_of_ne hz hzv)
    by_cases hxv : x = v
    · by_cases hyv : y = v
      · rw [hxv, hyv]
      · simp only [if_pos hxv, if_neg hyv] at he
        exact absurd he.symm (hout y hy hyv)
    · by_cases hyv : y = v
      · simp only [if_neg hxv, if_pos hyv] at he
        exact absurd he (hout x hx hxv)
      · simpa only [if_neg hxv, if_neg hyv] using he
  · intro x r hx hr
    right
    by_cases he : x = w
    · subst he
      exact ⟨v, Finset.mem_insert_self .., by rw [Function.update_self, hr]⟩
    · have hxv : x ≠ v := fun he => hv (he ▸ hx)
      exact ⟨x, Finset.mem_insert_of_mem (Finset.mem_erase.mpr ⟨he, hx⟩), by
        rw [Function.update_of_ne hxv, hr]⟩

variable {child : κ → List (Op V)}

theorem step_spawns (hchild : ∀ k n, 0 < n → check give (given give) (child k) = some (last n))
    (h : Disciplined give base last s owned) {i : ℕ} {t : Thread V}
    (ht : s.threads[i]? = some t) {code : List (Op V)}
    (hu : check give (owned i) (.spawns :: code) = some (last i)) (k : κ) :
    ∃ owned', Disciplined give base last (s.spawn give i t.vars code (child k)) owned' := by
  obtain ⟨mine, hown, hu⟩ := check_cons hu
  have hpos : 0 < s.threads.length := Nat.zero_lt_of_lt (List.getElem?_eq_some_iff.mp ht).1
  cases give with
  | none =>
    cases hown
    exact ⟨_, h.spawned ht hu (hchild k _ hpos) (Finset.Subset.refl _) (by simp [given])
      fun v r hv _ => .inl hv⟩
  | some g =>
    simp only [own, Option.ite_none_right_eq_some, Option.some.injEq] at hown
    obtain ⟨hg, rfl⟩ := hown
    simp only [State.spawn]
    split
    next n d hvar =>
      refine ⟨_, h.spawned ht hu (hchild k _ hpos) (Finset.erase_subset _ _) ?_ ?_⟩
      · intro v r hv hr
        obtain rfl : v = g := by simpa [given] using hv
        exact ⟨hg, by simp, hvar.trans (by simpa using hr)⟩
      · intro v r hv hr
        by_cases he : v = g
        · subst he
          exact .inr ⟨by simp [given], by simpa using hvar.symm.trans hr⟩
        · exact .inl (Finset.mem_erase.mpr ⟨he, hv⟩)
    next hnone =>
      refine ⟨_, h.goto ht hu id (fun v r hv hr => ⟨Finset.mem_of_mem_erase hv, hr⟩)
        (fun _ _ _ _ he => he) fun v r hv hr => ?_⟩
      by_cases he : v = g
      · subst he
        obtain ⟨fd, d⟩ := r
        cases fd with
        | zero => exact .inl ⟨nofun, rfl⟩
        | succ n => exact absurd hr (hnone n d)
      · exact .inr ⟨v, Finset.mem_erase.mpr ⟨he, hv⟩, hr⟩

/-- Whatever number the kernel gives out and whichever thread moves, the discipline is kept. -/
theorem step_disciplined
    (hchild : ∀ k n, 0 < n → check give (given give) (child k) = some (last n))
    (s : State V) (a : ℕ × Option ℕ × κ) (s' : State V)
    (h : ∃ owned, Disciplined give base last s owned) (hs : step give child s a = some s') :
    ∃ owned, Disciplined give base last s' owned := by
  obtain ⟨owned, h⟩ := h
  obtain ⟨i, result, k⟩ := a
  simp only [step] at hs
  split at hs
  next => cases hs
  next =>
    obtain ⟨t, ht, hs⟩ := Option.bind_eq_some_iff.mp hs
    have hcheck := h.code i t ht
    split at hs
    next => cases hs
    next v code hc =>
      rw [hc] at hcheck
      cases result with
      | some fd => exact step_opens h ht hcheck hs
      | none =>
        cases hs
        exact step_fails h ht hcheck
    next v code hc =>
      rw [hc] at hcheck
      cases result with
      | some fd => exact step_opens h ht hcheck hs
      | none =>
        cases hs
        exact ⟨owned, h.moved rfl rfl h.code id (fun _ _ _ _ hh => hh)
          (fun _ _ _ _ _ _ _ _ he => he) fun i v _ _ hh => .inr ⟨i, v, hh⟩⟩
    next v code hc =>
      cases hs
      exact step_uses h ht (hc ▸ hcheck)
    next v code hc =>
      cases hs
      exact step_closes h ht (hc ▸ hcheck)
    next v w code hc =>
      cases hs
      exact step_assigns h ht (hc ▸ hcheck)
    next code hc =>
      cases hs
      exact step_spawns hchild h ht (hc ▸ hcheck) k

theorem run_disciplined (last : ℕ → Finset V)
    (hchild : ∀ k n, 0 < n → check give (given give) (child k) = some (last n)) {fresh : ℕ}
    (hfresh : ∀ fd d, base fd = some d → d < fresh) {main : List (Op V)}
    (hmain : check give ∅ main = some (last 0)) {acts : List (ℕ × Option ℕ × κ)}
    (h : Runs.run (step give child) (start base fresh main) acts = some s) :
    ∃ owned, Disciplined give base last s owned := by
  refine Runs.run_invariant _ (step_disciplined hchild) h ⟨fun _ => ∅, ?_, ?_, ?_, ?_, ?_, hfresh⟩
  · intro i t ht
    obtain ⟨rfl, rfl⟩ : i = 0 ∧ t = ⟨fun _ => none, main⟩ := by
      cases i with
      | zero => simpa [start, eq_comm] using ht
      | succ i => simp [start] at ht
    exact hmain
  · rintro i v fd d ⟨-, -, hv, -⟩
    simp at hv
  · rintro i v j w fd fd' d ⟨-, -, hv, -⟩
    simp at hv
  · exact fun fd d hd => .inl hd
  · refine fun fd d hd => ⟨hd, ?_⟩
    rintro i v fd' ⟨-, -, hv, -⟩
    simp at hv

omit [DecidableEq V] in
def Next (s : State V) (i : ℕ) (v : V) (fd d : ℕ) : Prop :=
  ∃ t code, s.threads[i]? = some t ∧ (t.code = .uses v :: code ∨ t.code = .closes v :: code) ∧
    t.vars v = some (fd, d)

theorem Disciplined.next (h : Disciplined give base last s owned) {i : ℕ} {v : V} {fd d : ℕ}
    (hn : Next s i v fd d) : Holds s owned i v fd d := by
  obtain ⟨t, code, ht, hc, hvar⟩ := hn
  have hcheck := h.code i t ht
  rcases hc with hc | hc
  all_goals
    rw [hc] at hcheck
    obtain ⟨mine, hown, -⟩ := check_cons hcheck
    simp only [own, Option.ite_none_right_eq_some] at hown
    exact ⟨t, ht, hown.1, hvar⟩

/-- No thread works on a number that was closed and given out again in the meantime. -/
theorem Disciplined.next_live (h : Disciplined give base last s owned) {i : ℕ} {v : V} {fd d : ℕ}
    (hn : Next s i v fd d) : s.table fd = some d := h.live i v fd d (h.next hn)

theorem Disciplined.next_unique (h : Disciplined give base last s owned) {i j : ℕ} {v w : V}
    {fd d e : ℕ} (hi : Next s i v fd d) (hj : Next s j w fd e) : i = j := by
  have hsame : d = e := Option.some.inj ((h.next_live hi).symm.trans (h.next_live hj))
  subst hsame
  exact (h.unique i v j w fd fd d (h.next hi) (h.next hj)).1

/-- When all threads have come to an end, only the descriptors of the first one are left. -/
theorem Disciplined.ended (h : Disciplined give base last s owned)
    (hlast : ∀ n, 0 < n → last n = ∅) (hend : ∀ t ∈ s.threads, t.code = []) {fd d : ℕ}
    (hopen : s.table fd = some d) :
    base fd = some d ∨ (give ≠ none ∧ fd = 0) ∨
      ∃ t v, s.threads[0]? = some t ∧ v ∈ last 0 ∧ t.vars v = some (fd, d) := by
  rcases h.accounted fd d hopen with hb | h0 | ⟨i, v, t, ht, hv, hvar⟩
  · exact .inl hb
  · exact .inr (.inl h0)
  · have hcheck := h.code i t ht
    rw [hend t (List.mem_of_getElem? ht)] at hcheck
    have howned : owned i = last i := Option.some.inj hcheck
    rw [howned] at hv
    cases i with
    | zero => exact .inr (.inr ⟨t, v, ht, hv, hvar⟩)
    | succ n =>
      rw [hlast _ n.succ_pos] at hv
      simp at hv

end

end Wissbi.Descriptors
