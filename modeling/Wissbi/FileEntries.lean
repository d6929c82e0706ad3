import Wissbi.FileTree
import Wissbi.FiniteMaps

set_option autoImplicit false

namespace Wissbi.FileEntries
open FileTree

variable {ν : Type*} [DecidableEq ν]

def remove (t : Files ν) (d : ℕ) (n : ν) : Files ν :=
  match t.nodes[d]? with
  | some (.dir p entries) => ⟨t.nodes.set d (.dir p (entries.filter fun x => x.1 ≠ n))⟩
  | _ => t

/-- `unlink` takes away a name that is not that of a directory; a last link is not followed. -/
def unlink (t : Files ν) (d : ℕ) (cs : List (Comp ν)) : Option (Files ν) :=
  match cs.getLast?, t.dirAt d cs.dropLast with
  | some (.name n), some e =>
    match t.lookup e (.name n) with
    | some i => if (t.lookup i .self).isSome then none else some (remove t e n)
    | none => none
  | _, _ => none

def HasFile (t : Files ν) (d : ℕ) (n : ν) : Prop :=
  ∃ i, t.lookup d (.name n) = some i ∧ t.nodes[i]? = some .file

def Closed (t : Files ν) : Prop := ∀ d n i, t.lookup d (.name n) = some i → i < t.nodes.length

/-- Directories and links are found where they were found, and links lead where they led. -/
structure Steers (t u : Files ν) : Prop where
  lookup : ∀ d c i, t.lookup d c = some i → t.nodes[i]? ≠ some .file → u.lookup d c = some i
  link? : ∀ i, u.link? i = t.link? i

theorem Steers.refl (t : Files ν) : Steers t t := ⟨fun _ _ _ h _ => h, fun _ => rfl⟩

theorem steers_of_extends {t u : Files ν} (h : Extends t u) : Steers t u :=
  ⟨fun d c i hi _ => h.lookup d c i hi, h.link?⟩

theorem file_of_lookup_none {t : Files ν} {i : ℕ} (h : t.nodes[i]? = some .file) (c : Comp ν) :
    t.lookup i c = none := by
  simp [Files.lookup, h]

/-- A path to a directory passes through directories and links only. -/
theorem locate_steers {t u : Files ν} (h : Steers t u) {e : ℕ} (hself : t.lookup e .self = some e)
    (k d : ℕ) (cs : List (Comp ν)) (hcs : t.locate k d (cs ++ [.self]) = some (e, .self)) :
    u.locate k d (cs ++ [.self]) = some (e, .self) := by
  have hbelow : ∀ follow follow' : ℕ → List (Comp ν) → Option (ℕ × Comp ν),
      (∀ d cs, follow d (cs ++ [.self]) = some (e, .self) →
        follow' d (cs ++ [.self]) = some (e, .self)) →
      ∀ cs d, t.locateBelow follow d (cs ++ [.self]) = some (e, .self) →
        u.locateBelow follow' d (cs ++ [.self]) = some (e, .self) := by
    intro follow follow' ih cs
    induction cs with
    | nil =>
      intro d hd
      rw [List.nil_append, locateBelow_self] at hd ⊢
      exact hd
    | cons b cs ihcs =>
      intro d hd
      rw [List.cons_append] at hd ⊢
      cases hb : t.lookup d b with
      | none =>
        rw [locateBelow_absent _ hb] at hd
        simp at hd
      | some j =>
        cases hlink : t.link? j with
        | some l =>
          have hnode : t.nodes[j]? ≠ some .file := by
            intro hf
            simp [Files.link?, hf] at hlink
          have hub := h.lookup d b j hb hnode
          rw [locateBelow_link _ hb hlink, ← List.append_assoc] at hd
          rw [locateBelow_link _ hub ((h.link? j).trans hlink), ← List.append_assoc]
          exact ih _ _ hd
        | none =>
          rw [locateBelow_node _ hb hlink] at hd
          have hne : (cs ++ [Comp.self]).isEmpty = false := by simp
          rw [hne] at hd
          have hnode : t.nodes[j]? ≠ some .file := by
            intro hf
            -- a file in the way leads to nothing that has itself in it
            cases cs with
            | nil =>
              rw [List.nil_append, locateBelow_self] at hd
              cases hd
              rw [file_of_lookup_none hf] at hself
              cases hself
            | cons c cs =>
              rw [List.cons_append, locateBelow_absent _ (file_of_lookup_none hf c)] at hd
              simp at hd
          have hub := h.lookup d b j hb hnode
          rw [locateBelow_node _ hub ((h.link? j).trans hlink), hne]
          exact ihcs j hd
  induction k generalizing d cs with
  | zero => exact hbelow _ _ (fun _ _ h => h) cs d hcs
  | succ k ih => exact hbelow _ _ (fun d cs => ih d cs) cs d hcs

theorem dirAt_steers {t u : Files ν} (h : Steers t u) {d e : ℕ} {cs : List (Comp ν)}
    (he : t.dirAt d cs = some e) : u.dirAt d cs = some e := by
  obtain ⟨hfind, hself⟩ := dirAt_eq_some.mp he
  have hdir : t.nodes[e]? ≠ some .file := by
    intro hf
    rw [file_of_lookup_none hf] at hself
    cases hself
  exact dirAt_eq_some.mpr ⟨locate_steers h hself _ _ _ hfind, h.lookup _ _ _ hself hdir⟩

theorem mem_of_lookup {t : Files ν} {d p i : ℕ} {names : List (ν × ℕ)} {n : ν}
    (hd : t.nodes[d]? = some (.dir p names)) (h : t.lookup d (.name n) = some i) :
    (n, i) ∈ names := by
  rw [lookup_dir hd] at h
  obtain ⟨before, after, hnames, -⟩ := List.lookup_eq_some_iff.mp h
  simp [hnames]

theorem lookup_add {t u : Files ν} {d : ℕ} {n : ν} {node : Node ν} (h : t.add d n node = some u)
    (hnode : node = .file ∨ ∃ p, node = .dir p []) (x : ℕ) (m : ν) :
    u.lookup x (.name m) = if x = d ∧ m = n then some t.nodes.length else t.lookup x (.name m) := by
  obtain ⟨p, names, hd, hud, hlast, hrest⟩ := add_nodes h
  by_cases hx : x = d
  · subst hx
    rw [lookup_dir hud, lookup_dir hd]
    by_cases hm : m = n
    · simp [hm, Comp.within]
    · simp [hm, Comp.within, List.lookup_cons, beq_false_of_ne hm]
  · rw [if_neg (fun hc => hx hc.1)]
    by_cases hl : x = t.nodes.length
    · subst hl
      have hnone : t.nodes[t.nodes.length]? = none := List.getElem?_eq_none (Nat.le_refl _)
      rcases hnode with rfl | ⟨q, rfl⟩
      · simp [Files.lookup, hlast]
      · simp [Files.lookup, hlast, Comp.within]
    · simp only [Files.lookup, hrest x hx hl]

omit [DecidableEq ν] in
theorem file_add {t u : Files ν} {d : ℕ} {n : ν} {node : Node ν} (h : t.add d n node = some u)
    {i : ℕ} (hi : i ≠ t.nodes.length) :
    u.nodes[i]? = some .file ↔ t.nodes[i]? = some .file := by
  obtain ⟨p, names, hd, hud, -, hrest⟩ := add_nodes h
  by_cases he : i = d
  · subst he
    simp [hud, hd]
  · rw [hrest i he hi]

theorem hasFile_add {t u : Files ν} {d : ℕ} {n : ν} {node : Node ν} (hc : Closed t)
    (h : t.add d n node = some u) (hnode : node = .file ∨ ∃ p, node = .dir p [])
    (hnew : t.lookup d (.name n) = none) (x : ℕ) (m : ν) :
    HasFile u x m ↔ (node = .file ∧ x = d ∧ m = n) ∨ HasFile t x m := by
  obtain ⟨-, -, -, -, hlast, -⟩ := add_nodes h
  unfold HasFile
  rw [lookup_add h hnode]
  by_cases hx : x = d ∧ m = n
  · obtain ⟨rfl, rfl⟩ := hx
    simp [hlast, hnew]
  · rw [if_neg hx, or_iff_right (fun hf => hx hf.2)]
    refine exists_congr fun i => and_congr_right fun hi => file_add h ?_
    exact Nat.ne_of_lt (hc _ _ _ hi)

theorem closed_add {t u : Files ν} {d : ℕ} {n : ν} {node : Node ν} (hc : Closed t)
    (h : t.add d n node = some u) (hnode : node = .file ∨ ∃ p, node = .dir p []) : Closed u := by
  intro x m i hi
  rw [lookup_add h hnode] at hi
  rw [add_length h]
  split at hi
  next =>
    cases hi
    exact Nat.lt_succ_self _
  next => exact Nat.lt_succ_of_lt (hc _ _ _ hi)

theorem lookup_remove (t : Files ν) (d : ℕ) (n : ν) (x : ℕ) (c : Comp ν) :
    (remove t d n).lookup x c = if x = d ∧ c = .name n then none else t.lookup x c := by
  unfold remove
  split
  next p names hd =>
    have hlt := (List.getElem?_eq_some_iff.mp hd).1
    by_cases hx : x = d
    · subst hx
      have hnew : (t.nodes.set x (.dir p (names.filter fun y => y.1 ≠ n)))[x]? =
          some (.dir p (names.filter fun y => y.1 ≠ n)) := List.getElem?_set_self hlt
      rw [lookup_dir hd, Files.lookup, hnew]
      cases c with
      | self => simp [Comp.within]
      | parent => simp [Comp.within]
      | name m =>
        simp only [Comp.within, Comp.name.injEq, true_and]
        have hfilter := FiniteMaps.lookup_filter_key names (fun y => decide (y ≠ n)) m
        rw [hfilter]
        by_cases hm : m = n
        · simp [hm]
        · simp [hm]
    · rw [if_neg (fun hxd => hx hxd.1)]
      simp only [Files.lookup, List.getElem?_set_ne (Ne.symm hx)]
  next hd =>
    by_cases hx : x = d ∧ c = .name n
    · obtain ⟨rfl, rfl⟩ := hx
      rw [if_pos ⟨rfl, rfl⟩, Files.lookup]
      split
      next p names hdir => exact absurd hdir (hd p names)
      next => rfl
    · rw [if_neg hx]

theorem node_remove (t : Files ν) (d : ℕ) (n : ν) (i : ℕ) :
    ((remove t d n).nodes[i]? = some .file ↔ t.nodes[i]? = some .file) ∧
    (remove t d n).link? i = t.link? i := by
  unfold remove
  split
  next p names hd =>
    have hlt := (List.getElem?_eq_some_iff.mp hd).1
    by_cases hi : i = d
    · subst hi
      simp [Files.link?, List.getElem?_set_self hlt, hd]
    · simp [Files.link?, List.getElem?_set_ne (Ne.symm hi)]
  next => simp

theorem hasFile_remove (t : Files ν) (d : ℕ) (n : ν) (x : ℕ) (m : ν) :
    HasFile (remove t d n) x m ↔ HasFile t x m ∧ ¬ (x = d ∧ m = n) := by
  unfold HasFile
  simp only [lookup_remove, (node_remove t d n _).1, Comp.name.injEq]
  by_cases hx : x = d ∧ m = n
  · simp [hx]
  · simp [hx]

theorem closed_remove {t : Files ν} (hc : Closed t) (d : ℕ) (n : ν) : Closed (remove t d n) := by
  have hlen : (remove t d n).nodes.length = t.nodes.length := by
    unfold remove
    split <;> simp
  intro x m i hi
  rw [lookup_remove] at hi
  split at hi
  next => cases hi
  next =>
    rw [hlen]
    exact hc _ _ _ hi

theorem steers_remove {t : Files ν} {d : ℕ} {n : ν}
    (h : ∀ i, t.lookup d (.name n) = some i → t.nodes[i]? = some .file) :
    Steers t (remove t d n) := by
  refine ⟨fun x c i hi hnode => ?_, fun i => (node_remove t d n i).2⟩
  rw [lookup_remove, if_neg]
  · exact hi
  · rintro ⟨rfl, rfl⟩
    exact hnode (h i hi)

/-- What every call keeps: the table, the directories and the links. -/
structure Keeps (t u : Files ν) : Prop where
  closed : Closed t → Closed u
  steers : Steers t u
  links : ∀ d n i, u.lookup d (.name n) = some i → u.link? i ≠ none → t.lookup d (.name n) = some i

theorem Keeps.refl (t : Files ν) : Keeps t t := ⟨fun h => h, .refl t, fun _ _ _ h _ => h⟩

theorem keeps_add {t u : Files ν} {d : ℕ} {n : ν} {node : Node ν} (h : t.add d n node = some u)
    (hnode : node = .file ∨ ∃ p, node = .dir p []) (hnew : t.lookup d (.name n) = none) :
    Keeps t u := by
  have hplain : ∀ a p, node ≠ .link a p := by
    rcases hnode with rfl | ⟨q, rfl⟩
    · simp
    · simp
  have hext := add_extends h hnew hplain
  refine ⟨fun hc => closed_add hc h hnode, steers_of_extends hext, fun x m i hi hl => ?_⟩
  rw [lookup_add h hnode] at hi
  split at hi
  next =>
    cases hi
    rw [hext.link? _, Files.link?, List.getElem?_eq_none (Nat.le_refl _)] at hl
    exact absurd rfl hl
  next => exact hi

def Unlinked (t : Files ν) (n : ν) : Prop :=
  ∀ d i, t.lookup d (.name n) = some i → t.link? i = none

theorem Keeps.unlinked {t u : Files ν} (h : Keeps t u) {n : ν} (hn : Unlinked t n) :
    Unlinked u n := by
  intro d i hi
  by_contra hl
  have hold := hn d i (h.links d n i hi hl)
  rw [h.steers.link? i] at hl
  exact hl hold

theorem mkdir_effect {t u : Files ν} {d : ℕ} {cs : List (Comp ν)} (hc : Closed t)
    (h : t.mkdir d cs = some u) : Keeps t u ∧ ∀ x m, HasFile u x m ↔ HasFile t x m := by
  obtain ⟨ps, n, e, -, -, hnew, hadd⟩ := mkdir_eq_some h
  have hnode : Node.dir e ([] : List (ν × ℕ)) = .file ∨ ∃ p, Node.dir e ([] : List (ν × ℕ)) =
      .dir p [] := .inr ⟨e, rfl⟩
  refine ⟨keeps_add hadd hnode hnew, fun x m => ?_⟩
  rw [hasFile_add hc hadd hnode hnew]
  simp

/-- Where no link has the name, the file is in the directory that the path names. -/
theorem find_unlinked {t : Files ν} {n : ν} (hn : Unlinked t n) {d : ℕ} {cs : List (Comp ν)}
    {r : ℕ × Comp ν} (h : t.find d (cs ++ [.name n]) = some r) : r.2 = .name n ∧
      t.find d (cs ++ [.self]) = some (r.1, .self) := by
  rcases locate_first t maxSymlinks d cs with hnone | ⟨j, e, hfirst⟩
  · rw [Files.find, hnone _ (by simp)] at h
    cases h
  · have hself := (hfirst _ (by simp)).trans (locate_self t j e)
    rw [Files.find, hfirst _ (by simp)] at h
    obtain ⟨follow, hbelow⟩ := locate_below t j
    have hr : some (e, Comp.name n) = some r := by
      rw [← h, hbelow]
      cases hl : t.lookup e (.name n) with
      | none =>
        rw [locateBelow_absent follow hl]
        rfl
      | some i =>
        rw [locateBelow_node follow hl (hn e i hl)]
        rfl
    cases hr
    exact ⟨rfl, hself⟩

theorem openCreat_effect {t u : Files ν} {d : ℕ} {cs : List (Comp ν)} {n : ν} (hc : Closed t)
    (hn : Unlinked t n) (h : t.openCreat d (cs ++ [.name n]) = some u) :
    ∃ e, t.dirAt d cs = some e ∧ Keeps t u ∧
      ∀ x m, HasFile u x m ↔ (x = e ∧ m = n) ∨ HasFile t x m := by
  unfold Files.openCreat at h
  split at h
  next => cases h
  next e c hfind =>
    obtain ⟨rfl, hdir⟩ := find_unlinked hn hfind
    cases hl : t.lookup e (.name n) with
    | some i =>
      simp only [hl, Option.ite_none_right_eq_some, Option.some.injEq] at h
      obtain ⟨hfile, rfl⟩ := h
      refine ⟨e, dirAt_eq_some.mpr ⟨hdir, lookup_self hl⟩, .refl t, fun x m => ?_⟩
      rw [iff_or_self]
      rintro ⟨rfl, rfl⟩
      exact ⟨i, hl, hfile⟩
    | none =>
      simp only [hl] at h
      obtain ⟨p, names, hnode, -⟩ := add_nodes h
      refine ⟨e, dirAt_eq_some.mpr ⟨hdir, lookup_dir hnode .self⟩, keeps_add h (.inl rfl) hl,
        fun x m => ?_⟩
      rw [hasFile_add hc h (.inl rfl) hl]
      simp

theorem file_of_lookup {t : Files ν} (hc : Closed t) {e i : ℕ} {n : ν}
    (hi : t.lookup e (.name n) = some i) (hlink : t.link? i = none)
    (hself : t.lookup i .self = none) : t.nodes[i]? = some .file := by
  obtain ⟨node, hnode⟩ : ∃ node, t.nodes[i]? = some node :=
    ⟨_, List.getElem?_eq_getElem (hc e n i hi)⟩
  cases node with
  | file => exact hnode
  | dir p names =>
    rw [lookup_dir hnode] at hself
    cases hself
  | link a target => simp [Files.link?, hnode] at hlink

theorem unlink_effect {t u : Files ν} {d : ℕ} {cs : List (Comp ν)} {n : ν} (hc : Closed t)
    (hn : Unlinked t n) (h : unlink t d (cs ++ [.name n]) = some u) :
    ∃ e, t.dirAt d cs = some e ∧ Keeps t u ∧
      ∀ x m, HasFile u x m ↔ HasFile t x m ∧ ¬ (x = e ∧ m = n) := by
  unfold unlink at h
  rw [List.getLast?_concat, List.dropLast_concat] at h
  split at h
  next m e hm hdir =>
    cases hm
    split at h
    next i hi =>
      split_ifs at h with hself
      cases h
      refine ⟨e, hdir, ⟨fun hc => closed_remove hc e n, steers_remove fun j hj => ?_, ?_⟩,
        hasFile_remove t e n⟩
      · rw [hi] at hj
        cases hj
        exact file_of_lookup hc hi (hn e i hi) (Option.not_isSome_iff_eq_none.mp hself)
      · intro x m i hi _
        rw [lookup_remove] at hi
        split_ifs at hi
        exact hi
    next => cases h
  next => cases h

end Wissbi.FileEntries
