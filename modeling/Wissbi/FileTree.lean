import Mathlib.Data.List.Basic

set_option autoImplicit false

namespace Wissbi.FileTree

inductive Comp (ν : Type*) where
  | self
  | parent
  | name (n : ν)
  deriving DecidableEq, Repr

inductive Node (ν : Type*) where
  | file
  | dir (parent : ℕ) (entries : List (ν × ℕ))
  | link (absolute : Bool) (target : List (Comp ν))
  deriving DecidableEq, Repr

/-- The root is node zero. -/
structure Files (ν : Type*) where
  nodes : List (Node ν)
  deriving DecidableEq, Repr

variable {ν : Type*}

def Files.link? (t : Files ν) (i : ℕ) : Option (Bool × List (Comp ν)) :=
  match t.nodes[i]? with
  | some (.link absolute target) => some (absolute, target)
  | _ => none

def Files.add (t : Files ν) (d : ℕ) (n : ν) (node : Node ν) : Option (Files ν) :=
  match t.nodes[d]? with
  | some (.dir p entries) =>
    some ⟨t.nodes.set d (.dir p ((n, t.nodes.length) :: entries)) ++ [node]⟩
  | _ => none

theorem add_eq_some {t u : Files ν} {d : ℕ} {n : ν} {node : Node ν} (h : t.add d n node = some u) :
    ∃ p entries, t.nodes[d]? = some (.dir p entries) ∧
      u.nodes = t.nodes.set d (.dir p ((n, t.nodes.length) :: entries)) ++ [node] := by
  unfold Files.add at h
  split at h
  · cases h
    exact ⟨_, _, ‹_›, rfl⟩
  · cases h

theorem add_nodes {t u : Files ν} {d : ℕ} {n : ν} {node : Node ν} (h : t.add d n node = some u) :
    ∃ p entries, t.nodes[d]? = some (.dir p entries) ∧
      u.nodes[d]? = some (.dir p ((n, t.nodes.length) :: entries)) ∧
      u.nodes[t.nodes.length]? = some node ∧
      ∀ i, i ≠ d → i ≠ t.nodes.length → u.nodes[i]? = t.nodes[i]? := by
  obtain ⟨p, entries, hd, hu⟩ := add_eq_some h
  have hlt : d < t.nodes.length := (List.getElem?_eq_some_iff.mp hd).1
  refine ⟨p, entries, hd, ?_, ?_, fun i hid hil => ?_⟩
  · rw [hu, List.getElem?_append_left (by simpa using hlt), List.getElem?_set_self hlt]
  · rw [hu, List.getElem?_append_right (by simp)]
    simp
  · rw [hu]
    rcases Nat.lt_or_gt_of_ne hil with hlt | hgt
    · rw [List.getElem?_append_left (by simpa using hlt), List.getElem?_set_ne (Ne.symm hid)]
    · rw [List.getElem?_eq_none (by simp; omega), List.getElem?_eq_none (by omega)]

theorem add_length {t u : Files ν} {d : ℕ} {n : ν} {node : Node ν} (h : t.add d n node = some u) :
    u.nodes.length = t.nodes.length + 1 := by
  obtain ⟨p, entries, -, hu⟩ := add_eq_some h
  simp [hu]

theorem link?_dir {t : Files ν} {d p : ℕ} {entries : List (ν × ℕ)}
    (h : t.nodes[d]? = some (.dir p entries)) : t.link? d = none := by
  simp only [Files.link?, h]

variable [DecidableEq ν]

def Comp.within (d parent : ℕ) (entries : List (ν × ℕ)) : Comp ν → Option ℕ
  | .self => some d
  | .parent => some parent
  | .name n => entries.lookup n

def Files.lookup (t : Files ν) (d : ℕ) (c : Comp ν) : Option ℕ :=
  match t.nodes[d]? with
  | some (.dir parent entries) => c.within d parent entries
  -- a file has nothing in it, not even itself
  | _ => none

/-- The directory in which the last component of a path is looked up, and that component.
A link is replaced by its target, the last one too, and `follow` goes on from there. -/
def Files.locateBelow (t : Files ν) (follow : ℕ → List (Comp ν) → Option (ℕ × Comp ν)) :
    ℕ → List (Comp ν) → Option (ℕ × Comp ν)
  | _, [] => none
  | d, c :: cs =>
    match t.lookup d c with
    | none => if cs.isEmpty then some (d, c) else none
    | some i =>
      match t.link? i with
      | some (absolute, target) => follow (if absolute then 0 else d) (target ++ cs)
      | none => if cs.isEmpty then some (d, c) else t.locateBelow follow i cs

/-- The first argument is the number of links that may still be followed. -/
def Files.locate (t : Files ν) : ℕ → ℕ → List (Comp ν) → Option (ℕ × Comp ν)
  | 0 => t.locateBelow fun _ _ => none
  | k + 1 => t.locateBelow (t.locate k)

def maxSymlinks : ℕ := 40

def Files.find (t : Files ν) (d : ℕ) (cs : List (Comp ν)) : Option (ℕ × Comp ν) :=
  t.locate maxSymlinks d cs

def Files.dirAt (t : Files ν) (d : ℕ) (cs : List (Comp ν)) : Option ℕ :=
  (t.find d (cs ++ [.self])).bind fun r => t.lookup r.1 r.2

/-- `mkdir`. Whatever has the last component's name already, a link too, is in the way. -/
def Files.mkdir (t : Files ν) (d : ℕ) (cs : List (Comp ν)) : Option (Files ν) :=
  match cs.getLast?, t.dirAt d cs.dropLast with
  | some (.name n), some e =>
    if (t.lookup e (.name n)).isSome then none else t.add e n (.dir e [])
  | _, _ => none

/-- `open` with `O_CREAT`, which follows a last link and makes the file that it leads to. -/
def Files.openCreat (t : Files ν) (d : ℕ) (cs : List (Comp ν)) : Option (Files ν) :=
  match t.find d cs with
  | none => none
  | some (e, c) =>
    match t.lookup e c, c with
    | some i, _ => if t.nodes[i]? = some .file then some t else none
    | none, .name n => t.add e n .file
    | none, _ => none

/-- What can be found in one tree is found in the other, and links lead where they led. -/
structure Extends (t u : Files ν) : Prop where
  lookup : ∀ d c i, t.lookup d c = some i → u.lookup d c = some i
  link? : ∀ i, u.link? i = t.link? i

theorem Extends.refl (t : Files ν) : Extends t t := ⟨fun _ _ _ h => h, fun _ => rfl⟩

theorem lookup_dir {t : Files ν} {d p : ℕ} {entries : List (ν × ℕ)}
    (h : t.nodes[d]? = some (.dir p entries)) (c : Comp ν) :
    t.lookup d c = c.within d p entries := by
  simp only [Files.lookup, h]

theorem lookup_eq_some {t : Files ν} {d i : ℕ} {c : Comp ν} (h : t.lookup d c = some i) :
    ∃ p entries, t.nodes[d]? = some (.dir p entries) := by
  unfold Files.lookup at h
  split at h
  · exact ⟨_, _, ‹_›⟩
  · cases h

theorem add_extends {t u : Files ν} {d : ℕ} {n : ν} {node : Node ν} (h : t.add d n node = some u)
    (hnew : t.lookup d (.name n) = none) (hnode : ∀ a p, node ≠ .link a p) : Extends t u := by
  obtain ⟨p, entries, hd, hud, hlast, hrest⟩ := add_nodes h
  have hlt : d < t.nodes.length := (List.getElem?_eq_some_iff.mp hd).1
  have hbeyond : t.nodes[t.nodes.length]? = none := List.getElem?_eq_none (Nat.le_refl _)
  refine ⟨fun e c i hi => ?_, fun i => ?_⟩
  · obtain ⟨p', entries', he⟩ := lookup_eq_some hi
    by_cases hed : e = d
    · subst hed
      rw [lookup_dir hd] at hi hnew
      rw [lookup_dir hud]
      cases c with
      | self => exact hi
      | parent => exact hi
      | name m =>
        have hmn : (m == n) = false := by
          rw [beq_eq_false_iff_ne]
          rintro rfl
          rw [hnew] at hi
          cases hi
        simpa [Comp.within, List.lookup_cons, hmn] using hi
    · have hel : e ≠ t.nodes.length := by
        rintro rfl
        rw [hbeyond] at he
        cases he
      unfold Files.lookup at hi ⊢
      rwa [hrest e hed hel]
  · unfold Files.link?
    by_cases hid : i = d
    · rw [hid, hud, hd]
    · by_cases hil : i = t.nodes.length
      · rw [hil, hlast, hbeyond]
        cases node with
        | file => rfl
        | dir _ _ => rfl
        | link a q => exact absurd rfl (hnode a q)
      · rw [hrest i hid hil]

theorem add_lookup {t u : Files ν} {d : ℕ} {n : ν} {node : Node ν} (h : t.add d n node = some u) :
    u.lookup d (.name n) = some t.nodes.length := by
  obtain ⟨p, entries, -, hud, -⟩ := add_nodes h
  simp [lookup_dir hud, Comp.within]

section Locate
variable (follow : ℕ → List (Comp ν) → Option (ℕ × Comp ν))

theorem locateBelow_absent {t : Files ν} {d : ℕ} {c : Comp ν} (h : t.lookup d c = none)
    (cs : List (Comp ν)) :
    t.locateBelow follow d (c :: cs) = if cs.isEmpty then some (d, c) else none := by
  simp only [Files.locateBelow, h]

theorem locateBelow_link {t : Files ν} {d i : ℕ} {c : Comp ν} {absolute : Bool}
    {target : List (Comp ν)} (h : t.lookup d c = some i)
    (hlink : t.link? i = some (absolute, target)) (cs : List (Comp ν)) :
    t.locateBelow follow d (c :: cs) = follow (if absolute then 0 else d) (target ++ cs) := by
  simp only [Files.locateBelow, h, hlink]

theorem locateBelow_node {t : Files ν} {d i : ℕ} {c : Comp ν} (h : t.lookup d c = some i)
    (hlink : t.link? i = none) (cs : List (Comp ν)) :
    t.locateBelow follow d (c :: cs) =
      if cs.isEmpty then some (d, c) else t.locateBelow follow i cs := by
  simp only [Files.locateBelow, h, hlink]

theorem locateBelow_self (t : Files ν) (d : ℕ) :
    t.locateBelow follow d [.self] = some (d, .self) := by
  cases h : t.lookup d .self with
  | none => exact locateBelow_absent follow h []
  | some i =>
    obtain ⟨p, entries, hd⟩ := lookup_eq_some h
    have hi : i = d := by
      rw [lookup_dir hd] at h
      exact (Option.some.inj h).symm
    subst hi
    exact locateBelow_node follow h (link?_dir hd) []

/-- A path that goes on after a first part leads nowhere whatever follows, or what follows
starts in the directory that the first part leads to, with the links that are left. -/
theorem locate_first (t : Files ν) (k d : ℕ) (ps : List (Comp ν)) :
    (∀ rest, rest ≠ [] → t.locate k d (ps ++ rest) = none) ∨
    ∃ j e, ∀ rest, rest ≠ [] → t.locate k d (ps ++ rest) = t.locate j e rest := by
  -- one stretch between two links; the induction over the stretches is at the end
  have hbelow : ∀ k follow, t.locate k = t.locateBelow follow →
      (∀ d ps, (∀ rest, rest ≠ [] → follow d (ps ++ rest) = none) ∨
        ∃ j e, ∀ rest, rest ≠ [] → follow d (ps ++ rest) = t.locate j e rest) →
      ∀ ps d, (∀ rest, rest ≠ [] → t.locate k d (ps ++ rest) = none) ∨
        ∃ j e, ∀ rest, rest ≠ [] → t.locate k d (ps ++ rest) = t.locate j e rest := by
    intro k follow hk ih ps
    induction ps with
    | nil => exact fun d => .inr ⟨k, d, fun _ _ => rfl⟩
    | cons c ps ihps =>
      intro d
      have hempty (rest : List (Comp ν)) (hne : rest ≠ []) : (ps ++ rest).isEmpty = false := by
        simp [hne]
      cases hc : t.lookup d c with
      | none =>
        refine .inl fun rest hne => ?_
        rw [hk, List.cons_append, locateBelow_absent _ hc, hempty rest hne]
        rfl
      | some i =>
        cases hlink : t.link? i with
        | some l =>
          have hstep (rest : List (Comp ν)) : t.locate k d (c :: ps ++ rest) =
              follow (if l.1 then 0 else d) ((l.2 ++ ps) ++ rest) := by
            rw [hk, List.cons_append, locateBelow_link _ hc hlink, List.append_assoc]
          simp only [hstep]
          exact ih _ _
        | none =>
          have hstep (rest : List (Comp ν)) (hne : rest ≠ []) :
              t.locate k d (c :: ps ++ rest) = t.locate k i (ps ++ rest) := by
            rw [hk, List.cons_append, locateBelow_node _ hc hlink, hempty rest hne]
            rfl
          refine (ihps i).imp (fun h rest hne => ?_) fun ⟨j, e, h⟩ => ⟨j, e, fun rest hne => ?_⟩
          · rw [hstep rest hne, h rest hne]
          · rw [hstep rest hne, h rest hne]
  induction k generalizing d ps with
  | zero => exact hbelow 0 _ rfl (fun _ _ => .inl fun _ _ => rfl) ps d
  | succ k ih => exact hbelow (k + 1) _ rfl ih ps d

theorem locate_below (t : Files ν) (k : ℕ) : ∃ follow, t.locate k = t.locateBelow follow := by
  cases k with
  | zero => exact ⟨_, rfl⟩
  | succ k => exact ⟨_, rfl⟩

theorem locate_self (t : Files ν) (k d : ℕ) : t.locate k d [.self] = some (d, .self) := by
  obtain ⟨follow, hbelow⟩ := locate_below t k
  rw [hbelow]
  exact locateBelow_self follow t d

theorem locate_append {t : Files ν} {k d e : ℕ} {ps rest : List (Comp ν)}
    (h : t.locate k d (ps ++ [.self]) = some (e, .self)) (hne : rest ≠ []) :
    ∃ j, t.locate k d (ps ++ rest) = t.locate j e rest := by
  rcases locate_first t k d ps with hnone | ⟨j, e', hfirst⟩
  · rw [hnone _ (by simp)] at h
    cases h
  · rw [hfirst _ (by simp), locate_self] at h
    cases h
    exact ⟨j, hfirst rest hne⟩

theorem locate_extends {t u : Files ν} (h : Extends t u) {e i : ℕ} {c : Comp ν}
    (hfound : t.lookup e c = some i) (k d : ℕ) (cs : List (Comp ν))
    (hcs : t.locate k d cs = some (e, c)) : u.locate k d cs = some (e, c) := by
  have hbelow : ∀ follow follow' : ℕ → List (Comp ν) → Option (ℕ × Comp ν),
      (∀ d cs, follow d cs = some (e, c) → follow' d cs = some (e, c)) →
      ∀ cs d, t.locateBelow follow d cs = some (e, c) →
        u.locateBelow follow' d cs = some (e, c) := by
    intro follow follow' ih cs
    induction cs with
    | nil => exact fun d hd => by cases hd
    | cons b cs ihcs =>
      intro d hd
      cases hb : t.lookup d b with
      | none =>
        rw [locateBelow_absent _ hb] at hd
        split_ifs at hd
        cases hd
        rw [hfound] at hb
        cases hb
      | some j =>
        have hub := h.lookup d b j hb
        cases hlink : t.link? j with
        | some l =>
          rw [locateBelow_link _ hb hlink] at hd
          rw [locateBelow_link _ hub ((h.link? j).trans hlink)]
          exact ih _ _ hd
        | none =>
          rw [locateBelow_node _ hb hlink] at hd
          rw [locateBelow_node _ hub ((h.link? j).trans hlink)]
          split_ifs at hd ⊢
          · exact hd
          · exact ihcs _ hd
  induction k generalizing d cs with
  | zero => exact hbelow _ _ (fun _ _ h => h) cs d hcs
  | succ k ih => exact hbelow _ _ (fun d cs => ih d cs) cs d hcs

theorem locate_concat {t : Files ν} {c : Comp ν} {r : ℕ × Comp ν} {k d : ℕ} {cs : List (Comp ν)}
    (h : t.locate k d (cs ++ [c]) = some r) :
    ∃ e, t.locate k d (cs ++ [.self]) = some (e, .self) ∧
      (r = (e, c) ∨ (t.lookup e c).isSome) := by
  rcases locate_first t k d cs with hnone | ⟨j, e, hfirst⟩
  · rw [hnone _ (by simp)] at h
    cases h
  · refine ⟨e, (hfirst _ (by simp)).trans (locate_self t j e), ?_⟩
    rw [hfirst _ (by simp)] at h
    cases hc : t.lookup e c with
    | some i => exact .inr rfl
    | none =>
      obtain ⟨follow, hbelow⟩ := locate_below t j
      rw [hbelow, locateBelow_absent follow hc] at h
      exact .inl (Option.some.inj h).symm

end Locate

theorem dirAt_eq_some {t : Files ν} {d e : ℕ} {cs : List (Comp ν)} :
    t.dirAt d cs = some e ↔
      t.find d (cs ++ [.self]) = some (e, .self) ∧ t.lookup e .self = some e := by
  unfold Files.dirAt
  constructor
  · intro h
    obtain ⟨r, hr, he⟩ := Option.bind_eq_some_iff.mp h
    obtain ⟨e', he', -⟩ := locate_concat hr
    have hre : r = (e', .self) := Option.some.inj (hr.symm.trans he')
    subst hre
    obtain ⟨p, entries, hd⟩ := lookup_eq_some he
    have hee : e' = e := by
      rw [lookup_dir hd] at he
      exact Option.some.inj he
    subst hee
    exact ⟨hr, he⟩
  · rintro ⟨hr, he⟩
    rw [hr]
    exact he

theorem dirAt_extends {t u : Files ν} (h : Extends t u) {d e : ℕ} {cs : List (Comp ν)}
    (he : t.dirAt d cs = some e) : u.dirAt d cs = some e := by
  obtain ⟨hfind, hself⟩ := dirAt_eq_some.mp he
  exact dirAt_eq_some.mpr ⟨locate_extends h hself _ _ _ hfind, h.lookup _ _ _ hself⟩

theorem lookup_self {t : Files ν} {d i : ℕ} {c : Comp ν} (h : t.lookup d c = some i) :
    t.lookup d .self = some d := by
  obtain ⟨p, entries, hd⟩ := lookup_eq_some h
  exact lookup_dir hd .self

theorem mkdir_eq_some {t u : Files ν} {d : ℕ} {cs : List (Comp ν)} (h : t.mkdir d cs = some u) :
    ∃ ps n e, cs = ps ++ [.name n] ∧ t.dirAt d ps = some e ∧ t.lookup e (.name n) = none ∧
      t.add e n (.dir e []) = some u := by
  unfold Files.mkdir at h
  split at h
  case h_1 n e hlast hdir =>
    split_ifs at h with hno
    refine ⟨cs.dropLast, n, e, ?_, hdir, by simpa using hno, h⟩
    exact (List.dropLast_append_getLast? _ hlast).symm
  case h_2 => cases h

theorem openCreat_after_mkdir {t u : Files ν} {d : ℕ} {cs : List (Comp ν)}
    (h : t.mkdir d cs = some u) (m : ν) : (u.openCreat d (cs ++ [.name m])).isSome := by
  obtain ⟨ps, n, e, rfl, hdir, hnew, hadd⟩ := mkdir_eq_some h
  obtain ⟨p, entries, -, -, hlast, -⟩ := add_nodes hadd
  have hext := add_extends hadd hnew (by simp)
  obtain ⟨hps, -⟩ := dirAt_eq_some.mp (dirAt_extends hext hdir)
  have hno : u.lookup t.nodes.length (.name m) = none := lookup_dir hlast _
  have hfind : u.find d (ps ++ [.name n, .name m]) = some (t.nodes.length, .name m) := by
    obtain ⟨j, hj⟩ := locate_append hps (List.cons_ne_nil (.name n) [.name m])
    obtain ⟨follow, hbelow⟩ := locate_below u j
    rw [Files.find, hj, hbelow, locateBelow_node follow (add_lookup hadd) (link?_dir hlast)]
    exact locateBelow_absent follow hno []
  rw [List.append_assoc]
  simp [Files.openCreat, hfind, hno, Files.add, hlast]

theorem openCreat_cases {t u : Files ν} {d : ℕ} {cs : List (Comp ν)}
    (h : t.openCreat d cs = some u) : ∃ e c, t.find d cs = some (e, c) ∧
      ((u = t ∧ (t.lookup e c).isSome) ∨
        ∃ n, c = .name n ∧ t.lookup e c = none ∧ t.add e n .file = some u) := by
  unfold Files.openCreat at h
  split at h
  case h_1 => cases h
  case h_2 e c hfind =>
    refine ⟨e, c, hfind, ?_⟩
    split at h
    case h_1 i hi =>
      split_ifs at h
      exact Or.inl ⟨(Option.some.inj h).symm, by rw [hi]; rfl⟩
    case h_2 n hno => exact Or.inr ⟨n, rfl, hno, h⟩
    case h_3 => cases h

theorem openCreat_length {t u : Files ν} {d : ℕ} {cs : List (Comp ν)}
    (h : t.openCreat d cs = some u) : t.nodes.length ≤ u.nodes.length := by
  obtain ⟨e, c, -, ⟨rfl, -⟩ | ⟨n, -, -, hadd⟩⟩ := openCreat_cases h
  · exact Nat.le_refl _
  · rw [add_length hadd]
    exact Nat.le_succ _

theorem openCreat_entry {t u : Files ν} {d : ℕ} {cs : List (Comp ν)} {n : ν}
    (h : t.openCreat d (cs ++ [.name n]) = some u) :
    ∃ e, u.dirAt d cs = some e ∧ (u.lookup e (.name n)).isSome := by
  obtain ⟨e', c, hfind, hcases⟩ := openCreat_cases h
  obtain ⟨e, he, hplace⟩ := locate_concat hfind
  have hext : Extends t u := by
    rcases hcases with ⟨rfl, -⟩ | ⟨m, rfl, hno, hadd⟩
    · exact Extends.refl _
    · exact add_extends hadd hno (by simp)
  have hthere : t.lookup e .self = some e ∧ (u.lookup e (.name n)).isSome := by
    rcases hplace with hr | hi
    · cases hr
      rcases hcases with ⟨rfl, hi⟩ | ⟨m, hm, -, hadd⟩
      · obtain ⟨i, hi'⟩ := Option.isSome_iff_exists.mp hi
        exact ⟨lookup_self hi', hi⟩
      · cases hm
        obtain ⟨p, entries, hd, -⟩ := add_nodes hadd
        exact ⟨lookup_dir hd .self, by rw [add_lookup hadd]; rfl⟩
    · obtain ⟨i, hi⟩ := Option.isSome_iff_exists.mp hi
      exact ⟨lookup_self hi, by rw [hext.lookup _ _ _ hi]; rfl⟩
  exact ⟨e, dirAt_extends hext (dirAt_eq_some.mpr ⟨he, hthere.1⟩), hthere.2⟩

end Wissbi.FileTree
