import Wissbi.QueueTopics

set_option autoImplicit false

namespace Wissbi.DirListing
open ConnectorMachine ConnectorPass QueueTopics Runs SubEntries Util

structure FileName where
  str : Str
  ne_dot : str ≠ [dot]
  ne_dotdot : str ≠ [dot, dot]

inductive Item where
  | self
  | parent
  | entry (queueName : Str) (sub : Sub)
  | childDir (name : FileName)
  | childLink (name : FileName)
  | other (name : FileName) (h : ∀ q (b : Sub), name.str ≠ entryName q b.connStr b.topicMode)

def Item.name : Item → Str
  | .self => [dot]
  | .parent => [dot, dot]
  | .entry q b => entryName q b.connStr b.topicMode
  | .childDir n => n.str
  | .childLink n => n.str
  | .other n _ => n.str

def Item.type : Item → DType
  | .self => .dir
  | .parent => .dir
  | .entry _ _ => .reg
  | .childDir _ => .dir
  | .childLink _ => .lnk
  | .other _ _ => .reg

def Item.subscriber : Item → Option (Str × Str)
  | .entry q b => some (b.connStr, b.dest q)
  | _ => none

/-- What `readdir` returns; `typed` is whether the file system reports the type. -/
def dirent (x : Item × Bool) : Dirent := ⟨x.1.name, if x.2 then x.1.type else .unknown⟩

abbrev Content := List (Item × Bool)

def subList (dir : Content) : List (Str × Str) := getSubList (some (dir.map dirent))

def ListsSubscribers (dir : Content) : Prop :=
  subList dir = dir.filterMap fun x => x.1.subscriber

def BranchesServed (dir : Content) : Prop :=
  ∀ acts s, run step (start Str Str) acts = some s →
    (∀ es, .list es ∈ acts → es = subList dir) →
    ∀ d, (s.branchMap d).isSome → ∃ x ∈ dir, ∃ p ∈ x.1.subscriber, p.2 = d

/-- Everything but the subscribers is the directory or its parent, or a child that is a
directory and is reported as one. -/
def Plain (dir : Content) : Prop :=
  ∀ x ∈ dir, match x.1 with
    | .self | .parent | .entry _ _ => True
    | .childDir _ => x.2 = true
    | .childLink _ | .other _ _ => False

theorem skipped_dirent (x : Item × Bool) :
    skipped (dirent x) = true ↔ match x.1 with
      | .self | .parent => True
      | .entry _ _ | .childLink _ | .other _ _ => False
      | .childDir _ => x.2 = true := by
  obtain ⟨item, typed⟩ := x
  cases item with
  | self => simp [skipped, dirent, Item.name]
  | parent => simp [skipped, dirent, Item.name]
  | entry q b =>
    have h := entryName_not_skipped q b.connStr b.topicMode (if typed then .reg else .unknown)
      (by cases typed <;> decide)
    simp only [iff_false, Bool.not_eq_true]
    exact h
  | childDir n => cases typed <;> simp [skipped, dirent, Item.name, Item.type, n.ne_dot, n.ne_dotdot]
  | childLink n => cases typed <;> simp [skipped, dirent, Item.name, Item.type, n.ne_dot, n.ne_dotdot]
  | other n _ => cases typed <;> simp [skipped, dirent, Item.name, Item.type, n.ne_dot, n.ne_dotdot]

theorem parse_entry (q : Str) (b : Sub) (typed : Bool) :
    parseEntry (dirent (.entry q b, typed)).name = (b.connStr, b.dest q) := by
  obtain ⟨hh, hc, -⟩ := connectString_clean b.addr
  exact parseEntry_entryName q b.connStr b.topicMode hc hh

theorem listsSubscribers_of_plain {dir : Content} (h : Plain dir) : ListsSubscribers dir := by
  unfold ListsSubscribers subList getSubList
  induction dir with
  | nil => rfl
  | cons x dir ih =>
    obtain ⟨hx, hrest⟩ := List.forall_mem_cons.mp h
    have ih := ih hrest
    have hskip := skipped_dirent x
    obtain ⟨item, typed⟩ := x
    cases item with
    | entry q b =>
      have hno : skipped (dirent (.entry q b, typed)) = false := by simpa using hskip
      simp only [List.map_cons, List.filter_cons, hno, Bool.not_false, ↓reduceIte,
        List.filterMap_cons, Item.subscriber, parse_entry] at ih ⊢
      rw [ih]
    | self | parent | childDir =>
      have hyes : skipped (dirent _) = true := hskip.mpr hx
      simp only [List.map_cons, List.filter_cons, hyes, Bool.not_true, Bool.false_eq_true,
        ↓reduceIte, List.filterMap_cons, Item.subscriber] at ih ⊢
      exact ih
    | childLink | other => cases hx

theorem imp_of_countP_eq {α : Type} {p q : α → Bool} {l : List α}
    (himp : ∀ x ∈ l, p x = true → q x = true) (h : l.countP q = l.countP p) :
    ∀ x ∈ l, q x = true → p x = true := by
  induction l with
  | nil => simp
  | cons x l ih =>
    obtain ⟨hx, hl⟩ := List.forall_mem_cons.mp himp
    have hle : l.countP p ≤ l.countP q := List.countP_mono_left hl
    rw [List.countP_cons, List.countP_cons] at h
    rw [List.forall_mem_cons]
    cases hp : p x with
    | true => exact ⟨fun _ => rfl, ih hl (by simpa [hp, hx hp] using h)⟩
    | false =>
      cases hq : q x with
      | true =>
        simp only [hp, hq, ↓reduceIte, Bool.false_eq_true] at h
        omega
      | false => exact ⟨fun hc => hc, ih hl (by simpa [hp, hq] using h)⟩

theorem plain_of_listsSubscribers {dir : Content} (h : ListsSubscribers dir) : Plain dir := by
  have hlist : (subList dir).length = dir.countP fun x => !skipped (dirent x) := by
    simp [subList, getSubList, ← List.countP_eq_length_filter, List.countP_map, Function.comp_def]
  have hsubs : (dir.filterMap fun x => x.1.subscriber).length =
      dir.countP fun x => x.1.subscriber.isSome := List.length_filterMap_eq_countP
  have hcount := congrArg List.length h
  rw [hlist, hsubs] at hcount
  have himp := imp_of_countP_eq (fun x _ hx => ?_) hcount
  · intro x hx
    have hserved := himp x hx
    have hskip := skipped_dirent x
    obtain ⟨item, typed⟩ := x
    cases item with
    | self | parent | entry => trivial
    | childDir n => cases typed <;> simp_all [Item.subscriber]
    | childLink n => simp_all [Item.subscriber]
    | other n _ => simp_all [Item.subscriber]
  · have hskip := skipped_dirent x
    obtain ⟨item, typed⟩ := x
    cases item with
    | entry q b => simpa using hskip
    | self | parent | childDir | childLink | other => cases hx

theorem branchesServed_of_lists {dir : Content} (h : ListsSubscribers dir) :
    BranchesServed dir := by
  intro acts s hrun hlist
  refine run_listed (fun d => ∃ x ∈ dir, ∃ p ∈ x.1.subscriber, p.2 = d) hrun ?_
  intro es hes e he
  rw [hlist es hes, show subList dir = _ from h] at he
  obtain ⟨x, hx, hp⟩ := List.mem_filterMap.mp he
  exact ⟨x, hx, e, hp, rfl⟩

/-- The listing is that of the subscribers, and `ConnectorLoop` makes branches for them only,
exactly when the directory is plain. -/
theorem lists_subscribers_iff (dir : Content) :
    (ListsSubscribers dir ∧ BranchesServed dir) ↔ Plain dir := by
  constructor
  · exact fun h => plain_of_listsSubscribers h.1
  · intro h
    have hlists := listsSubscribers_of_plain h
    exact ⟨hlists, branchesServed_of_lists hlists⟩

def withChild (child : Item) (typed : Bool) : Content :=
  [(.self, typed), (.parent, typed),
    (.entry (ascii "foo") ⟨⟨afInet, htons 1, ⟨10, 0, 0, 1⟩⟩, false⟩, typed), (child, typed)]

def bar : FileName := ⟨ascii "bar", by decide, by decide⟩

/-- The child is a link, or a directory whose type is not reported. It is listed as a
subscriber, and gets a branch of its own. -/
theorem child_queue_listed :
    subList (withChild (.childLink bar) true) =
      [(ascii "10.0.0.1:1", ascii "foo"), (ascii "bar", ascii "bar")] ∧
    subList (withChild (.childDir bar) false) =
      [(ascii "10.0.0.1:1", ascii "foo"), (ascii "bar", ascii "bar")] ∧
    ¬ ListsSubscribers (withChild (.childLink bar) true) ∧
    ¬ BranchesServed (withChild (.childLink bar) true) := by
  refine ⟨by decide, by decide, fun h => ?_, fun h => ?_⟩
  · exact plain_of_listsSubscribers h (.childLink bar, true) (by simp [withChild])
  · obtain ⟨acts, s, hrun, hlist, hbranch⟩ :=
      pass_failing (subList (withChild (.childLink bar) true))
    have hbar : (s.branchMap (ascii "bar")).isSome :=
      hbranch (ascii "bar", ascii "bar") (by decide)
    have honly : ∀ es, .list es ∈ .list (subList (withChild (.childLink bar) true)) :: acts →
        es = subList (withChild (.childLink bar) true) := by
      intro es hes
      rcases List.mem_cons.mp hes with hes | hes
      · exact Act.list.inj hes
      · exact absurd hes (hlist es)
    obtain ⟨x, hx, p, hp, hd⟩ := h _ s hrun honly _ hbar
    simp only [withChild, List.mem_cons, List.not_mem_nil, or_false] at hx
    rcases hx with rfl | rfl | rfl | rfl
    · cases hp
    · cases hp
    · cases hp
      exact absurd hd (by decide)
    · cases hp

end Wissbi.DirListing
