import Wissbi.FileEntries
import Wissbi.QueueTopics
import Wissbi.Registration

set_option autoImplicit false

namespace Wissbi.Discovery
open FileEntries FileTree QueueTopics Registration SubEntries Util

structure Place where
  cwd : ℕ
  metaDir : Str
  queueName : Str
  deriving DecidableEq, Repr

def Place.path (p : Place) : Str := subDirPath p.metaDir p.queueName

def resolve (t : Files Name) (p : Place) : Option ℕ :=
  (components p.path).bind (t.dirAt (base p.cwd p.path))

/-- The constructor of a `SubEntry` or a later `renew`, which make the same calls, and its
destructor. -/
inductive Event where
  | renew (p : Place) (b : Sub) (calls : Calls)
  | destroy (p : Place) (b : Sub) (ok : Bool)

/-- What has succeeded: the `open` of an entry or its `unlink`. -/
inductive Op where
  | made (p : Place) (name : Str)
  | gone (p : Place) (name : Str)
  deriving DecidableEq

def Op.place : Op → Place
  | .made p _ => p
  | .gone p _ => p

def Op.name : Op → Str
  | .made _ n => n
  | .gone _ n => n

def unlink (ok : Bool) (cwd : ℕ) (t : Files Name) (path : Str) : Option (Files Name) :=
  if ok then (components path).bind (FileEntries.unlink t (base cwd path)) else none

def withDirectory (calls : Calls) (p : Place) (t : Files Name) : Files Name :=
  (mkdir calls.mkdirOk p.cwd t p.path).getD t

def step (s : Files Name × List Op) : Event → Files Name × List Op
  | .renew p b calls =>
    let name := entryName p.queueName b.connStr b.topicMode
    let node := nodeName p.metaDir p.queueName b.connStr b.topicMode
    ((subEntry calls p.cwd p.metaDir p.queueName b.connStr b.topicMode s.1).2,
      if (openCreat calls.openOk p.cwd (withDirectory calls p s.1) node).isSome
      then s.2 ++ [.made p name] else s.2)
  | .destroy p b ok =>
    let name := entryName p.queueName b.connStr b.topicMode
    match unlink ok p.cwd s.1 (nodeName p.metaDir p.queueName b.connStr b.topicMode) with
    | some t => (t, s.2 ++ [.gone p name])
    | none => s

/-- The table, when every place stands for the directory that `at'` gives it. -/
def replay (at' : Place → Option ℕ) (table : ℕ → Str → Prop) : List Op → ℕ → Str → Prop
  | [] => table
  | .made p n :: ops => replay at' (fun e m => (at' p = some e ∧ m = n) ∨ table e m) ops
  | .gone p n :: ops => replay at' (fun e m => table e m ∧ ¬ (at' p = some e ∧ m = n)) ops

def Has (t : Files Name) (e : ℕ) (name : Str) : Prop :=
  ∃ h : name.length ≤ nameMax, HasFile t e ⟨name, h⟩

theorem replay_append (at' : Place → Option ℕ) (table : ℕ → Str → Prop) (ops ops' : List Op) :
    replay at' table (ops ++ ops') = replay at' (replay at' table ops) ops' := by
  induction ops generalizing table with
  | nil => rfl
  | cons op ops ih => cases op <;> exact ih _

theorem replay_congr {at' at'' : Place → Option ℕ} (table : ℕ → Str → Prop) (ops : List Op)
    (h : ∀ op ∈ ops, at'' op.place = at' op.place) :
    replay at'' table ops = replay at' table ops := by
  induction ops generalizing table with
  | nil => rfl
  | cons op ops ih =>
    have hop := h op (by simp)
    have hrest := fun table => ih table fun x hx => h x (by simp [hx])
    cases op with
    | made p n =>
      change at'' p = at' p at hop
      simp only [replay, hop, hrest]
    | gone p n =>
      change at'' p = at' p at hop
      simp only [replay, hop, hrest]

/-- The tree and the table agree, and paths lead where they led. -/
structure Agrees (t₀ : Files Name) (s : Files Name × List Op) : Prop where
  closed : Closed s.1
  unlinked : ∀ n : Name, comma ∈ n.1 → Unlinked s.1 n
  steady : ∀ p e, resolve t₀ p = some e → resolve s.1 p = some e
  resolved : ∀ op ∈ s.2, (resolve s.1 op.place).isSome
  content : ∀ e n, Has s.1 e n ↔ replay (resolve s.1) (Has t₀) s.2 e n

theorem resolve_keeps {t u : Files Name} (h : Keeps t u) {p : Place} {e : ℕ}
    (he : resolve t p = some e) : resolve u p = some e := by
  obtain ⟨cs, hcs, hdir⟩ := Option.bind_eq_some_iff.mp he
  rw [resolve, hcs]
  exact dirAt_steers h.steers hdir

theorem Agrees.replay_keeps {t₀ u : Files Name} {s : Files Name × List Op} (h : Agrees t₀ s)
    (hk : Keeps s.1 u) : replay (resolve u) (Has t₀) s.2 = replay (resolve s.1) (Has t₀) s.2 := by
  refine replay_congr _ _ fun op hop => ?_
  obtain ⟨e, he⟩ := Option.isSome_iff_exists.mp (h.resolved op hop)
  rw [he]
  exact resolve_keeps hk he

theorem Agrees.next {t₀ u : Files Name} {s : Files Name × List Op} (h : Agrees t₀ s)
    (hk : Keeps s.1 u) (ops : List Op) (hops : ∀ op ∈ ops, (resolve u op.place).isSome)
    (hfiles : ∀ e n, Has u e n ↔ replay (resolve u) (Has s.1) ops e n) :
    Agrees t₀ (u, s.2 ++ ops) where
  closed := hk.closed h.closed
  unlinked := fun n hn => hk.unlinked (h.unlinked n hn)
  steady := fun p e he => resolve_keeps hk (h.steady p e he)
  resolved := by
    intro op hop
    rcases List.mem_append.mp hop with hop | hop
    · obtain ⟨e, he⟩ := Option.isSome_iff_exists.mp (h.resolved op hop)
      exact Option.isSome_iff_exists.mpr ⟨e, resolve_keeps hk he⟩
    · exact hops op hop
  content := by
    intro e n
    have hbefore : Has s.1 = replay (resolve s.1) (Has t₀) s.2 := by
      funext e n
      exact propext (h.content e n)
    rw [hfiles, hbefore, replay_append, h.replay_keeps hk]

theorem Agrees.same {t₀ u : Files Name} {s : Files Name × List Op} (h : Agrees t₀ s)
    (hk : Keeps s.1 u) (hfiles : ∀ e n, HasFile u e n ↔ HasFile s.1 e n) : Agrees t₀ (u, s.2) := by
  have hnext := h.next hk [] (by simp) fun e n => by simp only [replay, Has, hfiles]
  rwa [List.append_nil] at hnext

theorem comma_mem_entryName (queueName addrStr : Str) (topicMode : Bool) :
    comma ∈ entryName queueName addrStr topicMode := by
  simp [entryName]

/-- The path of an entry leads into the directory of its queue. -/
theorem components_entry {p : Place} {b : Sub} {cs : List (Comp Name)}
    (h : components (nodeName p.metaDir p.queueName b.connStr b.topicMode) = some cs) :
    ∃ ps, ∃ hname : (entryName p.queueName b.connStr b.topicMode).length ≤ nameMax,
      components p.path = some ps ∧ cs = ps ++ [.name ⟨_, hname⟩] := by
  obtain ⟨-, -, hslash⟩ := connectString_clean b.addr
  exact ((components_nodeName hslash).mp h).2

theorem withDirectory_agrees {t₀ : Files Name} {s : Files Name × List Op} (h : Agrees t₀ s)
    (calls : Calls) (p : Place) : Agrees t₀ (withDirectory calls p s.1, s.2) := by
  unfold withDirectory
  cases hmk : mkdir calls.mkdirOk p.cwd s.1 p.path with
  | none => exact h
  | some u =>
    obtain ⟨-, cs, -, hu⟩ := mkdir_eq_some_iff.mp hmk
    obtain ⟨hk, hfiles⟩ := mkdir_effect h.closed hu
    exact h.same hk hfiles

theorem open_agrees {t₀ u : Files Name} {s : Files Name × List Op} (h : Agrees t₀ s) {ok : Bool}
    {p : Place} {b : Sub}
    (hopen : openCreat ok p.cwd s.1 (nodeName p.metaDir p.queueName b.connStr b.topicMode) =
      some u) :
    Agrees t₀ (u, s.2 ++ [.made p (entryName p.queueName b.connStr b.topicMode)]) := by
  obtain ⟨-, cs, hcs, hu⟩ := openCreat_eq_some_iff.mp hopen
  obtain ⟨ps, hname, hps, rfl⟩ := components_entry hcs
  rw [base_nodeName] at hu
  obtain ⟨e, hdir, hk, hfiles⟩ := openCreat_effect h.closed
    (h.unlinked _ (comma_mem_entryName _ _ _)) hu
  have he : resolve u p = some e := resolve_keeps hk (by rw [resolve, hps]; exact hdir)
  refine h.next hk _ (by simp [Op.place, he]) fun x n => ?_
  simp only [replay, Has, hfiles, he, Option.some.injEq, Subtype.mk.injEq]
  constructor
  · rintro ⟨hn, ⟨rfl, rfl⟩ | hold⟩
    · exact .inl ⟨rfl, rfl⟩
    · exact .inr ⟨hn, hold⟩
  · rintro (⟨rfl, rfl⟩ | ⟨hn, hold⟩)
    · exact ⟨hname, .inl ⟨rfl, rfl⟩⟩
    · exact ⟨hn, .inr hold⟩

theorem unlink_agrees {t₀ u : Files Name} {s : Files Name × List Op} (h : Agrees t₀ s) {ok : Bool}
    {p : Place} {b : Sub}
    (hgone : unlink ok p.cwd s.1 (nodeName p.metaDir p.queueName b.connStr b.topicMode) = some u) :
    Agrees t₀ (u, s.2 ++ [.gone p (entryName p.queueName b.connStr b.topicMode)]) := by
  obtain ⟨cs, hcs, hu⟩ : ∃ cs, components (nodeName p.metaDir p.queueName b.connStr b.topicMode) =
      some cs ∧ FileEntries.unlink s.1
        (base p.cwd (nodeName p.metaDir p.queueName b.connStr b.topicMode)) cs = some u := by
    unfold unlink at hgone
    split at hgone
    next => exact Option.bind_eq_some_iff.mp hgone
    next => cases hgone
  obtain ⟨ps, hname, hps, rfl⟩ := components_entry hcs
  rw [base_nodeName] at hu
  obtain ⟨e, hdir, hk, hfiles⟩ := unlink_effect h.closed
    (h.unlinked _ (comma_mem_entryName _ _ _)) hu
  have he : resolve u p = some e := resolve_keeps hk (by rw [resolve, hps]; exact hdir)
  refine h.next hk _ (by simp [Op.place, he]) fun x n => ?_
  simp only [replay, Has, hfiles, he, Option.some.injEq, Subtype.mk.injEq, eq_comm]
  constructor
  · rintro ⟨hn, hold, hne⟩
    exact ⟨⟨hn, hold⟩, hne⟩
  · rintro ⟨⟨hn, hold⟩, hne⟩
    exact ⟨hn, hold, hne⟩

theorem renew_tree (calls : Calls) (p : Place) (b : Sub) (t : Files Name) :
    (subEntry calls p.cwd p.metaDir p.queueName b.connStr b.topicMode t).2 =
      (openCreat calls.openOk p.cwd (withDirectory calls p t)
        (nodeName p.metaDir p.queueName b.connStr b.topicMode)).getD (withDirectory calls p t) := by
  simp only [subEntry, Registration.renew]
  split
  next hopen => exact (congrArg (Option.getD · _) hopen).symm
  next u hopen =>
    have hget := congrArg (Option.getD · (withDirectory calls p t)) hopen
    split
    next => exact hget.symm
    next => exact hget.symm

theorem step_agrees {t₀ : Files Name} {s : Files Name × List Op} (h : Agrees t₀ s) (ev : Event) :
    Agrees t₀ (step s ev) := by
  cases ev with
  | renew p b calls =>
    have hdir := withDirectory_agrees h calls p
    simp only [step, renew_tree]
    cases hopen : openCreat calls.openOk p.cwd (withDirectory calls p s.1)
        (nodeName p.metaDir p.queueName b.connStr b.topicMode) with
    | none => exact hdir
    | some u => exact open_agrees hdir hopen
  | destroy p b ok =>
    simp only [step]
    cases hgone : unlink ok p.cwd s.1
        (nodeName p.metaDir p.queueName b.connStr b.topicMode) with
    | none => exact h
    | some u => exact unlink_agrees h hgone

theorem run_agrees {t₀ : Files Name} (hclosed : Closed t₀)
    (hlinks : ∀ n : Name, comma ∈ n.1 → Unlinked t₀ n) (events : List Event) :
    Agrees t₀ (events.foldl step (t₀, [])) := by
  induction events using List.reverseRecOn with
  | nil => exact ⟨hclosed, hlinks, fun _ _ h => h, by simp, fun _ _ => Iff.rfl⟩
  | append_singleton events ev ih =>
    rw [List.foldl_append]
    exact step_agrees ih ev

theorem replay_other (at' : Place → Option ℕ) (table : ℕ → Str → Prop) (ops : List Op) (n : Str)
    (h : ∀ op ∈ ops, op.name ≠ n) (e : ℕ) : replay at' table ops e n ↔ table e n := by
  induction ops generalizing table with
  | nil => rfl
  | cons op ops ih =>
    have hop := h op (by simp)
    have hrest := fun table => ih table fun x hx => h x (by simp [hx])
    cases op with
    | made p m => simp [replay, hrest, Ne.symm (show m ≠ n from hop)]
    | gone p m => simp [replay, hrest, Ne.symm (show m ≠ n from hop)]

theorem replay_only (at' : Place → Option ℕ) (table : ℕ → Str → Prop) (ops : List Op) (n : Str)
    (p : Place) (h : ∀ op ∈ ops, op.name = n → op.place = p)
    (htable : ∀ e, table e n → at' p = some e) (e : ℕ) (hr : replay at' table ops e n) :
    at' p = some e := by
  induction ops generalizing table with
  | nil => exact htable e hr
  | cons op ops ih =>
    have hop := h op (by simp)
    have hrest := fun x hx => h x (List.mem_cons_of_mem op hx)
    cases op with
    | made q m =>
      refine ih _ hrest (fun e' he => ?_) hr
      rcases he with ⟨hq, rfl⟩ | he
      · rw [← hop rfl]
        exact hq
      · exact htable e' he
    | gone q m => exact ih _ hrest (fun e' he => htable e' he.1) hr

def dType (typed : Bool) (t : Files Name) (i : ℕ) : DType :=
  match typed, t.nodes[i]? with
  | true, some .file => .reg
  | true, some (.dir _ _) => .dir
  | true, some (.link _ _) => .lnk
  | _, _ => .unknown

def readdir (typed : Bool) (t : Files Name) (e : ℕ) : Option (List Dirent) :=
  match t.nodes[e]? with
  | some (.dir parent names) =>
    some (⟨[dot], dType typed t e⟩ :: ⟨[dot, dot], dType typed t parent⟩ ::
      names.map fun x => ⟨x.1.1, dType typed t x.2⟩)
  | _ => none

def subList (typed : Bool) (t : Files Name) (p : Place) : List (Str × Str) :=
  getSubList ((resolve t p).bind (readdir typed t))

theorem mem_subList (typed : Bool) {t : Files Name} {p : Place} {e : ℕ} (hp : resolve t p = some e)
    {q : Str} {b : Sub} (h : Has t e (entryName q b.connStr b.topicMode)) :
    (b.connStr, b.dest q) ∈ subList typed t p := by
  obtain ⟨hname, i, hi, hfile⟩ := h
  obtain ⟨parent, names, hdir⟩ := lookup_eq_some hi
  have hmem := mem_of_lookup hdir hi
  obtain ⟨hsharp, hcomma, -⟩ := connectString_clean b.addr
  have hparse := parseEntry_entryName q b.connStr b.topicMode hcomma hsharp
  have hskip := entryName_not_skipped q b.connStr b.topicMode (dType typed t i)
    (by cases typed <;> simp [dType, hfile])
  simp only [subList, hp, Option.bind_some, readdir, hdir, getSubList, List.mem_map,
    List.mem_filter]
  refine ⟨⟨entryName q b.connStr b.topicMode, dType typed t i⟩, ⟨?_, by simp [hskip]⟩, hparse⟩
  exact List.mem_cons_of_mem _ (List.mem_cons_of_mem _ (List.mem_map.mpr ⟨_, hmem, rfl⟩))

/-- In every run of registrations, renewals and removals, with calls that fail or not: a path that
led to a directory leads to it ever after; the files in the directories are those of the table;
a subscriber that has registered and not gone is in a publisher's directory exactly when both
names lead to one directory, and then the publisher's list has it. -/
theorem subscribers_found (t₀ : Files Name) (hclosed : Closed t₀)
    (hlinks : ∀ n : Name, comma ∈ n.1 → Unlinked t₀ n) (events : List Event) :
    let s := events.foldl step (t₀, [])
    (∀ p e, resolve t₀ p = some e → resolve s.1 p = some e) ∧
    (∀ e n, Has s.1 e n ↔ replay (resolve s.1) (Has t₀) s.2 e n) ∧
    ∀ p q : Place, ∀ b : Sub, ∀ xs ys e,
      let name := entryName q.queueName b.connStr b.topicMode
      s.2 = xs ++ .made q name :: ys → (∀ op ∈ ys, op.name ≠ name) →
      (∀ op ∈ xs, op.name = name → op.place = q) → (∀ d, ¬ Has t₀ d name) →
      resolve s.1 p = some e →
      (Has s.1 e name ↔ resolve s.1 q = some e) ∧
      (resolve s.1 q = some e →
        ∀ typed, (b.connStr, b.dest q.queueName) ∈ subList typed s.1 p) := by
  intro s
  have hs : Agrees t₀ s := run_agrees hclosed hlinks events
  refine ⟨hs.steady, hs.content, ?_⟩
  intro p q b xs ys e name hops hys hxs hnew hp
  have hiff : Has s.1 e name ↔ resolve s.1 q = some e := by
    rw [hs.content, hops, replay_append, replay, replay_other _ _ ys name hys]
    constructor
    · rintro (⟨hq, -⟩ | hold)
      · exact hq
      · exact replay_only _ _ xs name q hxs (fun d hd => absurd hd (hnew d)) e hold
    · exact fun hq => .inl ⟨hq, rfl⟩
  exact ⟨hiff, fun hq typed => mem_subList typed hp (hiff.mpr hq)⟩

def clip (s : Str) : Name := ⟨s.take nameMax, List.length_take_le nameMax s⟩

def linked : Files Name :=
  ⟨[.dir 0 [(clip (ascii "m"), 1)], .dir 0 [(clip (ascii "sub"), 2)],
    .dir 1 [(clip (ascii "a"), 3), (clip (ascii "b"), 4)], .dir 2 [],
    .link false [.name (clip (ascii "a"))]]⟩

theorem linked_names {d i : ℕ} {n : Name} (h : linked.lookup d (.name n) = some i) :
    i < linked.nodes.length ∧ comma ∉ n.1 := by
  obtain ⟨p, names, hd⟩ := lookup_eq_some h
  have hmem := mem_of_lookup hd h
  have hall : ∀ node ∈ linked.nodes, ∀ p names, node = .dir p names →
      ∀ x ∈ names, x.2 < linked.nodes.length ∧ comma ∉ x.1.1 := by
    intro node hnode p names hdir x hx
    simp only [linked, List.mem_cons, List.not_mem_nil, or_false] at hnode
    rcases hnode with rfl | rfl | rfl | rfl | rfl
    all_goals cases hdir
    all_goals simp only [List.mem_cons, List.not_mem_nil, or_false] at hx
    · subst hx
      decide
    · subst hx
      decide
    · rcases hx with rfl | rfl <;> decide
  exact hall _ (List.mem_of_getElem? hd) p names rfl (n, i) hmem

theorem linked_queue_found :
    (sockaddrToConnectString host, (⟨host, false⟩ : Sub).dest (ascii "b")) ∈
      subList true ([Event.renew ⟨0, ascii "/m", ascii "b"⟩ ⟨host, false⟩ ⟨true, true, true⟩].foldl
        step (linked, [])).1 ⟨0, ascii "/m", ascii "a"⟩ := by
  have hfound := subscribers_found linked (fun d n i h => (linked_names h).1)
    (fun n hn d i h => absurd hn (linked_names h).2)
    [.renew ⟨0, ascii "/m", ascii "b"⟩ ⟨host, false⟩ ⟨true, true, true⟩]
  refine (hfound.2.2 ⟨0, ascii "/m", ascii "a"⟩ ⟨0, ascii "/m", ascii "b"⟩ ⟨host, false⟩ [] [] 3
    (by decide +kernel) (by simp) (by simp) ?_ (by decide +kernel)).2 (by decide +kernel) true
  rintro d ⟨-, i, -, hfile⟩
  have hmem := List.mem_of_getElem? hfile
  simp [linked] at hmem

end Wissbi.Discovery
