import Wissbi.FiniteMaps
import Wissbi.QueueOwners

set_option autoImplicit false

namespace Wissbi.QueueTeardown
open FiniteMaps QueueKeys QueueObjects QueueOwners Util

section
variable {Conn Key : Type} (pid : ℕ)

def BranchFile (c : Connector Conn Key) (file : Str) : Prop :=
  ∃ d, (c.branches d).isSome ∧ file = keyFile pid d

/-- The loop has called `creat` for a branch that it has not added yet. -/
def HandFile (c : Connector Conn Key) (file : Str) : Prop :=
  ∃ stage mq e rest, c.pc = .mqInit stage mq e rest ∧ stage ≠ .creat ∧ file = keyFile pid e.2

def BranchKey (c : Connector Conn Key) (key : Key) : Prop :=
  ∃ d n mq, c.branches d = some (n, mq) ∧ mq.key = some key

def HandKey (c : Connector Conn Key) (key : Key) : Prop :=
  ∃ mq e rest, c.pc = .mqInit .ready mq e rest ∧ mq.key = some key

def Tagged [DecidableEq Key] (k : Kernel Key) (mq : SysvMq Key) : Prop :=
  mq.cleanup = true ∧ ∃ key id, mq.key = some key ∧ mq.mqid = some id ∧
    k.queues.lookup key = some id

structure Tags [DecidableEq Key] (k : Kernel Key) (c : Connector Conn Key) : Prop where
  branches : ∀ d n mq, c.branches d = some (n, mq) → Tagged k mq
  inHand : ∀ stage mq e rest, c.pc = .mqInit stage mq e rest →
    mq.cleanup = true ∧ (stage = .ready → Tagged k mq)

end

section
variable {Conn Key : Type} [DecidableEq Key] {ftok : Option ℕ → Key} {pid : ℕ}

theorem Tagged.grows {k k' : Kernel Key} {mq : SysvMq Key} (h : Tagged k mq) (hg : Grows k k') :
    Tagged k' mq := by
  obtain ⟨hclean, key, id, hkey, hid, hq⟩ := h
  exact ⟨hclean, key, id, hkey, hid, hg.queues _ _ hq⟩

theorem Tags.grows {k k' : Kernel Key} {c : Connector Conn Key} (h : Tags k c) (hg : Grows k k') :
    Tags k' c :=
  ⟨fun d n mq hd => (h.branches d n mq hd).grows hg, fun stage mq e rest hp =>
    ⟨(h.inHand stage mq e rest hp).1, fun hs => ((h.inHand stage mq e rest hp).2 hs).grows hg⟩⟩

/-- What one call of `mq_init` by the loop can add to the kernel. -/
structure Adds (k k' : Kernel Key) (file : Str → Prop) (key : Key → Prop) : Prop where
  files : ∀ f, (k'.files.lookup f).isSome → (k.files.lookup f).isSome ∨ file f
  queues : ∀ q, (k'.queues.lookup q).isSome → (k.queues.lookup q).isSome ∨ key q
  keys : (k.queues.map Prod.fst).Nodup → (k'.queues.map Prod.fst).Nodup
  ids : (k.queues.map Prod.snd).Nodup → (k'.queues.map Prod.snd).Nodup

theorem Adds.refl (k : Kernel Key) (file : Str → Prop) (key : Key → Prop) : Adds k k file key :=
  ⟨fun _ h => .inl h, fun _ h => .inl h, fun h => h, fun h => h⟩

theorem lookup_isSome_cons {α : Type} [BEq α] [LawfulBEq α] {l : List (α × ℕ)} {x y : α} {n : ℕ}
    (h : (((x, n) :: l).lookup y).isSome) : (l.lookup y).isSome ∨ y = x := by
  by_cases he : y = x
  · exact .inr he
  · rw [List.lookup_cons, beq_false_of_ne he] at h
    exact .inl h

theorem creat_adds {k k' : Kernel Key} {file : Str} {n : ℕ} (h : k.creat file n = some k')
    (key : Key → Prop) : Adds k k' (· = file) key := by
  unfold Kernel.creat at h
  split at h
  next =>
    cases h
    exact .refl k _ _
  next =>
    split at h
    next => cases h
    next =>
      cases h
      exact ⟨fun f hf => lookup_isSome_cons hf, fun _ hq => .inl hq, fun h => h, fun h => h⟩

theorem msgget_adds {k k' : Kernel Key} {key : Key} {n id : ℕ}
    (h : k.msgget key n = some (id, k')) (file : Str → Prop) : Adds k k' file (· = key) := by
  unfold Kernel.msgget at h
  split at h
  next =>
    cases h
    exact .refl k _ _
  next hq =>
    split at h
    next => cases h
    next hid =>
      cases h
      refine ⟨fun _ hf => .inl hf, fun q hq => lookup_isSome_cons hq, fun hk => ?_, fun hi => ?_⟩
      · refine List.nodup_cons.mpr ⟨fun hm => ?_, hk⟩
        obtain ⟨⟨_, old⟩, hold, rfl⟩ := List.mem_map.mp hm
        rw [(lookup_iff_mem hk _ old).mpr hold] at hq
        cases hq
      · exact List.nodup_cons.mpr ⟨hid, hi⟩

variable (pid)

def Held (c : Connector Conn Key) (file : Str) : Prop := BranchFile pid c file ∨ HandFile pid c file

def HeldKey (c : Connector Conn Key) (key : Key) : Prop := BranchKey c key ∨ HandKey c key

/-- A step adds to the kernel what the connector holds afterwards, and the connector holds on to
what it had. -/
structure Keeps (k : Kernel Key) (c : Connector Conn Key) (k' : Kernel Key)
    (c' : Connector Conn Key) : Prop where
  adds : Adds k k' (Held pid c') (HeldKey c')
  tags : Tags k' c'
  files : ∀ f, Held pid c f → Held pid c' f
  keys : ∀ q, HeldKey c q → HeldKey c' q

variable {pid}

theorem Keeps.same {k : Kernel Key} {c c' : Connector Conn Key} (h : Tags k c)
    (hp : c'.pc = c.pc) (hb : c'.branches = c.branches) : Keeps pid k c k c' := by
  refine ⟨.refl _ _ _, ⟨?_, ?_⟩, fun f hf => ?_, fun q hq => ?_⟩
  · rw [hb]
    exact h.branches
  · rw [hp]
    exact h.inHand
  · simpa only [Held, BranchFile, HandFile, hp, hb] using hf
  · simpa only [HeldKey, BranchKey, HandKey, hp, hb] using hq

theorem Keeps.outside {k : Kernel Key} {c c' : Connector Conn Key} (h : Tags k c)
    (hb : c'.branches = c.branches) (hp : ∀ stage mq e rest, c.pc ≠ .mqInit stage mq e rest)
    (hp' : ∀ stage mq e rest, c'.pc ≠ .mqInit stage mq e rest) : Keeps pid k c k c' := by
  refine ⟨.refl _ _ _, ⟨?_, fun stage mq e rest he => absurd he (hp' stage mq e rest)⟩, ?_, ?_⟩
  · rw [hb]
    exact h.branches
  · rintro f (hf | ⟨stage, mq, e, rest, he, -⟩)
    · exact .inl (by simpa only [BranchFile, hb] using hf)
    · exact absurd he (hp stage mq e rest)
  · rintro q (hq | ⟨mq, e, rest, he, -⟩)
    · exact .inl (by simpa only [BranchKey, hb] using hq)
    · exact absurd he (hp _ mq e rest)

theorem mqInit_adds {k k' : Kernel Key} {name : Str} {n : ℕ} {stage stage' : Stage}
    {mq mq' : SysvMq Key} (h : mqInit ftok pid name k n mq stage = some (k', stage', mq')) :
    stage ≠ .ready ∧ stage' ≠ .creat ∧
    Adds k k' (· = keyFile pid name) (fun q => stage' = .ready ∧ mq'.key = some q) ∧
    (stage' = .ready → ∃ key id, mq'.key = some key ∧ mq'.mqid = some id ∧
      k'.queues.lookup key = some id) := by
  cases stage with
  | creat =>
    obtain ⟨k₁, hk, h⟩ := Option.map_eq_some_iff.mp h
    cases h
    exact ⟨nofun, nofun, creat_adds hk _, nofun⟩
  | ftok =>
    cases h
    exact ⟨nofun, nofun, .refl _ _ _, nofun⟩
  | msgget =>
    obtain ⟨key, hkey, h⟩ := Option.bind_eq_some_iff.mp h
    obtain ⟨⟨id, k₁⟩, hk, h⟩ := Option.map_eq_some_iff.mp h
    cases h
    have hadds := msgget_adds hk (· = keyFile pid name)
    refine ⟨nofun, nofun, ⟨hadds.files, fun q hq => ?_, hadds.keys, hadds.ids⟩,
      fun _ => ⟨key, id, hkey, rfl, (msgget_some hk).2⟩⟩
    rcases hadds.queues q hq with hq | rfl
    · exact .inl hq
    · exact .inr ⟨rfl, hkey⟩
  | ready => cases h

theorem Keeps.initialised {k k' : Kernel Key} {c : Connector Conn Key} {n : ℕ}
    {stage stage' : Stage} {mq mq' : SysvMq Key} {e : Conn × Str} {rest : List (Conn × Str)}
    (ho : Owns ftok pid k c) (h : Tags k c) (hp : c.pc = .mqInit stage mq e rest)
    (hi : mqInit ftok pid e.2 k n mq stage = some (k', stage', mq')) :
    Keeps pid k c k' { c with pc := .mqInit stage' mq' e rest } := by
  obtain ⟨hg, -, hclean⟩ := mqInit_some (ho.inHand _ _ _ _ hp) hi
  obtain ⟨hstage, hstage', hadds, hready⟩ := mqInit_adds hi
  have hmq : mq'.cleanup = true := hclean.trans (h.inHand _ _ _ _ hp).1
  refine ⟨⟨fun f hf => ?_, fun q hq => ?_, hadds.keys, hadds.ids⟩,
    ⟨(h.grows hg).branches, ?_⟩, ?_, ?_⟩
  · rcases hadds.files f hf with hf | hf
    · exact .inl hf
    · exact .inr (.inr ⟨stage', mq', e, rest, rfl, hstage', hf⟩)
  · rcases hadds.queues q hq with hq | ⟨rfl, hkey⟩
    · exact .inl hq
    · exact .inr (.inr ⟨mq', e, rest, rfl, hkey⟩)
  · rintro _ _ _ _ ⟨⟩
    exact ⟨hmq, fun hs => ⟨hmq, hready hs⟩⟩
  · rintro f (hf | ⟨_, _, _, _, he, -, rfl⟩)
    · exact .inl hf
    · rw [hp] at he
      cases he
      exact .inr ⟨stage', mq', e, rest, rfl, hstage', rfl⟩
  · rintro q (hq | ⟨_, _, _, he, -⟩)
    · exact .inl hq
    · rw [hp] at he
      cases he
      exact absurd rfl hstage

theorem Keeps.added {k : Kernel Key} {c : Connector Conn Key} {mq : SysvMq Key} {e : Conn × Str}
    {rest : List (Conn × Str)} (h : Tags k c) (hp : c.pc = .mqInit .ready mq e rest)
    (hnew : c.branches e.2 = none) {fresh : ℕ} :
    Keeps pid k c k { c with
      pc := .findMetric e rest
      branches := Function.update c.branches e.2 (some (c.fresh, mq))
      fresh } := by
  have hkept {d : Str} {r : ℕ × SysvMq Key} (hd : c.branches d = some r) :
      Function.update c.branches e.2 (some (c.fresh, mq)) d = some r := by
    rw [Function.update_of_ne _ _ _]
    · exact hd
    · rintro rfl
      rw [hnew] at hd
      cases hd
  refine ⟨.refl _ _ _, ⟨fun d n mq' hd => ?_, nofun⟩, ?_, ?_⟩
  · by_cases he : d = e.2
    · subst he
      simp only [Function.update_self] at hd
      cases hd
      exact (h.inHand _ _ _ _ hp).2 rfl
    · simp only [Function.update_of_ne he] at hd
      exact h.branches d n mq' hd
  · rintro f (⟨d, hd, hf⟩ | ⟨_, _, _, _, he, -, hf⟩)
    · obtain ⟨r, hd⟩ := Option.isSome_iff_exists.mp hd
      exact .inl ⟨d, Option.isSome_iff_exists.mpr ⟨r, hkept hd⟩, hf⟩
    · rw [hp] at he
      cases he
      exact .inl ⟨e.2, by simp, hf⟩
  · rintro q (⟨d, n, mq', hd, hq⟩ | ⟨_, _, _, he, hq⟩)
    · exact .inl ⟨d, n, mq', hkept hd, hq⟩
    · rw [hp] at he
      cases he
      exact .inl ⟨e.2, c.fresh, mq, by simp, hq⟩

variable [DecidableEq Conn]

end

section
variable {ι Conn Key : Type} [DecidableEq ι] [DecidableEq Conn] [DecidableEq Key]
variable {ftok : Option ℕ → Key} {pid : ℕ}

/-- The kernel of a process that started on `k`: what was there, and what the connectors
hold. -/
structure Accounts (pid : ℕ) (k : Kernel Key) (s : Process ι Conn Key) : Prop where
  grows : Grows k s.kernel
  keys : (s.kernel.queues.map Prod.fst).Nodup
  ids : (s.kernel.queues.map Prod.snd).Nodup
  files : ∀ f, (s.kernel.files.lookup f).isSome →
    (k.files.lookup f).isSome ∨ ∃ i, Held pid (s.conns i) f
  queues : ∀ q, (s.kernel.queues.lookup q).isSome →
    (k.queues.lookup q).isSome ∨ ∃ i, HeldKey (s.conns i) q
  tags : ∀ i, Tags s.kernel (s.conns i)

end

section
variable {ι Conn Key : Type}

variable [DecidableEq Key] {ftok : Option ℕ → Key} {pid : ℕ}

variable [DecidableEq ι] [DecidableEq Conn]

end

/-- Both connectors have a branch for one destination, and the second is in the middle of
`mq_init` for another one. -/
def interrupted : List (Bool × Act ℕ) :=
  sharedDestination ++ [(false, .loop 0), (false, .loop 0), (false, .loop 0), (false, .loop 0),
    (false, .loop 0), (false, .wake), (false, .list [(3, [98])]), (false, .loop 0),
    (false, .loop 0), (false, .loop 6)]

end Wissbi.QueueTeardown
