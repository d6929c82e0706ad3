import Wissbi.QueueObjects

set_option autoImplicit false

namespace Wissbi.QueueOwners
open QueueKeys QueueObjects Util

structure Grows {Key : Type} [DecidableEq Key] (k k' : Kernel Key) : Prop where
  files : ∀ file inode, k.files.lookup file = some inode → k'.files.lookup file = some inode
  queues : ∀ key id, k.queues.lookup key = some id → k'.queues.lookup key = some id

section
variable {Conn Key : Type} [DecidableEq Key] {ftok : Option ℕ → Key} {pid : ℕ}

theorem Grows.refl (k : Kernel Key) : Grows k k := ⟨fun _ _ h => h, fun _ _ h => h⟩

theorem lookup_cons_of_none {α : Type} [BEq α] [LawfulBEq α] {l : List (α × ℕ)} {x y : α}
    {m : ℕ} (n : ℕ) (hx : l.lookup x = none) (hy : l.lookup y = some m) :
    ((x, n) :: l).lookup y = some m := by
  have hne : y ≠ x := by
    rintro rfl
    rw [hx] at hy
    cases hy
  rw [List.lookup_cons, beq_false_of_ne hne]
  exact hy

theorem creat_some {k k' : Kernel Key} {file : Str} {n : ℕ} (h : k.creat file n = some k') :
    Grows k k' ∧ ∃ inode, k'.files.lookup file = some inode := by
  unfold Kernel.creat at h
  split at h
  next hf =>
    cases h
    exact ⟨.refl k, Option.isSome_iff_exists.mp hf⟩
  next hf =>
    split at h
    next => cases h
    next =>
      cases h
      have hnone := Option.not_isSome_iff_eq_none.mp hf
      exact ⟨⟨fun _ _ hl => lookup_cons_of_none n hnone hl, fun _ _ hl => hl⟩, n,
        List.lookup_cons_self⟩

theorem msgget_some {k k' : Kernel Key} {key : Key} {n id : ℕ}
    (h : k.msgget key n = some (id, k')) : Grows k k' ∧ k'.queues.lookup key = some id := by
  unfold Kernel.msgget at h
  split at h
  next old hq =>
    cases h
    exact ⟨.refl k, hq⟩
  next hq =>
    split at h
    next => cases h
    next =>
      cases h
      exact ⟨⟨fun _ _ hl => hl, fun _ _ hl => lookup_cons_of_none n hq hl⟩, List.lookup_cons_self⟩

variable (ftok pid)

def Attached (k : Kernel Key) (name : Str) (mq : SysvMq Key) : Prop :=
  ∃ inode id, k.files.lookup (keyFile pid name) = some inode ∧
    k.queues.lookup (ftok (some inode)) = some id ∧ mq.keyFile = keyFile pid name ∧
    mq.mqid = some id

/-- How far `mq_init` has come with an object. -/
def Initialised (k : Kernel Key) (name : Str) (mq : SysvMq Key) : Stage → Prop
  | .creat => mq.keyFile = [] ∧ mq.mqid = none
  | .ftok => (∃ inode, k.files.lookup (keyFile pid name) = some inode) ∧
      mq.keyFile = keyFile pid name ∧ mq.mqid = none
  | .msgget => (∃ inode, k.files.lookup (keyFile pid name) = some inode ∧
      mq.key = some (ftok (some inode))) ∧ mq.keyFile = keyFile pid name ∧ mq.mqid = none
  | .ready => Attached ftok pid k name mq

variable {ftok pid}

theorem Attached.grows {k k' : Kernel Key} {name : Str} {mq : SysvMq Key}
    (h : Attached ftok pid k name mq) (hg : Grows k k') : Attached ftok pid k' name mq := by
  obtain ⟨inode, id, hf, hq, hmq⟩ := h
  exact ⟨inode, id, hg.files _ _ hf, hg.queues _ _ hq, hmq⟩

theorem Initialised.grows {k k' : Kernel Key} {name : Str} {mq : SysvMq Key} {stage : Stage}
    (h : Initialised ftok pid k name mq stage) (hg : Grows k k') :
    Initialised ftok pid k' name mq stage := by
  cases stage with
  | creat => exact h
  | ftok =>
    obtain ⟨⟨inode, hf⟩, hmq⟩ := h
    exact ⟨⟨inode, hg.files _ _ hf⟩, hmq⟩
  | msgget =>
    obtain ⟨⟨inode, hf, hkey⟩, hmq⟩ := h
    exact ⟨⟨inode, hg.files _ _ hf, hkey⟩, hmq⟩
  | ready => exact Attached.grows h hg

theorem mqInit_some {k k' : Kernel Key} {name : Str} {mq mq' : SysvMq Key} {stage stage' : Stage}
    {n : ℕ} (hi : Initialised ftok pid k name mq stage)
    (h : mqInit ftok pid name k n mq stage = some (k', stage', mq')) :
    Grows k k' ∧ Initialised ftok pid k' name mq' stage' ∧ mq'.cleanup = mq.cleanup := by
  cases stage with
  | creat =>
    obtain ⟨k₁, hk, h⟩ := Option.map_eq_some_iff.mp h
    cases h
    obtain ⟨hg, hfile⟩ := creat_some hk
    exact ⟨hg, ⟨hfile, rfl, hi.2⟩, rfl⟩
  | ftok =>
    cases h
    obtain ⟨⟨inode, hf⟩, hfile, hid⟩ := hi
    exact ⟨.refl k, ⟨⟨inode, hf, by simp only [hfile, hf]⟩, hfile, hid⟩, rfl⟩
  | msgget =>
    obtain ⟨⟨inode, hf, hkey⟩, hfile, -⟩ := hi
    simp only [mqInit, hkey, Option.bind_some] at h
    obtain ⟨⟨id, k₁⟩, hk, h⟩ := Option.map_eq_some_iff.mp h
    cases h
    obtain ⟨hg, hq⟩ := msgget_some hk
    exact ⟨hg, ⟨inode, id, hg.files _ _ hf, hq, hfile, rfl⟩, rfl⟩
  | ready => cases h

def Harmless (mq : SysvMq Key) : Prop := mq.cleanup = false ∨ mq.keyFile = []

omit [DecidableEq Key] in
theorem destroy_harmless {mq : SysvMq Key} (h : Harmless mq) (k : Kernel Key) :
    mq.destroy k = k := by
  unfold SysvMq.destroy
  rcases h with h | h <;> simp [h]

variable (ftok pid)

/-- What the object of a producer can be in each phase. -/
def ObjectOk (k : Kernel Key) (dest : Str) (mq : SysvMq Key) : Phase → Prop
  | .connecting => mq = SysvMq.new
  | .connected => mq = SysvMq.new
  | .mqInit stage => mq.cleanup = false ∧ Initialised ftok pid k dest mq stage
  | _ => Harmless mq ∧ ∀ id, mq.mqid = some id → Attached ftok pid k dest mq

def ProducerOk (k : Kernel Key) (p : Producer Conn Key) : Prop :=
  ObjectOk ftok pid k p.dest p.mq p.phase

structure Owns (k : Kernel Key) (c : Connector Conn Key) : Prop where
  branches : ∀ d n mq, c.branches d = some (n, mq) → Attached ftok pid k d mq
  inHand : ∀ stage mq e rest, c.pc = .mqInit stage mq e rest → Initialised ftok pid k e.2 mq stage
  producers : ∀ p ∈ c.producers, ProducerOk ftok pid k p

variable {ftok pid}

theorem ProducerOk.grows {k k' : Kernel Key} {p : Producer Conn Key}
    (h : ProducerOk ftok pid k p) (hg : Grows k k') : ProducerOk ftok pid k' p := by
  unfold ProducerOk ObjectOk at h ⊢
  split at h
  next => exact h
  next => exact h
  next => exact ⟨h.1, h.2.grows hg⟩
  next => exact ⟨h.1, fun id hid => (h.2 id hid).grows hg⟩

theorem ProducerOk.inPhase {k : Kernel Key} {p : Producer Conn Key} {phase : Phase}
    (h : ProducerOk ftok pid k p) (hp : p.phase = phase) :
    ObjectOk ftok pid k p.dest p.mq phase := by
  rw [← hp]
  exact h

theorem Owns.grows {k k' : Kernel Key} {c : Connector Conn Key} (h : Owns ftok pid k c)
    (hg : Grows k k') : Owns ftok pid k' c where
  branches := fun d n mq hd => (h.branches d n mq hd).grows hg
  inHand := fun stage mq e rest hp => (h.inHand stage mq e rest hp).grows hg
  producers := fun p hp => (h.producers p hp).grows hg

theorem Owns.goto {k : Kernel Key} {c : Connector Conn Key} (h : Owns ftok pid k c)
    (pc : Pc Conn Key) (hpc : ∀ stage mq e rest, pc ≠ .mqInit stage mq e rest)
    {producerSet : Finset Conn} {metricList : List Str} :
    Owns ftok pid k { c with pc, producerSet, metricList } :=
  ⟨h.branches, fun stage mq e rest hp => absurd hp (hpc stage mq e rest), h.producers⟩

theorem Owns.set {k : Kernel Key} {c : Connector Conn Key} (h : Owns ftok pid k c) (i : ℕ)
    {p : Producer Conn Key} (hp : ProducerOk ftok pid k p) {producerSet : Finset Conn} :
    Owns ftok pid k { c with producerSet, producers := c.producers.set i p } :=
  ⟨h.branches, h.inHand, ThreadPool.forall_set h.producers hp⟩

theorem Owns.added {k : Kernel Key} {c : Connector Conn Key} (h : Owns ftok pid k c) {name : Str}
    {mq : SysvMq Key} (hmq : Attached ftok pid k name mq) (pc : Pc Conn Key)
    (hpc : ∀ stage mq e rest, pc ≠ .mqInit stage mq e rest) {n fresh : ℕ} :
    Owns ftok pid k
      { c with pc, branches := Function.update c.branches name (some (n, mq)), fresh } where
  branches := by
    intro d m mq' hd
    by_cases hde : d = name
    · subst hde
      simp only [Function.update_self] at hd
      cases hd
      exact hmq
    · simp only [Function.update_of_ne hde] at hd
      exact h.branches d m mq' hd
  inHand := fun stage mq e rest hp => absurd hp (hpc stage mq e rest)
  producers := h.producers

theorem Owns.spawned {k : Kernel Key} {c : Connector Conn Key} (h : Owns ftok pid k c)
    (p : Producer Conn Key) (hp : ProducerOk ftok pid k p) (pc : Pc Conn Key)
    (hpc : ∀ stage mq e rest, pc ≠ .mqInit stage mq e rest) :
    Owns ftok pid k { c with pc, producers := c.producers ++ [p] } where
  branches := h.branches
  inHand := fun stage mq e rest hp => absurd hp (hpc stage mq e rest)
  producers := by
    intro q hq
    rcases List.mem_append.mp hq with hq | hq
    · exact h.producers q hq
    · rw [List.mem_singleton.mp hq]
      exact hp

theorem ProducerOk.failed {k : Kernel Key} {p : Producer Conn Key} (h : ProducerOk ftok pid k p)
    (hp : p.phase = .connecting) : ProducerOk ftok pid k { p with phase := .ending } := by
  have hnew : p.mq = SysvMq.new := h.inPhase hp
  refine ⟨.inr ?_, fun id hid => ?_⟩
  · rw [hnew]
    rfl
  · rw [hnew] at hid
    cases hid

theorem ProducerOk.ended {k : Kernel Key} {p : Producer Conn Key} (h : ProducerOk ftok pid k p)
    (hp : p.phase = .mqInit .ready) : ProducerOk ftok pid k { p with phase := .ending } := by
  obtain ⟨hclean, hattached⟩ := h.inPhase hp
  exact ⟨.inl hclean, fun _ _ => hattached⟩

theorem ProducerOk.connected {k : Kernel Key} {p : Producer Conn Key} (h : ProducerOk ftok pid k p)
    (hp : p.phase = .connecting) : ProducerOk ftok pid k { p with phase := .connected } := by
  have hnew : p.mq = SysvMq.new := h.inPhase hp
  exact hnew

theorem ProducerOk.erased {k : Kernel Key} {p : Producer Conn Key} (h : ProducerOk ftok pid k p)
    (hp : p.phase = .ending) : ProducerOk ftok pid k { p with phase := .erased } := by
  have hending := h.inPhase hp
  exact hending

theorem ProducerOk.cleared {k : Kernel Key} {p : Producer Conn Key} (h : ProducerOk ftok pid k p)
    (hp : p.phase = .connected) : ProducerOk ftok pid k
      { p with phase := .mqInit .creat, mq := { p.mq with cleanup := false } } := by
  have hnew : p.mq = SysvMq.new := h.inPhase hp
  refine ⟨rfl, ?_⟩
  rw [hnew]
  exact ⟨rfl, rfl⟩

theorem ProducerOk.init {k k' : Kernel Key} {p p' : Producer Conn Key} {n : ℕ}
    (h : ProducerOk ftok pid k p) (hs : producerInit ftok pid k n p = some (k', p')) :
    Grows k k' ∧ ProducerOk ftok pid k' p' := by
  unfold producerInit at hs
  split at hs
  next stage hp =>
    obtain ⟨hclean, hstage⟩ := h.inPhase hp
    obtain ⟨⟨k₁, stage', mq'⟩, hk, hs⟩ := Option.map_eq_some_iff.mp hs
    cases hs
    obtain ⟨hg, hinit, hsame⟩ := mqInit_some hstage hk
    exact ⟨hg, hsame.trans hclean, hinit⟩
  next => cases hs

/-- The destructor at the end of the thread removes nothing. -/
theorem ProducerOk.destroyed {k : Kernel Key} {p : Producer Conn Key} (h : ProducerOk ftok pid k p)
    (hp : p.phase = .erased) :
    p.mq.destroy k = k ∧ ProducerOk ftok pid k { p with phase := .destroyed } := by
  have herased := h.inPhase hp
  exact ⟨destroy_harmless herased.1 k, herased⟩

variable [DecidableEq Conn]

theorem loop_owns {k k' : Kernel Key} {c c' : Connector Conn Key} {n : ℕ}
    (ht : ConnectorInvariants.Tables c.base) (h : Owns ftok pid k c)
    (hs : loopStep ftok pid k c n = some (k', c')) : Grows k k' ∧ Owns ftok pid k' c' := by
  cases loop_moves hs with
  | quiet pc _ _ hpc => exact ⟨.refl k, h.goto pc hpc⟩
  | constructed e rest hp hb =>
    refine ⟨.refl k, h.branches, fun stage mq e' rest' he => ?_, h.producers⟩
    cases he
    exact ⟨rfl, rfl⟩
  | initialised number stage stage' mq mq' e rest k' hp hi =>
    obtain ⟨hg, hinit, -⟩ := mqInit_some (h.inHand _ _ _ _ hp) hi
    have hnext := h.grows hg
    refine ⟨hg, hnext.branches, fun _ _ _ _ he => ?_, hnext.producers⟩
    cases he
    exact hinit
  | added mq e rest hp =>
    -- the name is new, so `AddBranch` gives up no object
    have hnew : c.branches e.2 = none := by
      have hbase : c.base.pc = .addBranch e rest := by simp [Connector.base, hp, Pc.base]
      exact Option.map_eq_none_iff.mp (ht.unadded e rest hbase)
    have hattached : Attached ftok pid k e.2 mq := h.inHand _ _ _ _ hp
    simp only [addBranch, hnew, Option.elim_none]
    exact ⟨.refl k, h.added hattached (.findMetric e rest) (by simp)⟩
  | spawned e rest hp =>
    exact ⟨.refl k, h.spawned ⟨e.1, e.2, .connecting, SysvMq.new⟩ rfl (.insert e rest) (by simp)⟩

/-- Whatever a connector or one of its producers does, the kernel keeps what it has and the
objects stay in order. -/
theorem connectorStep_owns {k k' : Kernel Key} {c c' : Connector Conn Key} {a : Act Conn}
    (ht : ConnectorInvariants.Tables c.base) (h : Owns ftok pid k c)
    (hs : connectorStep ftok pid k c a = some (k', c')) :
    Grows k k' ∧ Owns ftok pid k' c' := by
  have hmem {i : ℕ} {p : Producer Conn Key} (hp : c.producers[i]? = some p) :
      ProducerOk ftok pid k p := h.producers p (List.mem_of_getElem? hp)
  cases a with
  | list entries =>
    simp only [connectorStep] at hs
    split at hs
    next =>
      cases hs
      exact ⟨.refl k, h.goto _ (by simp)⟩
    next => cases hs
  | wake =>
    simp only [connectorStep] at hs
    split at hs
    next =>
      cases hs
      exact ⟨.refl k, h.goto _ (by simp)⟩
    next => cases hs
  | loop n => exact loop_owns ht h hs
  | connectFail i =>
    obtain ⟨p, p', hp, hf, rfl⟩ := advance_some hs
    obtain ⟨hphase, rfl, rfl⟩ := goto_some hf
    exact ⟨.refl _, h.set i ((hmem hp).failed hphase)⟩
  | connectOk i =>
    obtain ⟨p, p', hp, hf, rfl⟩ := advance_some hs
    obtain ⟨hphase, rfl, rfl⟩ := goto_some hf
    exact ⟨.refl _, h.set i ((hmem hp).connected hphase)⟩
  | setCleanup i =>
    obtain ⟨p, p', hp, hf, rfl⟩ := advance_some hs
    obtain ⟨hphase, rfl, rfl⟩ := setCleanup_some hf
    exact ⟨.refl _, h.set i ((hmem hp).cleared hphase)⟩
  | mqInit i n =>
    obtain ⟨p, p', hp, hf, rfl⟩ := advance_some hs
    obtain ⟨hg, hok⟩ := (hmem hp).init hf
    exact ⟨hg, (h.grows hg).set i hok⟩
  | loopEnd i =>
    obtain ⟨p, p', hp, hf, rfl⟩ := advance_some hs
    obtain ⟨hphase, rfl, rfl⟩ := goto_some hf
    exact ⟨.refl _, h.set i ((hmem hp).ended hphase)⟩
  | erase i =>
    obtain ⟨q, -, hs⟩ := Option.bind_eq_some_iff.mp hs
    obtain ⟨⟨k₁, c₁⟩, hr, hs⟩ := Option.map_eq_some_iff.mp hs
    cases hs
    obtain ⟨p, p', hp, hf, rfl⟩ := advance_some hr
    obtain ⟨hphase, rfl, rfl⟩ := goto_some hf
    exact ⟨.refl _, h.set i ((hmem hp).erased hphase)⟩
  | destroy i =>
    obtain ⟨p, p', hp, hf, rfl⟩ := advance_some hs
    obtain ⟨hphase, rfl, rfl⟩ := destroyProducer_some hf
    obtain ⟨hsame, hok⟩ := (hmem hp).destroyed hphase
    rw [hsame]
    exact ⟨.refl k, h.set i hok⟩

end

section
variable {ι Conn Key : Type} [DecidableEq ι] [DecidableEq Conn] [DecidableEq Key]
variable {ftok : Option ℕ → Key} {pid : ℕ}

theorem run_conn_tables {k : Kernel Key} {acts : List (ι × Act Conn)} {s : Process ι Conn Key}
    (h : Runs.run (step ftok pid) (start k) acts = some s) (i : ι) :
    ConnectorInvariants.Tables (s.conns i).base := by
  obtain ⟨base, hbase⟩ := run_base h i
  exact ConnectorInvariants.run_tables hbase

omit [DecidableEq ι] [DecidableEq Conn] in
theorem start_owns (k : Kernel Key) (i : ι) :
    Owns ftok pid k ((start k : Process ι Conn Key).conns i) where
  branches := by
    intro d n mq hd
    cases hd
  inHand := by
    intro stage mq e rest hp
    cases hp
  producers := by
    intro p hp
    cases hp

theorem run_owns {k : Kernel Key} {acts : List (ι × Act Conn)} {s : Process ι Conn Key}
    (h : Runs.run (step ftok pid) (start k) acts = some s) (i : ι) :
    Owns ftok pid s.kernel (s.conns i) := by
  refine Runs.run_history (fun _ (t : Process ι Conn Key) =>
    ∀ i, Owns ftok pid t.kernel (t.conns i)) h ?_ ?_ i
  · exact start_owns k
  · intro as t a u hrun ht hu i
    obtain ⟨hc, hother⟩ := step_some hu
    -- the kernel only grows, so the connectors that did not move keep what they own
    obtain ⟨hg, howns⟩ := connectorStep_owns (run_conn_tables hrun a.1) (ht a.1) hc
    by_cases hi : i = a.1
    · subst hi
      exact howns
    · rw [hother i hi]
      exact (ht i).grows hg

omit [DecidableEq Conn] in
/-- In whatever phase a producer has an id, it is that of the queue of its destination. -/
theorem ProducerOk.attached {k : Kernel Key} {p : Producer Conn Key}
    (h : ProducerOk ftok pid k p) {id : ℕ} (hid : p.mq.mqid = some id) :
    Attached ftok pid k p.dest p.mq := by
  have hnone : p.mq.mqid ≠ none := by simp [hid]
  unfold ProducerOk ObjectOk at h
  split at h
  next => exact absurd (by rw [h]; rfl) hnone
  next => exact absurd (by rw [h]; rfl) hnone
  next stage hp =>
    cases stage with
    | creat => exact absurd h.2.2 hnone
    | ftok => exact absurd h.2.2.2 hnone
    | msgget => exact absurd h.2.2.2 hnone
    | ready => exact h.2
  next => exact h.2 id hid

omit [DecidableEq Conn] in
theorem Attached.same_id {k : Kernel Key} {name : Str} {a b : SysvMq Key}
    (ha : Attached ftok pid k name a) (hb : Attached ftok pid k name b) : a.mqid = b.mqid := by
  obtain ⟨inode, id, hf, hq, -, hid⟩ := ha
  obtain ⟨inode', id', hf', hq', -, hid'⟩ := hb
  rw [hf] at hf'
  cases hf'
  rw [hq] at hq'
  cases hq'
  rw [hid, hid']

/-- In every state of the process, whichever connectors and producers have moved: the key file
and the queue of every branch are there, and every producer that has come through `mq_init` is
on the queue of its branch. -/
theorem branch_queues_kept (k : Kernel Key) (acts : List (ι × Act Conn)) (s : Process ι Conn Key)
    (h : Runs.run (step ftok pid) (start k) acts = some s) (i : ι) :
    (∀ d n mq, (s.conns i).branches d = some (n, mq) →
      ∃ inode id, s.kernel.files.lookup (keyFile pid d) = some inode ∧
        s.kernel.queues.lookup (ftok (some inode)) = some id ∧
        mq.keyFile = keyFile pid d ∧ mq.mqid = some id) ∧
    ∀ p ∈ (s.conns i).producers,
      (p.phase = .mqInit .ready → ∃ id, p.mq.mqid = some id) ∧
      ∀ id, p.mq.mqid = some id →
        ∃ n mq, (s.conns i).branches p.dest = some (n, mq) ∧ mq.mqid = some id := by
  have howns := run_owns h i
  have htables := run_conn_tables h i
  refine ⟨howns.branches, fun p hp => ⟨fun hready => ?_, fun id hid => ?_⟩⟩
  · obtain ⟨-, inode, id, -, -, -, hid⟩ := (howns.producers p hp).inPhase hready
    exact ⟨id, hid⟩
  · -- the loop has added the branch before it started the producer
    have hthread : p.thread ∈ (s.conns i).base.threads := List.mem_map_of_mem hp
    have hsome := htables.threads p.thread hthread
    rw [Connector.base, Option.isSome_map] at hsome
    obtain ⟨⟨n, mq⟩, hbranch⟩ := Option.isSome_iff_exists.mp hsome
    have hsame := ((howns.producers p hp).attached hid).same_id (howns.branches _ _ _ hbranch)
    exact ⟨n, mq, hbranch, hsame ▸ hid⟩

end

/-- Two connectors with a subscriber each for one destination; the first has another subscriber
that cannot be reached, and its connected producer comes to an end. -/
def sharedDestination : List (Bool × Act ℕ) :=
  [(true, .list [(1, [97]), (2, [97])]), (true, .loop 0), (true, .loop 0), (true, .loop 5),
    (false, .list [(1, [97])]), (false, .loop 0), (false, .loop 0), (false, .loop 6),
    (false, .loop 0), (false, .loop 8), (false, .loop 0), (true, .loop 0), (true, .loop 9),
    (true, .loop 0), (true, .loop 0), (true, .loop 0), (true, .loop 0), (true, .loop 0),
    (true, .loop 0), (true, .loop 0), (true, .loop 0), (true, .loop 0), (true, .loop 0),
    (true, .connectOk 0), (true, .connectFail 1), (true, .setCleanup 0), (true, .mqInit 0 7),
    (true, .erase 1), (true, .mqInit 0 7), (true, .destroy 1), (true, .mqInit 0 7),
    (true, .loopEnd 0), (true, .erase 0), (true, .destroy 0)]

def keyOf (inode : Option ℕ) : ℕ := inode.elim 0 (· + 1)

theorem shared_destination_kept :
    ∃ s : Process Bool ℕ ℕ,
      Runs.run (step keyOf 3) (start ⟨[], []⟩) sharedDestination = some s ∧
      (s.conns true).producers.map Producer.phase = [.destroyed, .destroyed] ∧
      (s.conns true).producers.map (fun p => p.mq.mqid) = [some 8, none] ∧
      ∀ i, ∀ d n mq, (s.conns i).branches d = some (n, mq) →
        ∃ inode id, s.kernel.files.lookup (keyFile 3 d) = some inode ∧
          s.kernel.queues.lookup (inode + 1) = some id ∧
          mq.keyFile = keyFile 3 d ∧ mq.mqid = some id := by
  obtain ⟨s, hs, hphases, hids⟩ : ∃ s : Process Bool ℕ ℕ,
      Runs.run (step keyOf 3) (start ⟨[], []⟩) sharedDestination = some s ∧
      (s.conns true).producers.map Producer.phase = [.destroyed, .destroyed] ∧
      (s.conns true).producers.map (fun p => p.mq.mqid) = [some 8, none] := ⟨_, rfl, rfl, rfl⟩
  exact ⟨s, hs, hphases, hids, fun i => (branch_queues_kept ⟨[], []⟩ sharedDestination s hs i).1⟩

end Wissbi.QueueOwners
