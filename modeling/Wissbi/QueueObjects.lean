import Wissbi.ConnectorInvariants
import Wissbi.QueueKeys

set_option autoImplicit false

/-!
# The `SysvMq` objects of a process

Branches and producers have `SysvMq` objects of their own, and those of one destination
share a key file and through its inode a kernel queue. The destructor of an object removes
both unless `cleanup_` is off or `mq_init` was never called. The machine has any number of
connectors on one kernel, `run` has two; each of the calls of `mq_init` is a step.
-/
namespace Wissbi.QueueObjects
open ConnectorMachine QueueKeys Util

structure Kernel (Key : Type) where
  files : List (Str × ℕ)
  queues : List (Key × ℕ)
  deriving DecidableEq, Repr

section
variable {Key : Type} [DecidableEq Key]

/-- `creat` keeps the inode of a file that is there. The inode of a new one is any that is
not in use. -/
def Kernel.creat (k : Kernel Key) (file : Str) (inode : ℕ) : Option (Kernel Key) :=
  if (k.files.lookup file).isSome then some k
  else if inode ∈ k.files.map Prod.snd then none
  else some { k with files := (file, inode) :: k.files }

/-- `msgget` with `IPC_CREAT`; the id of a new queue is any that is not in use. -/
def Kernel.msgget (k : Kernel Key) (key : Key) (id : ℕ) : Option (ℕ × Kernel Key) :=
  match k.queues.lookup key with
  | some old => some (old, k)
  | none =>
    if id ∈ k.queues.map Prod.snd then none
    else some (id, { k with queues := (key, id) :: k.queues })

def Kernel.rmid (k : Kernel Key) (id : ℕ) : Kernel Key :=
  { k with queues := k.queues.filter fun q => q.2 ≠ id }

def Kernel.unlink (k : Kernel Key) (file : Str) : Kernel Key :=
  { k with files := k.files.filter fun f => f.1 ≠ file }

/-- `key_` and `mqid_` have no value before `mq_init`. -/
structure SysvMq (Key : Type) where
  cleanup : Bool
  keyFile : Str
  key : Option Key
  mqid : Option ℕ
  deriving DecidableEq, Repr

def SysvMq.new : SysvMq Key := ⟨true, [], none, none⟩

-- The destructor; an id that was never set names no queue.
def SysvMq.destroy (mq : SysvMq Key) (k : Kernel Key) : Kernel Key :=
  if !mq.cleanup || mq.keyFile.length == 0 then k
  else (mq.mqid.elim k k.rmid).unlink mq.keyFile

inductive Stage where
  | creat
  | ftok
  | msgget
  | ready
  deriving DecidableEq, Repr

section
variable (ftok : Option ℕ → Key) (pid : ℕ)

/-- One call of `mq_init(name)`. `ftok` sees the inode of the key file, or that there is no
file; `number` is the inode or id that the kernel gives out if it needs one. -/
def mqInit (name : Str) (k : Kernel Key) (number : ℕ) (mq : SysvMq Key) :
    Stage → Option (Kernel Key × Stage × SysvMq Key)
  | .creat => (k.creat (keyFile pid name) number).map fun k' =>
      (k', .ftok, { mq with keyFile := keyFile pid name })
  | .ftok => some (k, .msgget, { mq with key := some (ftok (k.files.lookup mq.keyFile)) })
  | .msgget => mq.key.bind fun key => (k.msgget key number).map fun r =>
      (r.2, .ready, { mq with mqid := some r.1 })
  | .ready => none

end

end

/-- Where a producer thread is. With `mqInit .ready` it is in its `FilterLoop`, and `erased`
is before the end of the lambda, where the objects of the thread are destroyed. -/
inductive Phase where
  | connecting
  | connected
  | mqInit (stage : Stage)
  | ending
  | erased
  | destroyed
  deriving DecidableEq, Repr

structure Producer (Conn Key : Type) where
  conn : Conn
  dest : Str
  phase : Phase
  mq : SysvMq Key
  deriving DecidableEq, Repr

/-- The next operation of the loop, as in `ConnectorMachine` but for the branch: its object is
initialised call by call before it is added. -/
inductive Pc (Conn Key : Type) where
  | getSubList
  | find (rest : List (Conn × Str))
  | existsBranch (e : Conn × Str) (rest : List (Conn × Str))
  | mqInit (stage : Stage) (mq : SysvMq Key) (e : Conn × Str) (rest : List (Conn × Str))
  | findMetric (e : Conn × Str) (rest : List (Conn × Str))
  | pushFront (e : Conn × Str) (rest : List (Conn × Str))
  | spawn (e : Conn × Str) (rest : List (Conn × Str))
  | insert (e : Conn × Str) (rest : List (Conn × Str))
  | sleeping
  deriving DecidableEq, Repr

structure Connector (Conn Key : Type) where
  pc : Pc Conn Key
  producerSet : Finset Conn
  branches : Str → Option (ℕ × SysvMq Key)
  fresh : ℕ
  metricList : List Str
  producers : List (Producer Conn Key)

inductive Act (Conn : Type) where
  | list (entries : List (Conn × Str))
  | loop (number : ℕ)
  | wake
  | connectFail (i : ℕ)
  | connectOk (i : ℕ)
  | setCleanup (i : ℕ)
  | mqInit (i number : ℕ)
  | loopEnd (i : ℕ)
  | erase (i : ℕ)
  | destroy (i : ℕ)
  deriving DecidableEq, Repr

section
variable {Conn Key : Type} [DecidableEq Conn] [DecidableEq Key]
variable (ftok : Option ℕ → Key) (pid : ℕ)

/-- `AddBranch`: an object that had the name is given up, and with it what it stands for. -/
def addBranch (k : Kernel Key) (c : Connector Conn Key) (name : Str) (mq : SysvMq Key) :
    Kernel Key × Connector Conn Key :=
  ((c.branches name).elim k fun old => old.2.destroy k,
    { c with
      branches := Function.update c.branches name (some (c.fresh, mq))
      fresh := c.fresh + 1 })

def loopStep (k : Kernel Key) (c : Connector Conn Key) (number : ℕ) :
    Option (Kernel Key × Connector Conn Key) :=
  match c.pc with
  | .find [] => some (k, { c with pc := .sleeping })
  | .find (e :: rest) =>
    if e.1 ∈ c.producerSet then some (k, { c with pc := .find rest })
    else some (k, { c with pc := .existsBranch e rest })
  | .existsBranch e rest =>
    if (c.branches e.2).isSome then some (k, { c with pc := .findMetric e rest })
    else some (k, { c with pc := .mqInit .creat SysvMq.new e rest })
  | .mqInit .ready mq e rest =>
    -- `set_drop` in between only sets a flag for `Put`
    let r := addBranch k c e.2 mq
    some (r.1, { r.2 with pc := .findMetric e rest })
  | .mqInit stage mq e rest =>
    (mqInit ftok pid e.2 k number mq stage).map fun r =>
      (r.1, { c with pc := .mqInit r.2.1 r.2.2 e rest })
  | .findMetric e rest =>
    if c.metricList.contains e.2 then some (k, { c with pc := .spawn e rest })
    else some (k, { c with pc := .pushFront e rest })
  | .pushFront e rest => some (k, { c with pc := .spawn e rest, metricList := e.2 :: c.metricList })
  | .spawn e rest =>
    some (k, { c with
      pc := .insert e rest
      producers := c.producers ++ [⟨e.1, e.2, .connecting, SysvMq.new⟩] })
  | .insert e rest => some (k, { c with pc := .find rest, producerSet := insert e.1 c.producerSet })
  | _ => none

def advance (c : Connector Conn Key) (i : ℕ)
    (f : Producer Conn Key → Option (Kernel Key × Producer Conn Key)) :
    Option (Kernel Key × Connector Conn Key) :=
  (c.producers[i]?).bind fun p =>
    (f p).map fun r => (r.1, { c with producers := c.producers.set i r.2 })

def goto (k : Kernel Key) (a b : Phase) (p : Producer Conn Key) :
    Option (Kernel Key × Producer Conn Key) :=
  if p.phase = a then some (k, { p with phase := b }) else none

def setCleanup (k : Kernel Key) (p : Producer Conn Key) :
    Option (Kernel Key × Producer Conn Key) :=
  if p.phase = .connected then
    some (k, { p with phase := .mqInit .creat, mq := { p.mq with cleanup := false } })
  else none

def producerInit (k : Kernel Key) (number : ℕ) (p : Producer Conn Key) :
    Option (Kernel Key × Producer Conn Key) :=
  match p.phase with
  | .mqInit stage => (mqInit ftok pid p.dest k number p.mq stage).map fun r =>
      (r.1, { p with phase := .mqInit r.2.1, mq := r.2.2 })
  | _ => none

def destroyProducer (k : Kernel Key) (p : Producer Conn Key) :
    Option (Kernel Key × Producer Conn Key) :=
  if p.phase = .erased then some (p.mq.destroy k, { p with phase := .destroyed }) else none

def connectorStep (k : Kernel Key) (c : Connector Conn Key) :
    Act Conn → Option (Kernel Key × Connector Conn Key)
  | .list entries =>
    match c.pc with
    | .getSubList => some (k, { c with pc := .find entries })
    | _ => none
  | .loop number => loopStep ftok pid k c number
  | .wake =>
    match c.pc with
    | .sleeping => some (k, { c with pc := .getSubList })
    | _ => none
  | .connectFail i => advance c i (goto k .connecting .ending)
  | .connectOk i => advance c i (goto k .connecting .connected)
  -- `set_cleanup(false)` comes before `mq_init` and after the early return
  | .setCleanup i => advance c i (setCleanup k)
  | .mqInit i number => advance c i (producerInit ftok pid k number)
  | .loopEnd i => advance c i (goto k (.mqInit .ready) .ending)
  | .erase i =>
    (c.producers[i]?).bind fun p => (advance c i (goto k .ending .erased)).map fun r =>
      (r.1, { r.2 with producerSet := r.2.producerSet.erase p.conn })
  -- the lambda returns, on either path, and its `producerFilter` goes
  | .destroy i => advance c i (destroyProducer k)

structure Process (ι Conn Key : Type) where
  kernel : Kernel Key
  conns : ι → Connector Conn Key

def step {ι : Type} [DecidableEq ι] (s : Process ι Conn Key) (a : ι × Act Conn) :
    Option (Process ι Conn Key) :=
  (connectorStep ftok pid s.kernel (s.conns a.1) a.2).map fun r =>
    ⟨r.1, Function.update s.conns a.1 r.2⟩

def start {ι : Type} (k : Kernel Key) : Process ι Conn Key :=
  ⟨k, fun _ => ⟨.getSubList, ∅, fun _ => none, 0, [], []⟩⟩

end

section
variable {Conn Key : Type}

def Phase.status : Phase → Status
  | .connecting => .connecting
  | .connected => .filtering
  | .mqInit _ => .filtering
  | .ending => .ending
  | .erased => .erased
  | .destroyed => .erased

def Pc.base : Pc Conn Key → ConnectorMachine.Pc Conn Str
  | .getSubList => .getSubList
  | .find rest => .find rest
  | .existsBranch e rest => .existsBranch e rest
  | .mqInit _ _ e rest => .addBranch e rest
  | .findMetric e rest => .findMetric e rest
  | .pushFront e rest => .pushFront e rest
  | .spawn e rest => .spawn e rest
  | .insert e rest => .insert e rest
  | .sleeping => .sleeping

def Producer.thread (p : Producer Conn Key) : Thread Conn Str := ⟨p.conn, p.dest, p.phase.status⟩

def Connector.base (c : Connector Conn Key) : State Conn Str :=
  ⟨c.pc.base, c.producerSet, fun d => (c.branches d).map Prod.fst, c.fresh, c.metricList,
    c.producers.map Producer.thread⟩

theorem advance_some {k' : Kernel Key} {c c' : Connector Conn Key} {i : ℕ}
    {f : Producer Conn Key → Option (Kernel Key × Producer Conn Key)}
    (h : advance c i f = some (k', c')) :
    ∃ p p', c.producers[i]? = some p ∧ f p = some (k', p') ∧
      c' = { c with producers := c.producers.set i p' } := by
  obtain ⟨p, hp, h⟩ := Option.bind_eq_some_iff.mp h
  obtain ⟨r, hr, h⟩ := Option.map_eq_some_iff.mp h
  cases h
  exact ⟨p, r.2, hp, hr, rfl⟩

theorem goto_some {k k' : Kernel Key} {a b : Phase} {p p' : Producer Conn Key}
    (h : goto k a b p = some (k', p')) : p.phase = a ∧ k' = k ∧ p' = { p with phase := b } := by
  unfold goto at h
  split at h
  next hp => cases h; exact ⟨hp, rfl, rfl⟩
  next => cases h

theorem base_set_same {c : Connector Conn Key} {i : ℕ} {p p' : Producer Conn Key}
    (hp : c.producers[i]? = some p) (h : p'.thread = p.thread) :
    ({ c with producers := c.producers.set i p' } : Connector Conn Key).base = c.base := by
  obtain ⟨before, after, hpool, hset⟩ := ThreadPool.split_at hp
  have hmap : (c.producers.set i p').map Producer.thread = c.producers.map Producer.thread := by
    rw [hset, hpool]
    simp only [List.map_append, List.map_cons, h]
  simp only [Connector.base, hmap]

theorem advance_base {k k' : Kernel Key} {c c' : Connector Conn Key} {i : ℕ} {a b : Phase}
    (h : advance c i (goto k a b) = some (k', c')) :
    ConnectorMachine.advance c.base i a.status b.status = some c'.base := by
  obtain ⟨p, p', hp, hf, rfl⟩ := advance_some h
  obtain ⟨rfl, -, rfl⟩ := goto_some hf
  simp [ConnectorMachine.advance, Connector.base, hp, Producer.thread]

variable [DecidableEq Conn] [DecidableEq Key] {ftok : Option ℕ → Key} {pid : ℕ}

omit [DecidableEq Conn] in
theorem producerInit_thread {k k' : Kernel Key} {number : ℕ} {p p' : Producer Conn Key}
    (h : producerInit ftok pid k number p = some (k', p')) : p'.thread = p.thread := by
  unfold producerInit at h
  split at h
  next stage hp =>
    obtain ⟨r, -, h⟩ := Option.map_eq_some_iff.mp h
    cases h
    simp [Producer.thread, hp, Phase.status]
  next => cases h

omit [DecidableEq Conn] [DecidableEq Key] in
theorem setCleanup_some {k k' : Kernel Key} {p p' : Producer Conn Key}
    (h : setCleanup k p = some (k', p')) : p.phase = .connected ∧ k' = k ∧
      p' = { p with phase := .mqInit .creat, mq := { p.mq with cleanup := false } } := by
  unfold setCleanup at h
  split at h
  next hp => cases h; exact ⟨hp, rfl, rfl⟩
  next => cases h

omit [DecidableEq Conn] [DecidableEq Key] in
theorem destroyProducer_some {k k' : Kernel Key} {p p' : Producer Conn Key}
    (h : destroyProducer k p = some (k', p')) :
    p.phase = .erased ∧ k' = p.mq.destroy k ∧ p' = { p with phase := .destroyed } := by
  unfold destroyProducer at h
  split at h
  next hp => cases h; exact ⟨hp, rfl, rfl⟩
  next => cases h

variable (ftok pid) in
inductive LoopMoves (k : Kernel Key) (c : Connector Conn Key) :
    Kernel Key → Connector Conn Key → Prop where
  | quiet (pc : Pc Conn Key) (producerSet : Finset Conn) (metricList : List Str)
      (hpc : ∀ stage mq e rest, pc ≠ .mqInit stage mq e rest)
      (hbase : ConnectorMachine.loopStep c.base =
        some (Connector.base { c with pc, producerSet, metricList })) :
      LoopMoves k c k { c with pc, producerSet, metricList }
  | constructed (e : Conn × Str) (rest : List (Conn × Str)) (hp : c.pc = .existsBranch e rest)
      (hb : c.branches e.2 = none) :
      LoopMoves k c k { c with pc := .mqInit .creat SysvMq.new e rest }
  | initialised (number : ℕ) (stage stage' : Stage) (mq mq' : SysvMq Key) (e : Conn × Str)
      (rest : List (Conn × Str)) (k' : Kernel Key) (hp : c.pc = .mqInit stage mq e rest)
      (hi : mqInit ftok pid e.2 k number mq stage = some (k', stage', mq')) :
      LoopMoves k c k' { c with pc := .mqInit stage' mq' e rest }
  | added (mq : SysvMq Key) (e : Conn × Str) (rest : List (Conn × Str))
      (hp : c.pc = .mqInit .ready mq e rest) :
      LoopMoves k c (addBranch k c e.2 mq).1
        { (addBranch k c e.2 mq).2 with pc := .findMetric e rest }
  | spawned (e : Conn × Str) (rest : List (Conn × Str)) (hp : c.pc = .spawn e rest) :
      LoopMoves k c k { c with
        pc := .insert e rest
        producers := c.producers ++ [⟨e.1, e.2, .connecting, SysvMq.new⟩] }

theorem loop_moves {k k' : Kernel Key} {c c' : Connector Conn Key} {number : ℕ}
    (h : loopStep ftok pid k c number = some (k', c')) : LoopMoves ftok pid k c k' c' := by
  unfold loopStep at h
  split at h
  next hp =>
    cases h
    exact .quiet _ _ _ (by simp) (by simp [ConnectorMachine.loopStep, Connector.base, hp, Pc.base])
  next e rest hp =>
    split at h
    next hc =>
      cases h
      exact .quiet _ _ _ (by simp)
        (by simp [ConnectorMachine.loopStep, Connector.base, hp, Pc.base, hc])
    next hc =>
      cases h
      exact .quiet _ _ _ (by simp)
        (by simp [ConnectorMachine.loopStep, Connector.base, hp, Pc.base, hc])
  next e rest hp =>
    split at h
    next hb =>
      cases h
      exact .quiet _ _ _ (by simp)
        (by simp [ConnectorMachine.loopStep, Connector.base, hp, Pc.base, hb])
    next hb =>
      cases h
      exact .constructed e rest hp (Option.not_isSome_iff_eq_none.mp hb)
  next mq e rest hp =>
    cases h
    exact .added mq e rest hp
  next stage mq e rest _ hp =>
    obtain ⟨⟨k₁, stage', mq'⟩, hi, h⟩ := Option.map_eq_some_iff.mp h
    cases h
    exact .initialised number stage stage' mq mq' e rest k₁ hp hi
  next e rest hp =>
    rw [List.contains_eq_mem] at h
    split at h
    next hm =>
      cases h
      exact .quiet _ _ _ (by simp) (by
        simp [ConnectorMachine.loopStep, Connector.base, hp, Pc.base, of_decide_eq_true hm])
    next hm =>
      cases h
      have hnot := of_decide_eq_false (Bool.eq_false_of_not_eq_true hm)
      exact .quiet _ _ _ (by simp)
        (by simp [ConnectorMachine.loopStep, Connector.base, hp, Pc.base, hnot])
  next e rest hp =>
    cases h
    exact .quiet _ _ _ (by simp) (by simp [ConnectorMachine.loopStep, Connector.base, hp, Pc.base])
  next e rest hp =>
    cases h
    exact .spawned e rest hp
  next e rest hp =>
    cases h
    exact .quiet _ _ _ (by simp) (by simp [ConnectorMachine.loopStep, Connector.base, hp, Pc.base])
  next => cases h

theorem loopStep_base {k k' : Kernel Key} {c c' : Connector Conn Key} {number : ℕ}
    (h : loopStep ftok pid k c number = some (k', c')) :
    c'.base = c.base ∨ ConnectorMachine.loopStep c.base = some c'.base := by
  cases loop_moves h with
  | quiet _ _ _ _ hbase => exact .inr hbase
  | constructed e rest hp hb =>
    exact .inr (by simp [ConnectorMachine.loopStep, Connector.base, hp, Pc.base, hb])
  | initialised _ _ _ _ _ _ _ _ hp => exact .inl (by simp [Connector.base, hp, Pc.base])
  | added mq e rest hp =>
    right
    have hmap : (fun d => (Function.update c.branches e.2 (some (c.fresh, mq)) d).map Prod.fst) =
        Function.update (fun d => (c.branches d).map Prod.fst) e.2 (some c.fresh) := by
      funext d
      by_cases hd : d = e.2
      · subst hd
        simp
      · simp [Function.update_of_ne hd]
    simp [ConnectorMachine.loopStep, Connector.base, hp, Pc.base, addBranch, hmap]
  | spawned e rest hp =>
    exact .inr (by simp [ConnectorMachine.loopStep, Connector.base, hp, Pc.base, Producer.thread,
      Phase.status])

theorem connectorStep_base {k k' : Kernel Key} {c c' : Connector Conn Key} {a : Act Conn}
    (h : connectorStep ftok pid k c a = some (k', c')) :
    c'.base = c.base ∨ ∃ b, ConnectorMachine.step c.base b = some c'.base := by
  cases a with
  | list entries =>
    simp only [connectorStep] at h
    split at h
    next hp =>
      cases h
      exact .inr ⟨.list entries, by simp [ConnectorMachine.step, Connector.base, hp, Pc.base]⟩
    next => cases h
  | wake =>
    simp only [connectorStep] at h
    split at h
    next hp =>
      cases h
      exact .inr ⟨.wake, by simp [ConnectorMachine.step, Connector.base, hp, Pc.base]⟩
    next => cases h
  | loop number =>
    rcases loopStep_base h with h | h
    · exact .inl h
    · exact .inr ⟨.loop, h⟩
  | connectFail i => exact .inr ⟨.connectFail i, advance_base h⟩
  | connectOk i => exact .inr ⟨.connectOk i, advance_base h⟩
  | loopEnd i => exact .inr ⟨.loopEnd i, advance_base h⟩
  | setCleanup i =>
    obtain ⟨p, p', hp, hf, rfl⟩ := advance_some h
    obtain ⟨hphase, -, rfl⟩ := setCleanup_some hf
    exact .inl (base_set_same hp (by simp [Producer.thread, hphase, Phase.status]))
  | mqInit i number =>
    obtain ⟨p, p', hp, hf, rfl⟩ := advance_some h
    exact .inl (base_set_same hp (producerInit_thread hf))
  | destroy i =>
    obtain ⟨p, p', hp, hf, rfl⟩ := advance_some h
    obtain ⟨hphase, -, rfl⟩ := destroyProducer_some hf
    exact .inl (base_set_same hp (by simp [Producer.thread, hphase, Phase.status]))
  | erase i =>
    obtain ⟨p, hp, h⟩ := Option.bind_eq_some_iff.mp h
    obtain ⟨⟨k₁, c₁⟩, hr, h⟩ := Option.map_eq_some_iff.mp h
    cases h
    have hthread : c.base.threads[i]? = some p.thread := by simp [Connector.base, hp]
    refine .inr ⟨.erase i, ?_⟩
    simp only [ConnectorMachine.step, hthread, Option.bind_some]
    have hbase := advance_base hr
    simp only [Phase.status] at hbase
    rw [hbase]
    rfl

theorem step_some {ι : Type} [DecidableEq ι] {s t : Process ι Conn Key} {a : ι × Act Conn}
    (h : step ftok pid s a = some t) :
    connectorStep ftok pid s.kernel (s.conns a.1) a.2 = some (t.kernel, t.conns a.1) ∧
    ∀ j, j ≠ a.1 → t.conns j = s.conns j := by
  obtain ⟨⟨k', c'⟩, hc, rfl⟩ := Option.map_eq_some_iff.mp h
  constructor
  · simp only [Function.update_self]
    exact hc
  · intro j hj
    exact Function.update_of_ne hj _ _

/-- Every connector of a process does what `ConnectorMachine` can do. -/
theorem run_base {ι : Type} [DecidableEq ι] {k : Kernel Key} {acts : List (ι × Act Conn)}
    {s : Process ι Conn Key} (h : Runs.run (step ftok pid) (start k) acts = some s) (i : ι) :
    Runs.Reaches ConnectorMachine.step (ConnectorMachine.start Conn Str) (s.conns i).base := by
  refine Runs.run_invariant (fun s : Process ι Conn Key => ∀ i,
    Runs.Reaches ConnectorMachine.step (ConnectorMachine.start Conn Str) (s.conns i).base)
    ?_ h ?_ i
  · intro s a t hs ht j
    obtain ⟨hc, hother⟩ := step_some ht
    by_cases hj : j = a.1
    · subst hj
      rcases connectorStep_base hc with he | ⟨b, hb⟩
      · rw [he]
        exact hs a.1
      · exact (hs a.1).trans (.single hb)
    · rw [hother j hj]
      exact hs j
  · intro j
    exact .refl _

end

end Wissbi.QueueObjects
