import Wissbi.Runs
import Wissbi.SysvMqPolicy
import Wissbi.TcpFraming
import Wissbi.ThreadPool

set_option autoImplicit false

/-!
# `SysvMq::Put` on a full queue

`put_flag_` decides whether `msgsnd` waits for room or gives up, and the constructor
leaves it unset. `set_drop` is called for the branches of a publisher only: the readers
of `run_sub` and the producers' requeue use objects whose flag is whatever the memory
held. The machine has one kernel queue with any number of such threads on it, the
thread that drains it, and the puts of other objects.
-/
namespace Wissbi.BlockingPuts
open Buffers Runs SysvMqPolicy TcpFraming TcpPolicy ThreadPool

/-- The limits of the kernel: `msg_qbytes` of the queue and `msgmax` for one message. -/
structure Kernel where
  qbytes : ℕ
  msgmax : ℕ

/-- The kernel adds a message while neither the bytes nor the number of messages would
pass `msg_qbytes`. -/
def Kernel.room (k : Kernel) (q : Queue) (m : Msg) : Bool :=
  decide (m.length + (q.map List.length).sum ≤ k.qbytes ∧ 1 + q.length ≤ k.qbytes)

def ipcNowait : BitVec 32 := 0x800#32

def nowait (putFlag : BitVec 32) : Bool := putFlag &&& ipcNowait != 0#32

inductive Answer where
  | added
  | again
  | invalid
  | sleeps
  deriving DecidableEq, Repr

def Kernel.msgsnd (k : Kernel) (putFlag : BitVec 32) (q : Queue) (m : Msg) : Answer :=
  if k.msgmax < m.length then .invalid
  else if k.room q m then .added
  else if nowait putFlag then .again
  else .sleeps

inductive Role where
  | reader
  | producer
  deriving DecidableEq, Repr

/-- In `putting` the message in `msg_buf_` has been handed to `Put`, in `waiting` its
`msgsnd` sleeps. -/
inductive Phase where
  | idle
  | receiving
  | sending
  | putting
  | waiting
  | ended
  deriving DecidableEq, Repr

structure Thread where
  role : Role
  putFlag : BitVec 32
  phase : Phase
  fd : ReadEnd
  sock : WriteEnd
  msgBuf : MsgBuf

structure Shared where
  queue : Queue
  handed : List Msg
  added : List Msg
  dropped : List Msg
  refused : List Msg

structure State where
  shared : Shared
  threads : List Thread

inductive ThreadAct where
  | attach (fd : ReadEnd)
  | connect (sock : WriteEnd)
  | get (interrupted : Bool)
  | send
  | msgsnd
  | wake

inductive Act where
  | thread (i : ℕ) (a : ThreadAct)
  | drain
  | other (m : Msg)

/-- After a successful `Put` a reader goes on, and a producer ends because its filter had
failed; after a failed one both end. -/
def Role.afterPut : Role → Phase
  | .reader => .receiving
  | .producer => .ended

def Thread.hand (t : Thread) (msg : MsgBuf) (w : Shared) : Thread × Shared :=
  ({ t with phase := .putting, msgBuf := msg }, { w with handed := w.handed ++ [msg.data] })

def Thread.add (t : Thread) (w : Shared) : Thread × Shared :=
  ({ t with phase := t.role.afterPut },
    { w with queue := w.queue ++ [t.msgBuf.data], added := w.added ++ [t.msgBuf.data] })

/-- One step of a thread. `get` is `TCP::Get` of a reader and `SysvMq::Get` of a producer,
which waits on an empty queue unless a signal comes. -/
def Thread.step (k : Kernel) (t : Thread) (w : Shared) : ThreadAct → Option (Thread × Shared)
  | .attach fd =>
    match t.role, t.phase with
    | .reader, .idle => some ({ t with phase := .receiving, fd := fd }, w)
    | _, _ => none
  | .connect sock =>
    match t.role, t.phase with
    | .producer, .idle => some ({ t with phase := .receiving, sock := sock }, w)
    | _, _ => none
  | .get interrupted =>
    match t.role, t.phase with
    | .reader, .receiving =>
      let r := TcpPolicy.get t.fd t.msgBuf
      if r.ok then some ({ t with fd := r.rest }.hand r.msg w)
      else some ({ t with phase := .ended, fd := r.rest, msgBuf := r.msg }, w)
    | .producer, .receiving =>
      if interrupted || !w.queue.isEmpty then
        let r := SysvMqPolicy.get interrupted w.queue t.msgBuf
        if r.ok then
          some ({ t with phase := .sending, msgBuf := r.msg }, { w with queue := r.rest })
        else some (t.hand r.msg w)
      else none
    | _, _ => none
  | .send =>
    match t.phase with
    | .sending =>
      let r := TcpPolicy.put t.sock t.msgBuf
      if r.1 then some ({ t with phase := .receiving, sock := r.2 }, w)
      else some ({ t with sock := r.2 }.hand t.msgBuf w)
    | _ => none
  | .msgsnd =>
    match t.phase with
    | .putting =>
      match k.msgsnd t.putFlag w.queue t.msgBuf.data with
      | .added => some (t.add w)
      | .again =>
        some ({ t with phase := .ended }, { w with dropped := w.dropped ++ [t.msgBuf.data] })
      | .invalid =>
        some ({ t with phase := .ended }, { w with refused := w.refused ++ [t.msgBuf.data] })
      | .sleeps => some ({ t with phase := .waiting }, w)
    | _ => none
  | .wake =>
    match t.phase with
    | .waiting => if k.room w.queue t.msgBuf.data then some (t.add w) else none
    | _ => none

def step (k : Kernel) (s : State) : Act → Option State
  | .thread i a =>
    (s.threads[i]?).bind fun t =>
      (t.step k s.shared a).map fun r => ⟨r.2, s.threads.set i r.1⟩
  | .drain =>
    match s.shared.queue with
    | [] => none
    | _ :: rest => some { s with shared := { s.shared with queue := rest } }
  | .other m =>
    if k.room s.shared.queue m then
      some { s with shared := { s.shared with queue := s.shared.queue ++ [m] } }
    else none

/-- A thread whose object was just constructed, its flag unset. -/
def fresh (o : Role × BitVec 32) : Thread :=
  ⟨o.1, o.2, .idle, ⟨[], [], false⟩, ⟨[], [], false⟩, ⟨0, fun _ => 0, 0⟩⟩

def start (objects : List (Role × BitVec 32)) : State := ⟨⟨[], [], [], [], []⟩, objects.map fresh⟩

def Thread.held (t : Thread) : List Msg :=
  match t.phase with
  | .putting => [t.msgBuf.data]
  | .waiting => [t.msgBuf.data]
  | _ => []

/-- Every message that a MsgBuf can hold and that was handed to `Put` was added or is held by
a `Put` that waits for room, and none was discarded for want of it. -/
def Kept (s : State) : Prop :=
  (∀ m, m.length ≤ maxMsgSize →
    s.shared.handed.count m = s.shared.added.count m + total (fun t => t.held.count m) s.threads) ∧
  s.shared.dropped = []

theorem msgsnd_added_iff (k : Kernel) (putFlag : BitVec 32) (q : Queue) (msg : MsgBuf) :
    k.msgsnd putFlag q msg.data = .added ↔
      (SysvMqPolicy.put k.msgmax (k.room q msg.data) q msg).1 = true := by
  rw [put_ok, ← data_length]
  unfold Kernel.msgsnd
  split_ifs with h₁ h₂ h₃
  · simp only [false_iff, not_and]
    omega
  · simp only [h₂, and_true, true_iff]
    omega
  · simp [h₂]
  · simp [h₂]

inductive Moves (k : Kernel) (t : Thread) (w : Shared) : Thread → Shared → Prop where
  | quiet (t' : Thread) (queue : Queue) (hf : t'.putFlag = t.putFlag) (h : t.held = t'.held) :
      Moves k t w t' { w with queue }
  | handed (t' : Thread) (hf : t'.putFlag = t.putFlag) (h : t.held = [])
      (h' : t'.held = [t'.msgBuf.data]) :
      Moves k t w t' { w with handed := w.handed ++ [t'.msgBuf.data] }
  | added (h : t.held = [t.msgBuf.data]) : Moves k t w (t.add w).1 (t.add w).2
  | dropped (h : t.held = [t.msgBuf.data]) (hn : nowait t.putFlag = true) :
      Moves k t w { t with phase := .ended } { w with dropped := w.dropped ++ [t.msgBuf.data] }
  | refused (h : t.held = [t.msgBuf.data]) (hl : k.msgmax < t.msgBuf.data.length) :
      Moves k t w { t with phase := .ended } { w with refused := w.refused ++ [t.msgBuf.data] }

theorem hand_moves (k : Kernel) (t u : Thread) (w : Shared) (msg : MsgBuf)
    (hf : u.putFlag = t.putFlag) (h : t.held = []) :
    Moves k t w (u.hand msg w).1 (u.hand msg w).2 :=
  .handed _ hf h rfl

theorem thread_moves {k : Kernel} {t t' : Thread} {w w' : Shared} {a : ThreadAct}
    (h : t.step k w a = some (t', w')) : Moves k t w t' w' := by
  cases a with
  | attach fd =>
    simp only [Thread.step] at h
    split at h
    next hr hp =>
      cases h
      exact .quiet _ w.queue rfl (by simp [Thread.held, hp])
    next => cases h
  | connect sock =>
    simp only [Thread.step] at h
    split at h
    next hr hp =>
      cases h
      exact .quiet _ w.queue rfl (by simp [Thread.held, hp])
    next => cases h
  | get interrupted =>
    simp only [Thread.step] at h
    split at h
    next hr hp =>
      split at h
      next => cases h; exact hand_moves k t _ w _ rfl (by simp [Thread.held, hp])
      next => cases h; exact .quiet _ w.queue rfl (by simp [Thread.held, hp])
    next hr hp =>
      split at h
      next =>
        split at h
        next => cases h; exact .quiet _ _ rfl (by simp [Thread.held, hp])
        next => cases h; exact hand_moves k t _ w _ rfl (by simp [Thread.held, hp])
      next => cases h
    next => cases h
  | send =>
    simp only [Thread.step] at h
    split at h
    next hp =>
      split at h
      next => cases h; exact .quiet _ w.queue rfl (by simp [Thread.held, hp])
      next => cases h; exact hand_moves k t _ w _ rfl (by simp [Thread.held, hp])
    next => cases h
  | msgsnd =>
    simp only [Thread.step] at h
    split at h
    next hp =>
      have hheld : t.held = [t.msgBuf.data] := by simp [Thread.held, hp]
      split at h
      next => cases h; exact .added hheld
      next ha =>
        cases h
        refine .dropped hheld ?_
        unfold Kernel.msgsnd at ha
        split_ifs at ha with h₁ h₂ h₃
        exact h₃
      next ha =>
        cases h
        refine .refused hheld ?_
        unfold Kernel.msgsnd at ha
        split_ifs at ha with h₁
        exact h₁
      next => cases h; exact .quiet _ w.queue rfl (by simp [Thread.held, hp])
    next => cases h
  | wake =>
    simp only [Thread.step] at h
    split at h
    next hp =>
      split at h
      next => cases h; exact .added (by simp [Thread.held, hp])
      next => cases h
    next => cases h

theorem step_cases {k : Kernel} {s u : State} {a : Act} (h : step k s a = some u) :
    (∃ i t t' w', s.threads[i]? = some t ∧ Moves k t s.shared t' w' ∧
      u = ⟨w', s.threads.set i t'⟩) ∨
    ∃ queue, u = { s with shared := { s.shared with queue } } := by
  cases a with
  | thread i a =>
    obtain ⟨t, ht, h⟩ := Option.bind_eq_some_iff.mp h
    obtain ⟨r, hr, rfl⟩ := Option.map_eq_some_iff.mp h
    exact .inl ⟨i, t, r.1, r.2, ht, thread_moves hr, rfl⟩
  | drain =>
    simp only [step] at h
    split at h
    next => cases h
    next rest _ => cases h; exact .inr ⟨rest, rfl⟩
  | other m =>
    simp only [step] at h
    split at h
    next => cases h; exact .inr ⟨_, rfl⟩
    next => cases h

structure Ledger (k : Kernel) (s : State) : Prop where
  conserved : ∀ m, s.shared.handed.count m = s.shared.added.count m +
    total (fun t => t.held.count m) s.threads + s.shared.dropped.count m + s.shared.refused.count m
  refused : ∀ m ∈ s.shared.refused, k.msgmax < m.length

theorem afterPut_held (t : Thread) : ({ t with phase := t.role.afterPut } : Thread).held = [] := by
  unfold Thread.held Role.afterPut
  cases t.role <;> rfl

theorem Ledger.move {k : Kernel} {s : State} (hs : Ledger k s) {i : ℕ} {t t' : Thread}
    {w' : Shared} (ht : s.threads[i]? = some t)
    (hc : ∀ m, w'.handed.count m + (s.shared.added.count m + t.held.count m +
        s.shared.dropped.count m + s.shared.refused.count m) =
      s.shared.handed.count m + (w'.added.count m + t'.held.count m + w'.dropped.count m +
        w'.refused.count m))
    (hr : ∀ m ∈ w'.refused, k.msgmax < m.length) : Ledger k ⟨w', s.threads.set i t'⟩ := by
  refine ⟨fun m => ?_, hr⟩
  have h₁ := hs.conserved m
  have h₂ := total_set (fun t => t.held.count m) ht t'
  have h₃ := hc m
  simp only at h₂ ⊢
  omega

theorem step_ledger {k : Kernel} (s : State) (a : Act) (u : State) (hs : Ledger k s)
    (h : step k s a = some u) : Ledger k u := by
  obtain ⟨i, t, t', w', ht, hm, rfl⟩ | ⟨queue, rfl⟩ := step_cases h
  · have hend : ({ t with phase := .ended } : Thread).held = [] := rfl
    cases hm with
    | quiet _ queue hf hheld =>
      refine hs.move ht (fun m => ?_) hs.refused
      simp only [hheld]
    | handed _ hf hheld hheld' =>
      refine hs.move ht (fun m => ?_) hs.refused
      simp only [hheld, hheld', List.count_append, List.count_nil]
      omega
    | added hheld =>
      refine hs.move ht (fun m => ?_) hs.refused
      simp only [Thread.add, hheld, afterPut_held, List.count_append, List.count_nil]
      omega
    | dropped hheld hn =>
      refine hs.move ht (fun m => ?_) hs.refused
      simp only [hheld, hend, List.count_append, List.count_nil]
      omega
    | refused hheld hl =>
      refine hs.move ht (fun m => ?_) fun m hmem => ?_
      · simp only [hheld, hend, List.count_append, List.count_nil]
        omega
      · rcases List.mem_append.mp hmem with hmem | hmem
        · exact hs.refused m hmem
        · rw [List.mem_singleton.mp hmem]
          exact hl
  · exact ⟨hs.conserved, hs.refused⟩

structure Blocking (s : State) : Prop where
  flags : ∀ t ∈ s.threads, nowait t.putFlag = false
  dropped : s.shared.dropped = []

theorem step_blocking {k : Kernel} (s : State) (a : Act) (u : State) (hs : Blocking s)
    (h : step k s a = some u) : Blocking u := by
  obtain ⟨i, t, t', w', ht, hm, rfl⟩ | ⟨queue, rfl⟩ := step_cases h
  · have hflag := hs.flags t (List.mem_of_getElem? ht)
    cases hm with
    | quiet _ queue hf hheld =>
      exact ⟨forall_set hs.flags (by rw [hf]; exact hflag), hs.dropped⟩
    | handed _ hf hheld hheld' =>
      exact ⟨forall_set hs.flags (by rw [hf]; exact hflag), hs.dropped⟩
    | added hheld => exact ⟨forall_set hs.flags hflag, hs.dropped⟩
    | dropped hheld hn =>
      rw [hflag] at hn
      cases hn
    | refused hheld hl => exact ⟨forall_set hs.flags hflag, hs.dropped⟩
  · exact ⟨hs.flags, hs.dropped⟩

theorem start_ledger (k : Kernel) (objects : List (Role × BitVec 32)) :
    Ledger k (start objects) := by
  refine ⟨fun m => ?_, by simp [start]⟩
  have hz : total (fun t : Thread => t.held.count m) (objects.map fresh) = 0 := by
    refine total_eq_zero _ fun t ht => ?_
    obtain ⟨o, -, rfl⟩ := List.mem_map.mp ht
    rfl
  simp [start, hz]

theorem run_kept {k : Kernel} (hmax : maxMsgSize ≤ k.msgmax) {objects : List (Role × BitVec 32)}
    (hflags : ∀ o ∈ objects, nowait o.2 = false) {acts : List Act} {s : State}
    (h : run (step k) (start objects) acts = some s) : Kept s := by
  have hl := run_invariant (Ledger k) step_ledger h (start_ledger k objects)
  have hb := run_invariant Blocking step_blocking h
    ⟨List.forall_mem_map.mpr hflags, rfl⟩
  refine ⟨fun m hm => ?_, hb.dropped⟩
  have hc := hl.conserved m
  have hr : s.shared.refused.count m = 0 :=
    List.count_eq_zero.mpr fun hmem => absurd (hl.refused m hmem) (by omega)
  rw [hb.dropped, hr] at hc
  simpa using hc

theorem room_full (k : Kernel) (m : Msg) : k.room (List.replicate k.qbytes [0]) m = false := by
  simp only [Kernel.room, decide_eq_false_iff_not, not_and, List.length_replicate]
  omega

theorem run_fill (k : Kernel) (s : State) (j n : ℕ) (hq : s.shared.queue = List.replicate j [0])
    (h : j + n ≤ k.qbytes) :
    run (step k) s (List.replicate n (.other [0])) =
      some { s with shared := { s.shared with queue := List.replicate (j + n) [0] } } := by
  induction n generalizing s j with
  | zero =>
    rw [List.replicate_zero, run, Nat.add_zero, ← hq]
  | succ n ih =>
    have hroom : k.room s.shared.queue [0] = true := by
      simp only [Kernel.room, hq, List.map_replicate, List.sum_replicate_nat,
        List.length_replicate, decide_eq_true_eq, List.length_singleton]
      omega
    have hsnoc : s.shared.queue ++ [[0]] = List.replicate (j + 1) [0] := by
      rw [hq, List.replicate_succ']
    rw [List.replicate_succ, run]
    simp only [step, hroom, ↓reduceIte, Option.bind_some]
    rw [ih _ (j + 1) hsnoc (by omega), Nat.add_right_comm, Nat.add_assoc]

def oneFrame : ReadEnd := ⟨frame [7], [], false⟩

theorem oneFrame_get (msg : MsgBuf) :
    (TcpPolicy.get oneFrame msg).ok = true ∧ (TcpPolicy.get oneFrame msg).msg.data = [7] := by
  have hd : decode oneFrame.bytes = some ([7], []) := by decide
  obtain ⟨h₁, h₂, -⟩ := get_of_decode oneFrame msg [7] [] hd
  exact ⟨h₁, h₂⟩

theorem msgsnd_again {k : Kernel} {putFlag : BitVec 32} {m : Msg} (hn : nowait putFlag = true)
    (hl : m.length ≤ k.msgmax) : k.msgsnd putFlag (List.replicate k.qbytes [0]) m = .again := by
  simp [Kernel.msgsnd, room_full, hn, Nat.not_lt.mpr hl]

theorem run_thread {k : Kernel} {s : State} {i : ℕ} {t t' : Thread} {w' : Shared}
    {acts : List ThreadAct} (ht : s.threads[i]? = some t)
    (h : run (fun (p : Thread × Shared) a => p.1.step k p.2 a) (t, s.shared) acts = some (t', w')) :
    run (step k) s (acts.map (.thread i)) = some ⟨w', s.threads.set i t'⟩ := by
  induction acts generalizing s t with
  | nil =>
    cases h
    obtain ⟨hi, rfl⟩ := List.getElem?_eq_some_iff.mp ht
    rw [List.map_nil, run, List.set_getElem_self]
  | cons a acts ih =>
    obtain ⟨⟨u, v⟩, hu, hrest⟩ := run_cons h
    have hi := (List.getElem?_eq_some_iff.mp ht).1
    have hstep : step k s (.thread i a) = some ⟨v, s.threads.set i u⟩ := by
      simp only [step, ht, Option.bind_some]
      rw [show t.step k s.shared a = some (u, v) from hu]
      rfl
    rw [List.map_cons, run, hstep, Option.bind_some,
      ih (List.getElem?_set_self hi) hrest, List.set_set]

/-- A reader that gets a message, or a producer that takes one and cannot forward it. On a queue
that never has a message a producer comes to `Put` by a signal. -/
def comeToPut (k : Kernel) : Role → List ThreadAct
  | .reader => [.attach oneFrame, .get false]
  | .producer =>
    if k.qbytes = 0 then [.connect ⟨[], [], true⟩, .get true]
    else [.connect ⟨[], [], true⟩, .get false, .send]

theorem comeToPut_putting (k : Kernel) (role : Role) (putFlag : BitVec 32) (w : Shared)
    (hq : w.queue = List.replicate (min 1 k.qbytes) [0]) :
    ∃ r j, run (fun (p : Thread × Shared) a => p.1.step k p.2 a) (fresh (role, putFlag), w)
        (comeToPut k role) = some r ∧ j ≤ k.qbytes ∧ r.2.queue = List.replicate j [0] ∧
      r.1.phase = .putting ∧ r.1.putFlag = putFlag ∧ r.1.msgBuf.data.length ≤ 1 := by
  cases role with
  | reader =>
    obtain ⟨hok, hdata⟩ := oneFrame_get ⟨0, fun _ => 0, 0⟩
    have hrun : run (fun (p : Thread × Shared) a => p.1.step k p.2 a)
        (fresh (.reader, putFlag), w) (comeToPut k .reader) =
        some ({ fresh (.reader, putFlag) with
          phase := .receiving
          fd := (TcpPolicy.get oneFrame ⟨0, fun _ => 0, 0⟩).rest }.hand
            (TcpPolicy.get oneFrame ⟨0, fun _ => 0, 0⟩).msg w) := by
      simp [comeToPut, run, Thread.step, fresh, hok]
    refine ⟨_, min 1 k.qbytes, hrun, Nat.min_le_right _ _, hq, rfl, rfl, ?_⟩
    exact Nat.le_of_eq (congrArg List.length hdata)
  | producer =>
    by_cases hz : k.qbytes = 0
    · rw [hz, Nat.min_zero, List.replicate_zero] at hq
      have hrun : run (fun (p : Thread × Shared) a => p.1.step k p.2 a)
          (fresh (.producer, putFlag), w) (comeToPut k .producer) =
          some ({ fresh (.producer, putFlag) with
            phase := .receiving
            sock := ⟨[], [], true⟩ }.hand ⟨0, fun _ => 0, 0⟩ w) := by
        simp [comeToPut, hz, run, Thread.step, fresh, SysvMqPolicy.get, msgrcv]
      exact ⟨_, 0, hrun, Nat.zero_le _, hq, rfl, rfl, Nat.zero_le _⟩
    · rw [show min 1 k.qbytes = 1 by omega, List.replicate_one] at hq
      have hrun : run (fun (p : Thread × Shared) a => p.1.step k p.2 a)
          (fresh (.producer, putFlag), w) (comeToPut k .producer) =
          some ({ fresh (.producer, putFlag) with
            phase := .sending
            sock := ⟨[], [], true⟩ }.hand
              { (MsgBuf.store ⟨0, fun _ => 0, 0⟩ [0]) with mtype := 1, len := 1 }
              { w with queue := [] }) := by
        simp [comeToPut, hz, run, Thread.step, fresh, hq, SysvMqPolicy.get, msgrcv, maxMsgSize,
          TcpPolicy.put, writeAll, writeLoop, Thread.hand]
      exact ⟨_, 0, hrun, Nat.zero_le _, rfl, rfl, rfl, Nat.le_of_eq (data_length _)⟩

theorem nowait_drops {k : Kernel} (hmax : maxMsgSize ≤ k.msgmax)
    {objects : List (Role × BitVec 32)} {o : Role × BitVec 32} (ho : o ∈ objects)
    (hn : nowait o.2 = true) :
    ∃ acts s, run (step k) (start objects) acts = some s ∧ s.shared.dropped ≠ [] := by
  obtain ⟨i, hi, rfl⟩ := List.getElem_of_mem ho
  have ht : (start objects).threads[i]? = some (fresh objects[i]) := by simp [start, hi]
  have hi' : i < (start objects).threads.length := by simpa [start] using hi
  obtain ⟨⟨role, putFlag⟩, hobj⟩ : ∃ o, objects[i] = o := ⟨_, rfl⟩
  rw [hobj] at hn ht
  have hfirst := run_fill k (start objects) 0 (min 1 k.qbytes) rfl (by omega)
  rw [Nat.zero_add] at hfirst
  obtain ⟨⟨t', w'⟩, j, hrun, hj, hq, hphase, hflag, hlen⟩ := comeToPut_putting k role putFlag
    { (start objects).shared with queue := List.replicate (min 1 k.qbytes) [0] } rfl
  simp only at hq hphase hflag hlen hn
  have hfill := run_fill k ⟨w', (start objects).threads.set i t'⟩ j (k.qbytes - j) hq (by omega)
  rw [Nat.add_sub_cancel' hj] at hfill
  rw [← hflag] at hn
  have hagain := msgsnd_again (m := t'.msgBuf.data) hn
    (Nat.le_trans hlen (Nat.le_trans (by decide) hmax))
  have hput : step k ⟨{ w' with queue := List.replicate k.qbytes [0] },
      (start objects).threads.set i t'⟩ (.thread i .msgsnd) = some
      ⟨{ w' with
          queue := List.replicate k.qbytes [0]
          dropped := w'.dropped ++ [t'.msgBuf.data] },
        ((start objects).threads.set i t').set i { t' with phase := .ended }⟩ := by
    simp [step, hi', Thread.step, hphase, hagain]
  have hthread : run (step k) ⟨{ (start objects).shared with
      queue := List.replicate (min 1 k.qbytes) [0] }, (start objects).threads⟩
      ((comeToPut k role).map (.thread i)) = some ⟨w', (start objects).threads.set i t'⟩ :=
    run_thread ht hrun
  obtain ⟨acts, hacts⟩ := ((Reaches.trans ⟨_, hfirst⟩ ⟨_, hthread⟩).trans ⟨_, hfill⟩).trans
    (.single hput)
  exact ⟨acts, _, hacts, List.append_ne_nil_of_right_ne_nil _ (List.cons_ne_nil _ [])⟩

/-- In every run of a set of threads nothing that came to `Put` is lost for want of room
exactly when no object was constructed with `IPC_NOWAIT` in its flag. -/
theorem full_queue_delays_iff (k : Kernel) (hmax : maxMsgSize ≤ k.msgmax)
    (objects : List (Role × BitVec 32)) :
    (∀ acts s, run (step k) (start objects) acts = some s → Kept s) ↔
      ∀ o ∈ objects, nowait o.2 = false := by
  constructor
  · intro h o ho
    by_contra hn
    obtain ⟨acts, s, hrun, hdrop⟩ := nowait_drops hmax ho (by simpa using hn)
    exact hdrop (h acts s hrun).2
  · intro hflags acts s h
    exact run_kept hmax hflags h

theorem zeroed_flags_delay :
    (∀ o ∈ [(Role.reader, 0#32), (.producer, 0#32)], nowait o.2 = false) ∧
      ∀ acts s, run (step ⟨16384, 8192⟩) (start [(.reader, 0#32), (.producer, 0#32)]) acts = some s →
        Kept s :=
  ⟨by decide,
    (full_queue_delays_iff ⟨16384, 8192⟩ (by decide) [(.reader, 0#32), (.producer, 0#32)]).mpr
      (by decide)⟩

theorem stray_flag_drops :
    ¬ ∀ acts s, run (step ⟨16384, 8192⟩) (start [(.reader, 0x7ffe0800#32)]) acts = some s →
      Kept s := by
  intro h
  obtain ⟨acts, s, hrun, hdrop⟩ := nowait_drops (k := ⟨16384, 8192⟩) (by decide)
    (List.mem_singleton.mpr rfl) (o := (.reader, 0x7ffe0800#32)) (by decide)
  exact hdrop (h acts s hrun).2

end Wissbi.BlockingPuts
