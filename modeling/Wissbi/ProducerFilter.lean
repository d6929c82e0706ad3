import Wissbi.MsgFilter
import Wissbi.Runs
import Wissbi.SysvMqPolicy
import Wissbi.TcpFraming

set_option autoImplicit false

namespace Wissbi.ProducerFilter
open Buffers MsgFilter Runs SysvMqPolicy TcpPolicy TcpFraming

structure Producer where
  queue : Queue
  sock : WriteEnd
  pending : UInt32
  lastProcessed : UInt32
  totalProcessed : UInt64

structure Kernel where
  interrupted : Bool
  accept : Bool
  msgmax : ℕ

def producerFilter (k : Kernel) : Hooks Producer where
  preFilter := always
  get := fun (s, msg) =>
    let r := SysvMqPolicy.get k.interrupted s.queue msg
    (r.ok, { s with queue := r.rest }, r.msg)
  filterFunc := always
  put := fun (s, msg) =>
    let r := TcpPolicy.put s.sock msg
    (r.1, { s with sock := r.2 }, msg)
  postFilter := fun filterResult (s, msg) =>
    if filterResult then
      (true, { s with
        pending := s.pending - 1
        lastProcessed := s.lastProcessed + 1
        totalProcessed := s.totalProcessed + 1 }, msg)
    else
      let r := SysvMqPolicy.put k.msgmax k.accept s.queue msg
      (false, { s with queue := r.2.1 }, r.2.2)

/-- `msgrcv` has something to hand out: no signal comes in its way and the oldest
message fits the buffer. -/
def Delivers (k : Kernel) (q : Queue) : Prop :=
  k.interrupted = false ∧ ∃ m, q.head? = some m ∧ m.length ≤ maxMsgSize

theorem delivers_iff (k : Kernel) (q : Queue) :
    Delivers k q ↔ ∃ m rest, msgrcv k.interrupted q = some (m, rest) := by
  constructor
  · rintro ⟨hi, m, hm, hl⟩
    obtain ⟨rest, rfl⟩ := List.head?_eq_some_iff.mp hm
    exact ⟨m, rest, by simp [msgrcv, hi, hl]⟩
  · rintro ⟨m, rest, h⟩
    obtain ⟨hi, rfl, hl⟩ := msgrcv_some h
    exact ⟨hi, m, rfl, hl⟩

/-- An iteration that got nothing puts an empty message on the queue. -/
theorem filter_starved (k : Kernel) (s : Producer) (msg : MsgBuf)
    (h : msgrcv k.interrupted s.queue = none) :
    (filter (producerFilter k) (s, msg)).1 = false ∧
    (filter (producerFilter k) (s, msg)).2.1.queue =
      (if k.accept then s.queue ++ [[]] else s.queue) := by
  obtain ⟨h₁, h₂, h₃⟩ := get_failed msg h
  have hd : (SysvMqPolicy.get k.interrupted s.queue msg).msg.data = [] := (data_eq_nil _).mpr h₂
  cases hk : k.accept <;>
    simp [filter, andThen, producerFilter, always, h₁, h₂, h₃, put_queue, hd, hk]

theorem filter_fed (k : Kernel) (s : Producer) (msg : MsgBuf) (m : Msg) (rest : Queue)
    (h : msgrcv k.interrupted s.queue = some (m, rest)) :
    (filter (producerFilter k) (s, msg)).2.1.queue =
      (if (filter (producerFilter k) (s, msg)).1 then rest
        else if m.length ≤ k.msgmax ∧ k.accept then rest ++ [m] else rest) := by
  obtain ⟨h₁, h₂, h₃⟩ := get_data msg h
  have hl : (SysvMqPolicy.get k.interrupted s.queue msg).msg.len = m.length := by
    rw [← data_length, h₂]
  cases hp : (TcpPolicy.put s.sock (SysvMqPolicy.get k.interrupted s.queue msg).msg).1 <;>
    simp [filter, andThen, producerFilter, always, h₁, h₂, h₃, hp, hl, put_queue]

theorem filter_restores_iff (k : Kernel) (s : Producer) (msg : MsgBuf)
    (hmax : maxMsgSize ≤ k.msgmax) (haccept : k.accept = true)
    (hres : (filter (producerFilter k) (s, msg)).1 = false) :
    (filter (producerFilter k) (s, msg)).2.1.queue.Perm s.queue ↔ Delivers k s.queue := by
  rw [delivers_iff]
  cases h : msgrcv k.interrupted s.queue with
  | none =>
    obtain ⟨-, hq⟩ := filter_starved k s msg h
    rw [hq, haccept]
    refine iff_of_false ?_ (by simp)
    intro hp
    have := hp.length_eq
    simp at this
  | some p =>
    obtain ⟨m, rest⟩ := p
    obtain ⟨-, hq, hl⟩ := msgrcv_some h
    refine iff_of_true ?_ ⟨m, rest, rfl⟩
    rw [filter_fed k s msg m rest h, hres, haccept, hq, if_neg Bool.false_ne_true,
      if_pos ⟨Nat.le_trans hl hmax, rfl⟩]
    exact List.perm_append_singleton m rest

structure Branch where
  producer : Producer
  msgBuf : MsgBuf
  published : List Msg

inductive Event where
  | publish (m : Msg)
  | reconnect (sock : WriteEnd) (msgBuf : MsgBuf)
  | iterate (k : Kernel)

def step (b : Branch) : Event → Option Branch
  | .publish m => some { b with
      producer := { b.producer with queue := b.producer.queue ++ [m] }
      published := b.published ++ [m] }
  | .reconnect sock msgBuf => some { b with
      producer := { b.producer with sock := sock }
      msgBuf := msgBuf }
  | .iterate k =>
    let r := filter (producerFilter k) (b.producer, b.msgBuf)
    some { b with producer := r.2.1, msgBuf := r.2.2 }

def Producer.branch (s : Producer) (msgBuf : MsgBuf) : Branch := ⟨s, msgBuf, s.queue⟩

/-- Every iteration finds a message that `msgrcv` can hand out. -/
def Fed (b : Branch) : Event → Prop
  | .iterate k => Delivers k b.producer.queue
  | _ => True

def OnlyPublished (b : Branch) : Prop := ∀ m ∈ b.producer.queue, m ∈ b.published

theorem step_onlyPublished (b : Branch) (e : Event) (c : Branch) (hb : OnlyPublished b)
    (he : Fed b e) (h : step b e = some c) : OnlyPublished c := by
  cases e with
  | publish m =>
    cases h
    intro x hx
    rcases List.mem_append.mp hx with hx | hx
    · exact List.mem_append_left _ (hb x hx)
    · exact List.mem_append_right _ hx
  | reconnect sock msgBuf =>
    cases h
    exact hb
  | iterate k =>
    cases h
    obtain ⟨m, rest, hr⟩ := (delivers_iff k b.producer.queue).mp he
    have hq := (msgrcv_some hr).2.1
    intro x hx
    apply hb x
    rw [hq]
    change x ∈ (filter (producerFilter k) (b.producer, b.msgBuf)).2.1.queue at hx
    rw [filter_fed k b.producer b.msgBuf m rest hr] at hx
    split_ifs at hx <;> simp_all [or_comm]

/-- A failed iteration whose requeue succeeds restores the queue exactly when it
had taken a message; and while every iteration takes one, the queue never holds
a message that was not published. -/
theorem failed_iteration_restores (s : Producer) (msg : MsgBuf) :
    (∀ k : Kernel, maxMsgSize ≤ k.msgmax → k.accept = true →
      (filter (producerFilter k) (s, msg)).1 = false →
      ((filter (producerFilter k) (s, msg)).2.1.queue.Perm s.queue ↔ Delivers k s.queue)) ∧
    ∀ (events : List Event) (b : Branch), run step (s.branch msg) events = some b →
      Along step Fed (s.branch msg) events → ∀ m ∈ b.producer.queue, m ∈ b.published := by
  refine ⟨fun k => filter_restores_iff k s msg, fun events b hrun halong => ?_⟩
  exact run_invariant_along Fed OnlyPublished step_onlyPublished hrun halong fun m hm => hm

theorem broken_connection_restores :
    (filter (producerFilter ⟨false, true, 8192⟩)
      (⟨[[104]], ⟨[], [], true⟩, 0, 0, 0⟩, ⟨0, fun _ => 0, 0⟩)).2.1.queue.Perm [[104]] :=
  ((failed_iteration_restores ⟨[[104]], ⟨[], [], true⟩, 0, 0, 0⟩ ⟨0, fun _ => 0, 0⟩).1
    ⟨false, true, 8192⟩ (by decide) rfl (by decide)).mpr ⟨rfl, [104], rfl, by decide⟩

theorem interrupted_iteration_adds :
    let k : Kernel := ⟨true, true, 8192⟩
    let s : Producer := ⟨[], ⟨[], [], false⟩, 0, 0, 0⟩
    let r := filter (producerFilter k) (s, ⟨0, fun _ => 0, 0⟩)
    r.1 = false ∧ r.2.1.queue = [[]] ∧ ¬ r.2.1.queue.Perm s.queue := by
  decide

end Wissbi.ProducerFilter
