import Wissbi.Buffers

set_option autoImplicit false

/-!
# `io_policy/sysv_mq.hpp`: the calls that move messages

A kernel queue is the list of its messages, oldest first; all carry type 1.
`accept` is the kernel's answer to `msgsnd` (false for a full queue under
`IPC_NOWAIT`, a signal or a removed queue), `interrupted` its answer to `msgrcv`.
-/
namespace Wissbi.SysvMqPolicy
open Buffers

abbrev Queue := List Msg

/-- `msgrcv` for at most `maxMsgSize` bytes without `MSG_NOERROR`: a larger message
stays in the queue and the call fails. On an empty queue the call only ever
returns by failing. -/
def msgrcv (interrupted : Bool) (q : Queue) : Option (Msg × Queue) :=
  if interrupted then none
  else match q with
    | [] => none
    | m :: rest => if m.length ≤ maxMsgSize then some (m, rest) else none

/-- `msgsnd`; `msgmax` is the kernel's limit for one message. -/
def msgsnd (msgmax : ℕ) (accept : Bool) (q : Queue) (m : Msg) : Option Queue :=
  if m.length ≤ msgmax ∧ accept then some (q ++ [m]) else none

def put (msgmax : ℕ) (accept : Bool) (q : Queue) (msg : MsgBuf) : Bool × Queue × MsgBuf :=
  let msg' := { msg with mtype := 1 }
  match msgsnd msgmax accept q msg'.data with
  | some q' => (true, q', msg')
  | none => (false, q, msg')

def get (interrupted : Bool) (q : Queue) (msg : MsgBuf) : GetResult Queue :=
  match msgrcv interrupted q with
  | none => ⟨false, { msg with len := 0 }, 0, q⟩
  | some (m, rest) => ⟨true, { msg.store m with mtype := 1, len := m.length }, m.length, rest⟩

theorem put_queue (msgmax : ℕ) (accept : Bool) (q : Queue) (msg : MsgBuf) :
    (SysvMqPolicy.put msgmax accept q msg).2.1 =
      if msg.len ≤ msgmax ∧ accept then q ++ [msg.data] else q := by
  have hd : ({ msg with mtype := 1 } : MsgBuf).data = msg.data := rfl
  simp only [SysvMqPolicy.put, msgsnd, hd, data_length]
  split_ifs <;> rfl

theorem put_ok (msgmax : ℕ) (accept : Bool) (q : Queue) (msg : MsgBuf) :
    (SysvMqPolicy.put msgmax accept q msg).1 = true ↔ msg.len ≤ msgmax ∧ accept = true := by
  have hd : ({ msg with mtype := 1 } : MsgBuf).data = msg.data := rfl
  simp only [SysvMqPolicy.put, msgsnd, hd, data_length]
  split_ifs with h <;> simp [h]

theorem msgrcv_some {interrupted : Bool} {q rest : Queue} {m : Msg}
    (h : msgrcv interrupted q = some (m, rest)) :
    interrupted = false ∧ q = m :: rest ∧ m.length ≤ maxMsgSize := by
  unfold msgrcv at h
  cases interrupted with
  | true => cases h
  | false =>
    cases q with
    | nil => cases h
    | cons m' q' =>
      by_cases hl : m'.length ≤ maxMsgSize
      · simp only [Bool.false_eq_true, ↓reduceIte, hl, Option.some.injEq, Prod.mk.injEq] at h
        obtain ⟨rfl, rfl⟩ := h
        exact ⟨rfl, rfl, hl⟩
      · simp [hl] at h

theorem get_data {interrupted : Bool} {q rest : Queue} {m : Msg} (msg : MsgBuf)
    (h : msgrcv interrupted q = some (m, rest)) :
    (SysvMqPolicy.get interrupted q msg).ok = true ∧
    (SysvMqPolicy.get interrupted q msg).msg.data = m ∧
    (SysvMqPolicy.get interrupted q msg).rest = rest := by
  simp only [SysvMqPolicy.get, h]
  exact ⟨trivial, store_data_exact msg m, trivial⟩

theorem get_failed {interrupted : Bool} {q : Queue} (msg : MsgBuf)
    (h : msgrcv interrupted q = none) :
    (SysvMqPolicy.get interrupted q msg).ok = false ∧
    (SysvMqPolicy.get interrupted q msg).msg.len = 0 ∧
    (SysvMqPolicy.get interrupted q msg).rest = q := by
  simp [SysvMqPolicy.get, h]

end Wissbi.SysvMqPolicy
