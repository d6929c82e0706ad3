import Wissbi.Buffers

set_option autoImplicit false

/-!
# `msg_filter.hpp`

Policies and hooks are state transformers over one state `σ`, which stands for
whatever they reach (streams, queues, sockets, counters), and the filter's own
`msg_buf_`. `Filter` evaluates the four steps with C++'s short-circuit `&&`.
-/
namespace Wissbi.MsgFilter
open Buffers

variable {σ : Type}

abbrev Step (σ : Type) := σ × MsgBuf → Bool × σ × MsgBuf

structure Hooks (σ : Type) where
  preFilter : Step σ
  get : Step σ
  filterFunc : Step σ
  put : Step σ
  postFilter : Bool → Step σ

def always : Step σ := fun s => (true, s)

def defaultPost (res : Bool) : Step σ := fun s => (res, s)

def andThen (f g : Step σ) : Step σ := fun s =>
  let r := f s
  if r.1 then g r.2 else r

def filter (h : Hooks σ) : Step σ := fun s =>
  let r := andThen (andThen (andThen h.preFilter h.get) h.filterFunc) h.put s
  h.postFilter r.1 r.2

/-- `while (Filter()) {}` for at most `n` turns; `none` when it is still running. -/
def filterLoop (h : Hooks σ) : ℕ → σ × MsgBuf → Option (σ × MsgBuf)
  | 0, _ => none
  | n + 1, s =>
    let r := filter h s
    if r.1 then filterLoop h n r.2 else some r.2

theorem filterLoop_unique (h : Hooks σ) {n k : ℕ} {s a b : σ × MsgBuf}
    (ha : filterLoop h n s = some a) (hb : filterLoop h k s = some b) : a = b := by
  induction n generalizing k s with
  | zero => cases ha
  | succ n ih =>
    cases k with
    | zero => cases hb
    | succ k =>
      simp only [filterLoop] at ha hb
      split at ha
      next hr =>
        rw [if_pos hr] at hb
        exact ih ha hb
      next hr =>
        rw [if_neg hr] at hb
        exact Option.some.inj (ha.symm.trans hb)

end Wissbi.MsgFilter
