import Wissbi.ProducerFilter
import Wissbi.PublisherMachine

set_option autoImplicit false

namespace Wissbi.ProducerRefinement
open Buffers MsgFilter PublisherMachine Runs TcpPolicy

variable {Queue : Type} [DecidableEq Queue]

def producerStep (x : Producer Queue × Shared Queue) (a : ProducerAct) :
    Option (Producer Queue × Shared Queue) := x.1.step x.2 a

def written (p : Producer Queue) (m : Msg) (k : ℕ) (wire : List UInt8) : Producer Queue :=
  if k = (frame m).length then { p with phase := .sent m, wire := wire, done := p.done ++ [m] }
  else { p with phase := .writing m k, wire := wire }

omit [DecidableEq Queue] in
theorem written_all (p : Producer Queue) (m : Msg) (wire : List UInt8) :
    written p m (frame m).length wire =
      { p with phase := .sent m, wire := wire, done := p.done ++ [m] } := if_pos rfl

def brokenOff (p : Producer Queue) (m : Msg) (wire : List UInt8) : Producer Queue :=
  { p with phase := .failed m, wire := wire }

theorem write_reaches (p : Producer Queue) (w : Shared Queue) (m : Msg) (k n : ℕ)
    (wire : List UInt8) (hk : k < (frame m).length) :
    Reaches producerStep (written p m k wire, w)
      (written p m (k + ((offered m k).take n).length) (wire ++ (offered m k).take n), w) := by
  refine Reaches.single (a := .write n) ?_
  simp only [producerStep, written, Nat.ne_of_lt hk, ↓reduceIte, Producer.step]
  split_ifs <;> rfl

theorem fail_reaches (p : Producer Queue) (w : Shared Queue) (m : Msg) (k : ℕ)
    (wire : List UInt8) (hk : k < (frame m).length) :
    Reaches producerStep (written p m k wire, w) (brokenOff p m wire, w) := by
  refine Reaches.single (a := .writeFail) ?_
  simp only [producerStep, written, Nat.ne_of_lt hk, ↓reduceIte, Producer.step]
  rfl

/-- The loop of `WriteAll` over a part of the frame that starts at `base`. -/
theorem writeLoop_reaches (p : Producer Queue) (w : Shared Queue) (m : Msg) (buf : List UInt8)
    (base : ℕ) (hoff : ∀ j < buf.length, offered m (base + j) = buf.drop j)
    (hend : base + buf.length ≤ (frame m).length) (broken : Bool) (results : List (Option ℕ))
    (j : ℕ) (sent : List UInt8) (hj : j ≤ buf.length) :
    Reaches producerStep (written p m (base + j) sent, w)
      (if (writeLoop buf broken results j sent).1 then
        written p m (base + buf.length) (writeLoop buf broken results j sent).2.sent
      else brokenOff p m (writeLoop buf broken results j sent).2.sent, w) := by
  induction results generalizing j sent with
  | nil =>
    unfold writeLoop
    by_cases hlt : j < buf.length
    · rw [if_pos hlt]
      cases broken with
      | true => exact fail_reaches p w m (base + j) sent (by omega)
      | false =>
        have h := write_reaches p w m (base + j) buf.length sent (by omega)
        have hall : (buf.drop j).take buf.length = buf.drop j :=
          List.take_of_length_le (by simp)
        rw [hoff j hlt, hall, List.length_drop, show base + j + (buf.length - j) =
          base + buf.length by omega] at h
        exact h
    · rw [if_neg hlt, show j = buf.length by omega]
      exact Reaches.refl _
  | cons r rest ih =>
    unfold writeLoop
    by_cases hlt : j < buf.length
    · rw [if_pos hlt]
      cases r with
      | none => exact fail_reaches p w m (base + j) sent (by omega)
      | some n =>
        have h := write_reaches p w m (base + j) (min n (buf.length - j)) sent (by omega)
        have hlen :
            ((buf.drop j).take (min n (buf.length - j))).length = min n (buf.length - j) := by
          rw [List.length_take, List.length_drop]
          omega
        rw [hoff j hlt, hlen, Nat.add_assoc] at h
        exact h.trans (ih (j + min n (buf.length - j)) _ (by omega))
    · rw [if_neg hlt, show j = buf.length by omega]
      exact Reaches.refl _

theorem writeAll_reaches (p : Producer Queue) (w : Shared Queue) (m : Msg) (buf : List UInt8)
    (base : ℕ) (hoff : ∀ j < buf.length, offered m (base + j) = buf.drop j)
    (hend : base + buf.length ≤ (frame m).length) (fd : WriteEnd) :
    Reaches producerStep (written p m base fd.sent, w)
      (if (writeAll fd buf).1 then written p m (base + buf.length) (writeAll fd buf).2.sent
      else brokenOff p m (writeAll fd buf).2.sent, w) :=
  writeLoop_reaches p w m buf base hoff hend fd.broken fd.results 0 fd.sent (Nat.zero_le _)

theorem put_reaches (p : Producer Queue) (w : Shared Queue) (fd : WriteEnd) (msg : MsgBuf)
    (hne : msg.len ≠ 0) :
    Reaches producerStep (written p msg.data 0 fd.sent, w)
      (if (TcpPolicy.put fd msg).1 then
        written p msg.data (frame msg.data).length (TcpPolicy.put fd msg).2.sent
      else brokenOff p msg.data (TcpPolicy.put fd msg).2.sent, w) := by
  have hheader := writeAll_reaches p w msg.data (htonl msg.len) 0
    (fun j hj => by rw [htonl_length] at hj; rw [Nat.zero_add, offered, if_pos hj, data_length])
    (by rw [Nat.zero_add, htonl_length, frame_length]; exact Nat.le_add_right _ _) fd
  simp only [TcpPolicy.put, hne, ↓reduceIte]
  by_cases hok : (writeAll fd (htonl msg.len)).1 = true
  · have hbody := writeAll_reaches p w msg.data msg.data 4
      (fun j _ => by rw [offered, if_neg (by omega), Nat.add_sub_cancel_left])
      (by rw [frame_length]) (writeAll fd (htonl msg.len)).2
    rw [← frame_length] at hbody
    rw [if_pos hok] at hheader ⊢
    exact hheader.trans hbody
  · rw [if_neg hok] at hheader ⊢
    rw [if_neg hok]
    exact hheader

theorem takeFirst_map (q : Queue) (m : Msg) (rest : List Msg) :
    takeFirst q ((m :: rest).map (q, ·)) = some (m, rest.map (q, ·)) := by
  simp [takeFirst]

theorem requeue_reaches (k : ProducerFilter.Kernel) (p : Producer Queue) (w : Shared Queue)
    (msg : MsgBuf) (queue : List Msg) (hp : p.phase = .failed msg.data)
    (hq : w.mq = queue.map (p.queue, ·)) :
    ∃ w', Reaches producerStep (p, w) ({ p with phase := .closed }, w') ∧
      w'.mq = (SysvMqPolicy.put k.msgmax k.accept queue msg).2.1.map (p.queue, ·) ∧
      w'.pending = w.pending := by
  rw [SysvMqPolicy.put_queue]
  split_ifs
  · refine ⟨{ w with mq := w.mq ++ [(p.queue, msg.data)] }, Reaches.single (a := .requeue) ?_, ?_,
      rfl⟩
    · simp [producerStep, Producer.step, hp]
    · simp [hq]
  · refine ⟨{ w with lost := w.lost ++ [(p.queue, msg.data)] },
      Reaches.single (a := .requeueFail) ?_, hq, rfl⟩
    simp [producerStep, Producer.step, hp]

/-- The machine's producer, on a queue of its own, and the state of the filter agree. -/
structure Matches (p : Producer Queue) (w : Shared Queue) (s : ProducerFilter.Producer) : Prop where
  wire : p.wire = s.sock.sent
  mq : w.mq = s.queue.map (p.queue, ·)
  pending : w.pending = s.pending

theorem failure_matches (k : ProducerFilter.Kernel) (p : Producer Queue) (w : Shared Queue)
    (s : ProducerFilter.Producer) (msg : MsgBuf) (hp : p.phase = .failed msg.data)
    (h : Matches p w s) :
    ∃ w', Reaches producerStep (p, w) ({ p with phase := .closed }, w') ∧
      Matches { p with phase := .closed } w'
        { s with queue := (SysvMqPolicy.put k.msgmax k.accept s.queue msg).2.1 } := by
  obtain ⟨w', hr, hq, hpend⟩ := requeue_reaches k p w msg s.queue hp h.mq
  exact ⟨w', hr, h.wire, hq, hpend.trans h.pending⟩

theorem put_matches (k : ProducerFilter.Kernel) (p : Producer Queue) (w : Shared Queue)
    (s : ProducerFilter.Producer) (msg : MsgBuf) (hne : msg.len ≠ 0) (h : Matches p w s) :
    ∃ p' w', Reaches producerStep (written p msg.data 0 s.sock.sent, w) (p', w') ∧
      p'.phase = (if (TcpPolicy.put s.sock msg).1 then .waiting else .closed) ∧
      Matches p' w' ((ProducerFilter.producerFilter k).postFilter (TcpPolicy.put s.sock msg).1
        ({ s with sock := (TcpPolicy.put s.sock msg).2 }, msg)).2.1 := by
  have hput := put_reaches p w s.sock msg hne
  cases hok : (TcpPolicy.put s.sock msg).1 with
  | true =>
    rw [if_pos hok, written_all] at hput
    refine ⟨_, _, hput.trans (Reaches.single (a := .countDown) rfl), rfl, rfl, h.mq, ?_⟩
    exact congrArg (· - 1) h.pending
  | false =>
    rw [if_neg (by simp [hok])] at hput
    obtain ⟨w', hreq, hm⟩ := failure_matches k
      (brokenOff p msg.data (TcpPolicy.put s.sock msg).2.sent) w
      { s with sock := (TcpPolicy.put s.sock msg).2 } msg rfl ⟨rfl, h.mq, h.pending⟩
    exact ⟨_, w', hput.trans hreq, rfl, hm⟩

section
variable (k : ProducerFilter.Kernel) (s : ProducerFilter.Producer) (msg : MsgBuf)
variable (p : Producer Queue) (w : Shared Queue)

/-- Some steps of the machine lead to what one call of `Filter()` computes. -/
def Follows : Prop :=
  ∃ p' w', Reaches producerStep (p, w) (p', w') ∧
    p'.phase = (if (filter (ProducerFilter.producerFilter k) (s, msg)).1 then .waiting
      else .closed) ∧
    Matches p' w' (filter (ProducerFilter.producerFilter k) (s, msg)).2.1

theorem starved_matches (hp : p.phase = .waiting) (h : Matches p w s)
    (hr : SysvMqPolicy.msgrcv k.interrupted s.queue = none) :
    Follows k s msg p w := by
  obtain ⟨h₁, h₂, h₃⟩ := SysvMqPolicy.get_failed msg hr
  have hstarve : Reaches producerStep (p, w)
      ({ p with phase := .failed [] }, { w with starved := w.starved ++ [(p.queue, [])] }) :=
    Reaches.single (a := .msgrcvFail) (by simp [producerStep, Producer.step, hp])
  obtain ⟨w', hreq, hm⟩ := failure_matches k { p with phase := .failed [] }
    { w with starved := w.starved ++ [(p.queue, [])] } s
    (SysvMqPolicy.get k.interrupted s.queue msg).msg (by rw [(data_eq_nil _).mpr h₂])
    ⟨h.wire, h.mq, h.pending⟩
  refine ⟨_, w', hstarve.trans hreq, ?_, ?_⟩
  · simp [filter, andThen, ProducerFilter.producerFilter, always, h₁]
  · simpa [filter, andThen, ProducerFilter.producerFilter, always, h₁, h₃] using hm

theorem msgrcv_reaches (hp : p.phase = .waiting) (h : Matches p w s) {m : Msg} {rest : List Msg}
    (hr : SysvMqPolicy.msgrcv k.interrupted s.queue = some (m, rest)) :
    Reaches producerStep (p, w)
      ({ p with phase := if m = [] then .failed m else .writing m 0 },
        { w with mq := rest.map (p.queue, ·) }) := by
  obtain ⟨-, hq, hl⟩ := SysvMqPolicy.msgrcv_some hr
  have htake : takeFirst p.queue w.mq = some (m, rest.map (p.queue, ·)) := by
    rw [h.mq, hq, takeFirst_map]
  exact Reaches.single (a := .msgrcv) (by simp [producerStep, Producer.step, hp, htake, hl])

theorem refused_matches (hp : p.phase = .waiting) (h : Matches p w s) {rest : List Msg}
    (hr : SysvMqPolicy.msgrcv k.interrupted s.queue = some ([], rest)) :
    Follows k s msg p w := by
  obtain ⟨h₁, h₂, h₃⟩ := SysvMqPolicy.get_data msg hr
  have hz : (SysvMqPolicy.get k.interrupted s.queue msg).msg.len = 0 := by
    rw [← data_length, h₂]
    rfl
  have hrcv := msgrcv_reaches k s p w hp h hr
  rw [if_pos rfl] at hrcv
  obtain ⟨w', hreq, hmatch⟩ := failure_matches k { p with phase := .failed [] }
    { w with mq := rest.map (p.queue, ·) } { s with queue := rest }
    (SysvMqPolicy.get k.interrupted s.queue msg).msg (by rw [h₂]) ⟨h.wire, rfl, h.pending⟩
  refine ⟨_, w', hrcv.trans hreq, ?_, ?_⟩
  · simp [filter, andThen, ProducerFilter.producerFilter, always, h₁, TcpPolicy.put, hz]
  · simpa [filter, andThen, ProducerFilter.producerFilter, always, h₁, h₃, TcpPolicy.put, hz]
      using hmatch

theorem taken_matches (hp : p.phase = .waiting) (h : Matches p w s) {m : Msg} {rest : List Msg}
    (hr : SysvMqPolicy.msgrcv k.interrupted s.queue = some (m, rest)) (hm : m ≠ []) :
    Follows k s msg p w := by
  obtain ⟨h₁, h₂, h₃⟩ := SysvMqPolicy.get_data msg hr
  have hne : (SysvMqPolicy.get k.interrupted s.queue msg).msg.len ≠ 0 := by
    rwa [Ne, ← data_eq_nil, h₂]
  have hrcv := msgrcv_reaches k s p w hp h hr
  rw [if_neg hm] at hrcv
  obtain ⟨p', w', hput, hphase, hmatch⟩ := put_matches k p
    { w with mq := rest.map (p.queue, ·) } { s with queue := rest }
    (SysvMqPolicy.get k.interrupted s.queue msg).msg hne ⟨h.wire, rfl, h.pending⟩
  have hstart : written p (SysvMqPolicy.get k.interrupted s.queue msg).msg.data 0 s.sock.sent =
      { p with phase := .writing m 0 } := by
    rw [h₂, written, if_neg (by rw [frame_length]; omega), ← h.wire]
  rw [hstart] at hput
  refine ⟨p', w', hrcv.trans hput, ?_, ?_⟩
  · rw [hphase]
    cases hok : (TcpPolicy.put s.sock (SysvMqPolicy.get k.interrupted s.queue msg).msg).1 <;>
      simp [filter, andThen, ProducerFilter.producerFilter, always, h₁, hok]
  · simpa [filter, andThen, ProducerFilter.producerFilter, always, h₁, h₃] using hmatch

theorem iteration_matches (hp : p.phase = .waiting) (h : Matches p w s) :
    Follows k s msg p w := by
  cases hr : SysvMqPolicy.msgrcv k.interrupted s.queue with
  | none => exact starved_matches k s msg p w hp h hr
  | some r =>
    obtain ⟨m, rest⟩ := r
    by_cases hm : m = []
    · subst hm
      exact refused_matches k s msg p w hp h hr
    · exact taken_matches k s msg p w hp h hr hm

end

end Wissbi.ProducerRefinement
