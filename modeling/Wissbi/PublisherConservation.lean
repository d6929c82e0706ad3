import Wissbi.PublisherSteps

set_option autoImplicit false

namespace Wissbi.PublisherConservation
open Buffers Framing PublisherMachine PublisherSteps Runs TcpFraming TcpPolicy ThreadPool

section
variable {Name Queue : Type} [DecidableEq Name] [DecidableEq Queue]

def held (p : Producer Queue) : List (Queue × Msg) :=
  match p.phase with
  | .writing m _ => [(p.queue, m)]
  | .failed m => [(p.queue, m)]
  | _ => []

def delivered (p : Producer Queue) : List (Queue × Msg) :=
  p.done.map fun m => (p.queue, m)

/-- A `Get` that failed hands its producer an empty message from nowhere. -/
def Conserved (s : State Name Queue) : Prop :=
  (s.shared.enqueued ++ s.shared.starved).Perm
    (s.shared.mq ++ s.shared.lost ++ s.producers.flatMap held ++ s.producers.flatMap delivered)

theorem producer_ledger {p p' : Producer Queue} {w w' : Shared Queue} {a : ProducerAct}
    (h : ProducerMoves p w a p' w') (x : Queue × Msg) :
    w'.enqueued = w.enqueued ∧
    w'.starved.count x + w.mq.count x + w.lost.count x + (held p).count x + (delivered p).count x =
      w.starved.count x + w'.mq.count x + w'.lost.count x + (held p').count x +
        (delivered p').count x := by
  refine ⟨by cases h <;> rfl, ?_⟩
  cases h with
  | took m before after hp hq =>
    simp only [held, delivered, hp, hq, List.count_append, List.count_cons, List.count_nil]
    omega
  | tookEmpty before after hp hq =>
    simp only [held, delivered, hp, hq, List.count_append, List.count_cons, List.count_nil]
    omega
  | starved hp =>
    simp only [held, delivered, hp, List.count_append, List.count_nil]
    omega
  | wrote m k n hp => simp only [held, delivered, hp]
  | finished m k n hp =>
    simp only [held, delivered, hp, List.map_append, List.count_append, List.map_cons,
      List.map_nil, List.count_nil]
    omega
  | broke m k hp => simp only [held, delivered, hp]
  | counted m hp => simp only [held, delivered, hp]
  | requeued m hp =>
    simp only [held, delivered, hp, List.count_append, List.count_nil]
    omega
  | lost m hp =>
    simp only [held, delivered, hp, List.count_append, List.count_nil]
    omega

theorem caller_ledger {cfg : Config Name Queue} {branches : List Name} {w w' : Shared Queue}
    {a : CallerAct Name} {c c' : Caller Name} (h : CallerMoves cfg branches w a c c' w')
    (x : Queue × Msg) :
    w'.starved = w.starved ∧ w'.lost = w.lost ∧
    w'.enqueued.count x + w.mq.count x = w.enqueued.count x + w'.mq.count x := by
  refine ⟨by cases h <;> rfl, by cases h <;> rfl, ?_⟩
  cases h
  case put =>
    simp only [List.count_append]
    omega
  all_goals rfl

theorem step_conserved {cfg : Config Name Queue} (s : State Name Queue) (a : Act Name)
    (t : State Name Queue) (hs : Conserved s) (h : step cfg s a = some t) : Conserved t := by
  obtain ⟨n, -, rfl⟩ | ⟨n, -, rfl⟩ | ⟨i, b, c, c', w, -, -, hm, rfl⟩ |
    ⟨i, b, p, p', w, -, hp, hm, rfl⟩ := step_cases h
  · exact hs
  · simpa [Conserved, held, delivered] using hs
  · refine List.perm_iff_count.mpr fun x => ?_
    have hx := List.perm_iff_count.mp hs x
    obtain ⟨h₁, h₂, h₃⟩ := caller_ledger hm x
    simp only [List.count_append, h₁, h₂] at hx ⊢
    omega
  · refine List.perm_iff_count.mpr fun x => ?_
    have hx := List.perm_iff_count.mp hs x
    obtain ⟨h₁, h₂⟩ := producer_ledger hm x
    obtain ⟨before, after, hb, hset⟩ := split_at hp
    rw [hb] at hx
    simp only [hset, List.count_append, List.flatMap_append, List.flatMap_cons, h₁] at hx ⊢
    omega

theorem step_starved {cfg : Config Name Queue} (s : State Name Queue) (a : Act Name)
    (t : State Name Queue) (hs : ∀ x ∈ s.shared.starved, x.2 = []) (h : step cfg s a = some t) :
    ∀ x ∈ t.shared.starved, x.2 = [] := by
  obtain ⟨n, -, rfl⟩ | ⟨n, -, rfl⟩ | ⟨i, b, c, c', w, -, -, hm, rfl⟩ |
    ⟨i, b, p, p', w, -, -, hm, rfl⟩ := step_cases h
  · exact hs
  · exact hs
  · cases hm <;> exact hs
  · cases hm
    case starved =>
      intro x hx
      rcases List.mem_append.mp hx with hx | hx
      · exact hs x hx
      · rw [List.mem_singleton.mp hx]
    all_goals exact hs

/-- What the frames that were sent leave room for at the end of the wire. -/
def Leaves : Phase → List UInt8 → Prop
  | .waiting, cut => cut = []
  | .sent _, cut => cut = []
  | .writing m k, cut =>
    m ≠ [] ∧ m.length ≤ maxMsgSize ∧ k < (frame m).length ∧ cut = (frame m).take k
  | .failed _, cut => codec.Cut cut
  | .closed, cut => codec.Cut cut

structure Connected (p : Producer Queue) : Prop where
  sized : ∀ m ∈ p.done, m ≠ [] ∧ m.length ≤ maxMsgSize
  wired : ∃ cut, p.wire = p.done.flatMap frame ++ cut ∧ Leaves p.phase cut

theorem cut_take (m : Msg) (k : ℕ) (hm : m.length ≤ maxMsgSize) (hk : k < (frame m).length) :
    codec.Cut ((frame m).take k) := by
  refine ⟨m, Nat.lt_of_le_of_lt hm (by decide), List.take_prefix k _, fun he => ?_⟩
  have hl := congrArg List.length he
  simp only [codec, List.length_take] at hl
  omega

theorem cut_nil : codec.Cut [] := by
  simpa using cut_take [0] 0 (by decide) (by simp)

theorem leaves_cut (phase : Phase) (cut : List UInt8) (h : Leaves phase cut) : codec.Cut cut := by
  cases phase with
  | waiting => rw [show cut = [] from h]; exact cut_nil
  | sent m => rw [show cut = [] from h]; exact cut_nil
  | writing m k => rw [h.2.2.2]; exact cut_take m k h.2.1 h.2.2.1
  | failed m => exact h
  | closed => exact h

omit [DecidableEq Queue] in
theorem producer_connected {p p' : Producer Queue} {w w' : Shared Queue} {a : ProducerAct}
    (hp : Connected p) (h : ProducerMoves p w a p' w') : Connected p' := by
  obtain ⟨sized, cut, hw, hl⟩ := hp
  have hc := leaves_cut _ _ hl
  cases h with
  | took m before after hp _ hm hlen =>
    rw [hp] at hl
    exact ⟨sized, cut, hw, hm, hlen, by rw [frame_length]; omega, hl⟩
  | tookEmpty before after hp => exact ⟨sized, cut, hw, hc⟩
  | starved hp => exact ⟨sized, cut, hw, hc⟩
  | wrote m k n hp hk =>
    rw [hp] at hl
    obtain ⟨hm, hlen, hlt, rfl⟩ := hl
    obtain ⟨hle, he⟩ := take_offered m k n (Nat.le_of_lt hlt)
    refine ⟨sized, _, ?_, hm, hlen, Nat.lt_of_le_of_ne hle hk, rfl⟩
    rw [← he, hw, List.append_assoc]
  | finished m k n hp hk =>
    rw [hp] at hl
    obtain ⟨hm, hlen, hlt, rfl⟩ := hl
    obtain ⟨-, he⟩ := take_offered m k n (Nat.le_of_lt hlt)
    refine ⟨?_, [], ?_, rfl⟩
    · intro x hx
      rcases List.mem_append.mp hx with hx | hx
      · exact sized x hx
      · rw [List.mem_singleton.mp hx]
        exact ⟨hm, hlen⟩
    · rw [hk, List.take_length] at he
      rw [hw, List.append_assoc, he]
      simp
  | broke m k hp => exact ⟨sized, cut, hw, hc⟩
  | counted m hp =>
    rw [hp] at hl
    exact ⟨sized, cut, hw, hl⟩
  | requeued m hp => exact ⟨sized, cut, hw, hc⟩
  | lost m hp => exact ⟨sized, cut, hw, hc⟩

theorem step_connected {cfg : Config Name Queue} (s : State Name Queue) (a : Act Name)
    (t : State Name Queue) (hs : ∀ p ∈ s.producers, Connected p) (h : step cfg s a = some t) :
    ∀ p ∈ t.producers, Connected p := by
  obtain ⟨n, -, rfl⟩ | ⟨n, -, rfl⟩ | ⟨i, b, c, c', w, -, -, hm, rfl⟩ |
    ⟨i, b, p, p', w, -, hp, hm, rfl⟩ := step_cases h
  · exact hs
  · intro p hp
    rcases List.mem_append.mp hp with hp | hp
    · exact hs p hp
    · rw [List.mem_singleton.mp hp]
      exact ⟨by simp, [], rfl, rfl⟩
  · exact hs
  · exact forall_set hs (producer_connected (hs p (List.mem_of_getElem? hp)) hm)

structure Invariant (s : State Name Queue) : Prop where
  conserved : Conserved s
  starved : ∀ x ∈ s.shared.starved, x.2 = []
  connected : ∀ p ∈ s.producers, Connected p

theorem step_invariant {cfg : Config Name Queue} (s : State Name Queue) (a : Act Name)
    (t : State Name Queue) (hs : Invariant s) (h : step cfg s a = some t) : Invariant t :=
  ⟨step_conserved s a t hs.conserved h, step_starved s a t hs.starved h,
    step_connected s a t hs.connected h⟩

omit [DecidableEq Name] [DecidableEq Queue] in
theorem start_invariant (callers : ℕ) : Invariant (start Name Queue callers) :=
  ⟨List.Perm.refl _, by simp [start], by simp [start]⟩

theorem run_invariant_start {cfg : Config Name Queue} {callers : ℕ} {acts : List (Act Name)}
    {s : State Name Queue} (h : run (step cfg) (start Name Queue callers) acts = some s) :
    Invariant s :=
  run_invariant Invariant step_invariant h (start_invariant callers)

omit [DecidableEq Name] in
theorem conserved_count {s : State Name Queue} (hs : Invariant s) (q : Queue) (m : Msg)
    (hm : m ≠ []) :
    s.shared.enqueued.count (q, m) =
      s.shared.mq.count (q, m) + total (fun p => (held p).count (q, m)) s.producers +
        total (fun p => (delivered p).count (q, m)) s.producers + s.shared.lost.count (q, m) := by
  have hz : s.shared.starved.count (q, m) = 0 :=
    List.count_eq_zero.mpr fun hx => hm (hs.starved _ hx)
  have hx := List.perm_iff_count.mp hs.conserved (q, m)
  simp only [List.count_append, List.count_flatMap, hz] at hx
  simp only [total]
  change _ = _ + (s.producers.map (List.count (q, m) ∘ held)).sum +
    (s.producers.map (List.count (q, m) ∘ delivered)).sum + _
  omega

omit [DecidableEq Queue] in
theorem received_done {p : Producer Queue} (hp : Connected p) (n : ℕ) (fd : ReadEnd) (msg : MsgBuf)
    (h : fd.bytes <+: p.wire) : received n fd msg <+: p.done := by
  obtain ⟨sized, cut, hw, hl⟩ := hp
  rw [received_eq]
  refine decodeN_prefix codec codec_strict ?_ (leaves_cut _ _ hl) (hw ▸ h) n
  exact fun m hm => Nat.lt_of_le_of_lt (sized m hm).2 (by decide)

/-- Every message that was put on a branch is in its queue, in a producer's hand, written
out on one connection or lost by a failed requeue, and the peer of a connection only
ever gets messages whose `Put` succeeded on it. -/
theorem published_conserved_and_delivered_once (cfg : Config Name Queue) (callers : ℕ)
    (acts : List (Act Name)) (s : State Name Queue)
    (h : run (step cfg) (start Name Queue callers) acts = some s) :
    (∀ q m, m ≠ [] →
      s.shared.enqueued.count (q, m) =
        s.shared.mq.count (q, m) + total (fun p => (held p).count (q, m)) s.producers +
          total (fun p => (delivered p).count (q, m)) s.producers +
          s.shared.lost.count (q, m)) ∧
    ∀ p ∈ s.producers, ∀ n fd msg, fd.bytes <+: p.wire → received n fd msg <+: p.done := by
  have hs := run_invariant_start h
  exact ⟨conserved_count hs, fun p hp n fd msg => received_done (hs.connected p hp) n fd msg⟩

end

/-- The first connection breaks inside the header and the second one delivers. -/
def reconnecting : List (Act ℕ) :=
  [.addBranch 0, .connect 0, .caller 0 (.getTrue [7] [0]), .caller 0 .putOk, .caller 0 .post,
    .producer 0 .msgrcv, .producer 0 (.write 2), .producer 0 .writeFail, .producer 0 .requeue,
    .connect 0, .producer 1 .msgrcv, .producer 1 (.write 9), .producer 1 (.write 1)]

theorem reconnecting_conserves :
    ∃ s, run (step ⟨.loop, id⟩) (start ℕ ℕ 1) reconnecting = some s ∧
      s.producers = [⟨0, .closed, [0, 0], []⟩, ⟨0, .sent [7], [0, 0, 0, 1, 7], [[7]]⟩] ∧
      s.shared.enqueued.count (0, [7]) =
        s.shared.mq.count (0, [7]) + total (fun p => (held p).count (0, [7])) s.producers +
          total (fun p => (delivered p).count (0, [7])) s.producers +
          s.shared.lost.count (0, [7]) ∧
      ∀ p ∈ s.producers, ∀ n fd msg, fd.bytes <+: p.wire → received n fd msg <+: p.done := by
  refine ⟨_, rfl, rfl, ?_⟩
  have h := published_conserved_and_delivered_once ⟨.loop, id⟩ 1 reconnecting _ rfl
  exact ⟨h.1 0 [7] (by decide), h.2⟩

end Wissbi.PublisherConservation
