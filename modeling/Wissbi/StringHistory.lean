import Wissbi.LengthFrames
import Wissbi.Runs
import Wissbi.StringPolicy

set_option autoImplicit false

namespace Wissbi.StringHistory
open Buffers LengthPolicy Streams StringPolicy

inductive Call where
  | send (msg : Msg)
  | get (buf : MsgBuf)

def start : IStream := IStream.ofBytes []

def call (s : IStream) : Call → IStream
  | .send msg => send s msg
  | .get buf => (LengthPolicy.get s buf).rest

def after (calls : List Call) : IStream := calls.foldl call start

def sent (calls : List Call) : Option Msg :=
  match calls.getLast? with
  | some (.send msg) => some msg
  | _ => none

/-- Every `Get` of the calls returns what the `Send` directly before it was given, and
fails where there is none. -/
def HandsOver (calls : List Call) : Prop :=
  ∀ xs buf ys, calls = xs ++ .get buf :: ys →
    (∀ msg, sent xs = some msg →
      (LengthPolicy.get (after xs) buf).ok = true ∧
      (LengthPolicy.get (after xs) buf).msg.len = msg.length ∧
      (LengthPolicy.get (after xs) buf).msg.data = msg) ∧
    (sent xs = none →
      (LengthPolicy.get (after xs) buf).ok = false ∧
      (LengthPolicy.get (after xs) buf).msg.len = 0)

/-- Once a `Get` comes without a `Send` directly before it, no later one has a `Send`
directly before it. -/
def EmptyLast (calls : List Call) : Prop :=
  ∀ xs buf ys buf' zs, calls = xs ++ .get buf :: (ys ++ .get buf' :: zs) →
    sent xs = none → sent ys = none

def Starved (calls : List Call) : Prop :=
  ∃ xs buf ys, calls = xs ++ .get buf :: ys ∧ sent xs = none

theorem sent_snoc_send (calls : List Call) (msg : Msg) :
    sent (calls ++ [.send msg]) = some msg := by
  simp [sent]

theorem sent_snoc_get (calls : List Call) (buf : MsgBuf) : sent (calls ++ [.get buf]) = none := by
  simp [sent]

theorem sent_append_get (xs : List Call) (buf : MsgBuf) (ys : List Call) :
    sent (xs ++ .get buf :: ys) = sent ys := by
  rcases List.eq_nil_or_concat ys with rfl | ⟨zs, c, rfl⟩
  · exact sent_snoc_get xs buf
  · rw [List.concat_eq_append, ← List.cons_append, ← List.append_assoc]
    cases c with
    | send msg => rw [sent_snoc_send, sent_snoc_send]
    | get buf' => rw [sent_snoc_get, sent_snoc_get]

theorem starved_snoc_send (calls : List Call) (msg : Msg) :
    Starved (calls ++ [.send msg]) ↔ Starved calls := by
  constructor
  · rintro ⟨xs, buf, ys, h, hs⟩
    rcases Runs.snoc_eq_split h with ⟨hc, -⟩ | ⟨zs, -, hz⟩
    · cases hc
    · exact ⟨xs, buf, zs, hz, hs⟩
  · rintro ⟨xs, buf, ys, rfl, hs⟩
    exact ⟨xs, buf, ys ++ [.send msg], by simp, hs⟩

theorem starved_snoc_get (calls : List Call) (buf : MsgBuf) :
    Starved (calls ++ [.get buf]) ↔ Starved calls ∨ sent calls = none := by
  constructor
  · rintro ⟨xs, buf', ys, h, hs⟩
    rcases Runs.snoc_eq_split h with ⟨-, rfl⟩ | ⟨zs, -, hz⟩
    · exact .inr ((List.append_singleton_inj.mp h).1 ▸ hs)
    · exact .inl ⟨xs, buf', zs, hz, hs⟩
  · rintro (⟨xs, buf', ys, rfl, hs⟩ | hs)
    · exact ⟨xs, buf', ys ++ [.get buf], by simp, hs⟩
    · exact ⟨calls, buf, [], rfl, hs⟩

theorem after_snoc (calls : List Call) (c : Call) :
    after (calls ++ [c]) = call (after calls) c := by
  simp [after]

theorem get_rest_bad {s : IStream} (buf : MsgBuf) (h : (readInt s).2.good = false) :
    (LengthPolicy.get s buf).rest.good = false := by
  simp [LengthPolicy.get, h]

/-- What the calls so far have made of the stream and of the buffer under it. -/
structure Holds (calls : List Call) (s : IStream) : Prop where
  good : s.good = true ↔ ¬ Starved calls
  full : ∀ msg, sent calls = some msg → s.data = enc msg
  empty : s.good = true → sent calls = none → s.data = []

theorem Holds.send {calls : List Call} {s : IStream} (h : Holds calls s) (msg : Msg) :
    Holds (calls ++ [.send msg]) (send s msg) where
  good := by
    rw [starved_snoc_send]
    exact h.good
  full := by
    intro m hm
    rw [sent_snoc_send] at hm
    cases hm
    rfl
  empty := by
    intro _ hn
    rw [sent_snoc_send] at hn
    cases hn

theorem Holds.unsent {calls : List Call} {s : IStream} (h : Holds calls s)
    (hn : sent calls = none) : (readInt s).2.good = false := by
  cases hs : s.good with
  | false => exact readInt_bad s hs
  | true => exact readInt_nil s (h.empty hs hn)

theorem Holds.get {calls : List Call} {s : IStream} (h : Holds calls s)
    (hm : ∀ msg, sent calls = some msg → msg.length < 2 ^ 31) (buf : MsgBuf) :
    Holds (calls ++ [.get buf]) (LengthPolicy.get s buf).rest := by
  have hfull : ∀ msg, sent (calls ++ [.get buf]) = some msg →
      (LengthPolicy.get s buf).rest.data = enc msg := by
    intro msg hc
    rw [sent_snoc_get] at hc
    cases hc
  cases hc : sent calls with
  | none =>
    have hbad := get_rest_bad buf (h.unsent hc)
    refine ⟨?_, hfull, fun hg => absurd (hbad.symm.trans hg) (by decide)⟩
    rw [hbad, starved_snoc_get]
    simp [hc]
  | some msg =>
    -- what was sent is read only where no earlier `Get` has left its mark on the stream
    cases hs : s.good with
    | false =>
      have hbad := get_rest_bad buf (readInt_bad s hs)
      have hstarved : Starved calls := by
        by_contra hn
        exact absurd (hs.symm.trans (h.good.mpr hn)) (by decide)
      refine ⟨?_, hfull, fun hg => absurd (hbad.symm.trans hg) (by decide)⟩
      rw [hbad, starved_snoc_get]
      simp [hstarved]
    | true =>
      have hdata : s.data = enc msg ++ [] := by rw [h.full msg hc, List.append_nil]
      obtain ⟨-, -, hgood, hrest⟩ := get_enc s buf msg [] hs hdata (hm msg hc)
      refine ⟨?_, hfull, fun _ _ => hrest⟩
      rw [hgood, starved_snoc_get]
      simp [hc, h.good.mp hs]

theorem sent_mem {calls : List Call} {msg : Msg} (h : sent calls = some msg) :
    Call.send msg ∈ calls := by
  rcases List.eq_nil_or_concat calls with rfl | ⟨xs, c, rfl⟩
  · cases h
  · cases c with
    | send m =>
      rw [List.concat_eq_append, sent_snoc_send] at h
      cases h
      simp
    | get buf =>
      rw [List.concat_eq_append, sent_snoc_get] at h
      cases h

theorem holds_after (calls : List Call)
    (hm : ∀ msg, Call.send msg ∈ calls → msg.length < 2 ^ 31) : Holds calls (after calls) := by
  induction calls using List.reverseRecOn with
  | nil =>
    have hn : ¬ Starved [] := by
      rintro ⟨xs, buf, ys, h, -⟩
      simp at h
    refine ⟨iff_of_true rfl hn, ?_, fun _ _ => rfl⟩
    intro msg h
    cases h
  | append_singleton calls c ih =>
    have h := ih fun msg hx => hm msg (List.mem_append_left _ hx)
    rw [after_snoc]
    cases c with
    | send msg => exact h.send msg
    | get buf => exact h.get (fun msg hx => hm msg (List.mem_append_left _ (sent_mem hx))) buf

/-- The object hands over every message exactly as long as no `Send` and `Get` come after a
`Get` that nothing was sent for: such a `Get` leaves the stream bad, and it stays bad. -/
theorem handsOver_iff_emptyLast (calls : List Call)
    (hm : ∀ msg, Call.send msg ∈ calls → msg.length ≤ maxMsgSize) :
    HandsOver calls ↔ EmptyLast calls := by
  have hsmall : ∀ msg, Call.send msg ∈ calls → msg.length < 2 ^ 31 :=
    fun msg hx => Nat.lt_of_le_of_lt (hm msg hx) (by decide)
  have hholds : ∀ xs ys, calls = xs ++ ys → Holds xs (after xs) := by
    rintro xs ys rfl
    exact holds_after xs fun msg hx => hsmall msg (List.mem_append_left _ hx)
  constructor
  · intro h xs buf ys buf' zs he hnone
    by_contra hsome
    obtain ⟨msg, hmsg⟩ := Option.ne_none_iff_exists'.mp hsome
    have he' : calls = (xs ++ .get buf :: ys) ++ .get buf' :: zs := by simp [he]
    have hok := ((h _ buf' zs he').1 msg (by rw [sent_append_get, hmsg])).1
    -- the first of the two `Get`s has left the stream bad
    have hbad : (after (xs ++ .get buf :: ys)).good = false := by
      rw [← Bool.not_eq_true, (hholds _ _ he').good, not_not]
      exact ⟨xs, buf, ys, rfl, hnone⟩
    rw [get_ok, readInt_bad _ hbad] at hok
    cases hok
  · intro h xs buf ys he
    have hx := hholds xs _ he
    constructor
    · intro msg hmsg
      have hfed : ¬ Starved xs := by
        rintro ⟨xs', buf', ys', rfl, hnone⟩
        have hn := h xs' buf' ys' buf ys (by simp [he]) hnone
        rw [sent_append_get, hn] at hmsg
        cases hmsg
      have hlen : msg.length < 2 ^ 31 :=
        hsmall msg (by rw [he]; exact List.mem_append_left _ (sent_mem hmsg))
      have hdata : (after xs).data = enc msg ++ [] := by rw [hx.full msg hmsg, List.append_nil]
      obtain ⟨hok, hmsg', -, -⟩ := get_enc _ buf msg [] (hx.good.mpr hfed) hdata hlen
      exact ⟨hok, by rw [← data_length, hmsg'], hmsg'⟩
    · intro hnone
      exact LengthFrames.get_no_header buf (hx.unsent hnone)

theorem two_handed_over :
    HandsOver [.send [97], .get LengthFrames.hello, .send [98, 32], .get LengthFrames.hello,
      .get LengthFrames.hello] := by
  refine (handsOver_iff_emptyLast _ ?_).mpr ?_
  · intro msg hm
    simp only [List.mem_cons, Call.send.injEq, reduceCtorEq, List.not_mem_nil, or_false,
      false_or] at hm
    rcases hm with rfl | rfl <;> decide
  · intro xs buf ys buf' zs he hnone
    rcases xs with _ | ⟨c₁, _ | ⟨c₂, _ | ⟨c₃, _ | ⟨c₄, _ | ⟨c₅, xs⟩⟩⟩⟩⟩ <;> simp at he
    · obtain ⟨rfl, -⟩ := he
      cases hnone
    · obtain ⟨-, -, rfl, -⟩ := he
      cases hnone

theorem empty_get_stays :
    ¬ (∀ calls, (∀ msg, Call.send msg ∈ calls → msg.length ≤ maxMsgSize) → HandsOver calls) ∧
    (LengthPolicy.get (after [.get LengthFrames.hello, .send [97]]) LengthFrames.hello).ok =
      false := by
  have hlost : (LengthPolicy.get (after [.get LengthFrames.hello, .send [97]])
      LengthFrames.hello).ok = false := by decide
  refine ⟨fun h => ?_, hlost⟩
  have hands := h [.get LengthFrames.hello, .send [97], .get LengthFrames.hello]
    (by simp [maxMsgSize])
  have hok := ((hands [.get LengthFrames.hello, .send [97]] LengthFrames.hello [] rfl).1 [97] rfl).1
  exact absurd (hlost.symm.trans hok) (by decide)

end Wissbi.StringHistory
