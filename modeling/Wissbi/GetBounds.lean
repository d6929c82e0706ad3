import Wissbi.LengthPolicy
import Wissbi.LinePolicy
import Wissbi.SysvMqPolicy
import Wissbi.TcpFraming

set_option autoImplicit false

namespace Wissbi.GetBounds
open Buffers Streams TcpPolicy TcpFraming

inductive Call where
  | tcp (fd : ReadEnd)
  | length (s : IStream)
  | line (s : IStream)
  | sysvMq (interrupted : Bool) (q : SysvMqPolicy.Queue)

structure Outcome where
  ok : Bool
  msg : MsgBuf
  stored : ℕ

def outcome {σ : Type} (r : GetResult σ) : Outcome := ⟨r.ok, r.msg, r.stored⟩

def Call.run (msg : MsgBuf) : Call → Outcome
  | .tcp fd => outcome (TcpPolicy.get fd msg)
  | .length s => outcome (LengthPolicy.get s msg)
  | .line s => outcome (LinePolicy.get s msg)
  | .sysvMq interrupted q => outcome (SysvMqPolicy.get interrupted q msg)

def outcomes : MsgBuf → List Call → List Outcome
  | _, [] => []
  | msg, c :: cs => c.run msg :: outcomes (c.run msg).msg cs

def Sound (r : Outcome) : Prop :=
  r.stored ≤ maxMsgSize ∧ r.msg.len ≤ maxMsgSize ∧ (r.ok = false → r.msg.len = 0)

/-- A socket offers no frame that both declares and delivers more than the array
holds; a number that parses as a length header lies between zero and the array
size. Lines and queues are never at fault. -/
def Call.Fits : Call → Prop
  | .tcp fd => 4 ≤ fd.bytes.length →
      ntohl (fd.bytes.take 4) ≤ maxMsgSize ∨ (fd.bytes.drop 4).length ≤ maxMsgSize
  | .length s => (readInt s).2.good = true →
      0 ≤ (readInt s).1 ∧ (readInt s).1 ≤ maxMsgSize
  | .line _ => True
  | .sysvMq _ _ => True

theorem tcp_sound_iff (fd : ReadEnd) (msg : MsgBuf) :
    Sound ((Call.tcp fd).run msg) ↔ (Call.tcp fd).Fits := by
  by_cases h4 : 4 ≤ fd.bytes.length
  · by_cases hw : ntohl (fd.bytes.take 4) ≤ (fd.bytes.drop 4).length
    · obtain ⟨h₁, h₂, -, h₃, -⟩ := get_whole fd msg h4 hw
      simp only [Sound, Call.run, outcome, Call.Fits, h₁, h₂, h₃, h4, forall_const,
        Bool.true_eq_false, false_implies, and_true, and_self]
      omega
    · obtain ⟨h₁, h₂, h₃⟩ := get_short_body fd msg h4 (by omega)
      simp only [Sound, Call.run, outcome, Call.Fits, h₁, h₂, h₃, h4, forall_const,
        Nat.zero_le, and_true]
      omega
  · obtain ⟨h₁, h₂, h₃⟩ := get_short_header fd msg (by omega)
    simp [Sound, Call.run, outcome, Call.Fits, h₁, h₂, h₃, h4]

theorem read_length (s : IStream) (n : ℤ) : (Streams.read s n).1.length ≤ n.toNat := by
  unfold Streams.read
  split
  · exact List.length_take_le _ _
  · exact Nat.zero_le _

theorem length_stored_le (s : IStream) (msg : MsgBuf)
    (h : (LengthPolicy.get s msg).ok = true → (LengthPolicy.get s msg).msg.len ≤ maxMsgSize) :
    (LengthPolicy.get s msg).stored ≤ maxMsgSize := by
  cases hg : (readInt s).2.good with
  | false => simp [LengthPolicy.get, hg]
  | true =>
    have hr := LengthPolicy.readInt_range s hg
    have hb := read_length (getChar (readInt s).2) (readInt s).1
    simp only [LengthPolicy.get, hg, Bool.not_true, Bool.false_eq_true, ↓reduceIte,
      forall_const] at h ⊢
    rcases lt_or_ge (readInt s).1 0 with hn | hn
    · have := toSize_of_neg (readInt s).1 hn (by omega)
      omega
    · have := toSize_of_nonneg (readInt s).1 hn (by omega)
      omega

theorem length_sound_iff (s : IStream) (msg : MsgBuf) :
    Sound ((Call.length s).run msg) ↔ (Call.length s).Fits := by
  cases hg : (readInt s).2.good with
  | false => simp [Sound, Call.run, outcome, Call.Fits, LengthPolicy.get, hg]
  | true =>
    have hr := LengthPolicy.readInt_range s hg
    have hb := read_length (getChar (readInt s).2) (readInt s).1
    simp only [Sound, Call.run, outcome, Call.Fits, LengthPolicy.get, hg, Bool.not_true,
      Bool.false_eq_true, ↓reduceIte, Bool.true_eq_false, false_implies, and_true, forall_const]
    rcases lt_or_ge (readInt s).1 0 with hn | hn
    · have := toSize_of_neg (readInt s).1 hn (by omega)
      omega
    · have := toSize_of_nonneg (readInt s).1 hn (by omega)
      omega

theorem getlineLoop_bounds (n gc : ℕ) (bytes : List UInt8) (hg : gc ≤ n - 1) :
    (getlineLoop n gc bytes).stored.length ≤ n - 1 - gc ∧
    (getlineLoop n gc bytes).gcount ≤ n - 1 + (if (getlineLoop n gc bytes).eof then 0 else 1) := by
  induction bytes generalizing gc with
  | nil => simp [getlineLoop, hg]
  | cons c cs ih =>
    unfold getlineLoop
    by_cases hc : c = newline
    · simp only [hc, ↓reduceIte, List.length_nil, Nat.zero_le, Bool.false_eq_true, true_and]
      omega
    · by_cases hfull : n - 1 ≤ gc
      · simp only [hc, hfull, ↓reduceIte, List.length_nil, Nat.zero_le, Bool.false_eq_true,
          true_and]
        omega
      · obtain ⟨h₁, h₂⟩ := ih (gc + 1) (by omega)
        simp only [hc, hfull, ↓reduceIte, List.length_cons]
        exact ⟨by omega, h₂⟩

theorem line_sound (s : IStream) (msg : MsgBuf) : Sound ((Call.line s).run msg) := by
  have hb := getlineLoop_bounds maxMsgSize 0 s.data (Nat.zero_le _)
  have hm : 0 < maxMsgSize := by decide
  simp only [Call.run, outcome, LinePolicy.get, getline]
  cases hs : s.good with
  | false => simp [Sound]
  | true =>
    simp only [↓reduceIte]
    cases hf : (getlineLoop maxMsgSize 0 s.data).fail ||
        (getlineLoop maxMsgSize 0 s.data).gcount == 0 with
    | true =>
      simp only [Sound, ↓reduceIte, List.length_append, List.length_singleton, Nat.zero_le,
        implies_true, and_true]
      omega
    | false =>
      simp only [Sound, Bool.false_eq_true, ↓reduceIte, List.length_append, List.length_singleton,
        Bool.true_eq_false, false_implies, and_true]
      omega

theorem sysvMq_sound (interrupted : Bool) (q : SysvMqPolicy.Queue) (msg : MsgBuf) :
    Sound ((Call.sysvMq interrupted q).run msg) := by
  simp only [Call.run, outcome, SysvMqPolicy.get]
  cases h : SysvMqPolicy.msgrcv interrupted q with
  | none => simp [Sound]
  | some p =>
    have hl := (SysvMqPolicy.msgrcv_some h).2.2
    simp [Sound, hl]

theorem call_sound_iff (c : Call) (msg : MsgBuf) : Sound (c.run msg) ↔ c.Fits := by
  cases c with
  | tcp fd => exact tcp_sound_iff fd msg
  | length s => exact length_sound_iff s msg
  | line s => exact iff_of_true (line_sound s msg) trivial
  | sysvMq interrupted q => exact iff_of_true (sysvMq_sound interrupted q msg) trivial

/-- Over any sequence of calls the buffer invariant holds after every one of them
exactly when every call was given input that fits. -/
theorem outcomes_sound_iff (msg : MsgBuf) (calls : List Call) :
    (∀ r ∈ outcomes msg calls, Sound r) ↔ ∀ c ∈ calls, c.Fits := by
  induction calls generalizing msg with
  | nil => simp [outcomes]
  | cons c cs ih =>
    simp only [outcomes, List.forall_mem_cons]
    rw [call_sound_iff, ih]

theorem oversized_frame_overruns :
    ¬ ∀ r ∈ outcomes ⟨0, fun _ => 0, 0⟩
      [.tcp ⟨htonl 4097 ++ List.replicate 4097 0, [], false⟩], Sound r := by
  intro h
  have hf := (tcp_sound_iff _ _).mp (h _ (List.mem_singleton.mpr rfl))
    (by rw [List.length_append, htonl_length]; exact Nat.le_add_right 4 _)
  have ht : (htonl 4097 ++ List.replicate 4097 (0 : UInt8)).take 4 = htonl 4097 :=
    List.take_left' (htonl_length _)
  have hd : (htonl 4097 ++ List.replicate 4097 (0 : UInt8)).drop 4 = List.replicate 4097 0 :=
    List.drop_left' (htonl_length _)
  rw [ht, hd, List.length_replicate, ntohl_htonl 4097 (by omega)] at hf
  simp [maxMsgSize] at hf

end Wissbi.GetBounds
