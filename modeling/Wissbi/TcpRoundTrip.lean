import Wissbi.TcpFraming

set_option autoImplicit false

namespace Wissbi.TcpRoundTrip
open Buffers Framing TcpPolicy TcpFraming

theorem put_frame (fd : WriteEnd) (msg : MsgBuf) (h : Working fd) (hl : msg.len ≠ 0) :
    (put fd msg).1 = true ∧ (put fd msg).2.sent = fd.sent ++ frame msg.data ∧
    Working (put fd msg).2 := by
  have hok := put_working fd msg h hl
  obtain ⟨t, hsent, -, hiff⟩ := put_sent fd msg
  refine ⟨hok, by rw [hsent, (hiff.mp hok).1], ?_⟩
  obtain ⟨h₁, h₂⟩ := writeAll_working fd (htonl msg.len) h
  simp only [put, hl, ↓reduceIte, h₁]
  exact (writeAll_working _ msg.data h₂).2

theorem puts_frames (fd : WriteEnd) (msgs : List MsgBuf) (h : Working fd)
    (hl : ∀ msg ∈ msgs, msg.len ≠ 0) :
    (puts put fd msgs).1 = msgs.map (fun _ => true) ∧
    (puts put fd msgs).2.sent = fd.sent ++ msgs.flatMap (fun msg => frame msg.data) := by
  induction msgs generalizing fd with
  | nil => simp [puts]
  | cons msg msgs ih =>
    obtain ⟨h₁, h₂, h₃⟩ := put_frame fd msg h (hl msg (by simp))
    obtain ⟨h₄, h₅⟩ := ih (put fd msg).2 h₃ (fun x hx => hl x (by simp [hx]))
    simp only [puts, List.map_cons, List.flatMap_cons]
    refine ⟨by rw [h₁, h₄], ?_⟩
    rw [h₅, h₂, List.append_assoc]

/-- However `write` splits the frames, wherever the stream is cut and however `read`
splits what is left of it, `Get` returns exactly the messages whose frames lie before
the cut, and then fails. -/
theorem received_exactly_before_cut (msgs : List MsgBuf) (writes : List ℕ) (fd : ReadEnd)
    (buf : MsgBuf) (hm : ∀ msg ∈ msgs, 1 ≤ msg.len ∧ msg.len ≤ maxMsgSize)
    (hcut : fd.bytes <+: (puts put ⟨[], writes.map some, false⟩ msgs).2.sent) :
    (puts put ⟨[], writes.map some, false⟩ msgs).1 = msgs.map (fun _ => true) ∧
    ∃ k ≤ msgs.length,
      (∀ j ≤ msgs.length,
        ((msgs.take j).flatMap (fun msg => frame msg.data)).length ≤ fd.bytes.length ↔ j ≤ k) ∧
      (calls TcpPolicy.get (k + 1) fd buf).map GetResult.seen =
        (msgs.take k).map (fun msg => (true, msg.len, msg.data)) ++ [(false, 0, [])] := by
  have hw : Working ⟨[], writes.map some, false⟩ := ⟨by simp, rfl⟩
  obtain ⟨hok, hsent⟩ := puts_frames _ msgs hw fun msg hx => Nat.pos_iff_ne_zero.mp (hm msg hx).1
  refine ⟨hok, ?_⟩
  have hvalid : ∀ m ∈ msgs.map MsgBuf.data, codec.valid m := by
    intro m hx
    obtain ⟨msg, hmem, rfl⟩ := List.mem_map.mp hx
    have hle := (hm msg hmem).2
    change msg.data.length < 2 ^ 32
    rw [data_length]
    exact Nat.lt_of_le_of_lt hle (by decide)
  have hframes (ms : List MsgBuf) :
      ms.flatMap (fun msg => frame msg.data) = (ms.map MsgBuf.data).flatMap codec.enc :=
    (List.flatMap_map _ _ _).symm
  have hpre : fd.bytes <+: (msgs.map MsgBuf.data).flatMap codec.enc := by
    rwa [hsent, List.nil_append, hframes] at hcut
  obtain ⟨k, hk, hmax, rest, hbytes, hrest⟩ :=
    frames_before_cut codec codec_strict rfl hvalid hpre
  rw [List.length_map] at hk hmax
  refine ⟨k, hk, fun j hj => ?_, ?_⟩
  · rw [hframes, List.map_take]
    exact hmax j hj
  · have hc := calls_reads TcpPolicy.get (fun bytes m rest => decode bytes = some (m, rest))
      ReadEnd.bytes (fun _ => True)
      (fun fd msg m rest _ h =>
        let ⟨h₁, h₂, h₃⟩ := get_of_decode fd msg m rest h
        ⟨h₁, h₂, trivial, h₃⟩)
      (fun fd msg _ h => get_of_decode_none fd msg (by rw [h]; exact hrest)) fd buf trivial
      (hbytes ▸ reads_flatMap rest fun m hx after =>
        codec.dec_enc m after (hvalid m (List.mem_of_mem_take hx)))
    rw [List.length_take, List.length_map, Nat.min_eq_left hk] at hc
    rw [hc, ← List.map_take, List.map_map]
    simp [Function.comp_def]

theorem cut_body_received :
    let msgs : List MsgBuf := [⟨0, fun _ => 97, 1⟩, ⟨0, fun _ => 98, 2⟩]
    let fd : ReadEnd := ⟨[0, 0, 0, 1, 97, 0, 0, 0, 2, 98], [0, 2, 0], false⟩
    ∃ k ≤ 2, (∀ j ≤ 2,
        ((msgs.take j).flatMap (fun msg => frame msg.data)).length ≤ fd.bytes.length ↔ j ≤ k) ∧
      (calls TcpPolicy.get (k + 1) fd ⟨0, fun _ => 0, 0⟩).map GetResult.seen =
        (msgs.take k).map (fun msg => (true, msg.len, msg.data)) ++ [(false, 0, [])] :=
  (received_exactly_before_cut [⟨0, fun _ => 97, 1⟩, ⟨0, fun _ => 98, 2⟩] [3, 0, 1, 2]
    ⟨[0, 0, 0, 1, 97, 0, 0, 0, 2, 98], [0, 2, 0], false⟩ ⟨0, fun _ => 0, 0⟩
    (by decide) (by decide)).2

end Wissbi.TcpRoundTrip
