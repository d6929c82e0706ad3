import Wissbi.Framing
import Wissbi.TcpPolicy

set_option autoImplicit false

namespace Wissbi.TcpFraming
open Buffers Framing TcpPolicy

theorem readLoop_turn (size : ℕ) (fd : ReadEnd) (got : List UInt8) (hlt : got.length < size)
    (hne : fd.bytes ≠ []) :
    ∃ n fd', 0 < n ∧ n ≤ size - got.length ∧ n ≤ fd.bytes.length ∧
      fd'.bytes = fd.bytes.drop n ∧
      readLoop size fd got = readLoop size fd' (got ++ fd.bytes.take n) := by
  obtain ⟨n, fd', hn, hle, hlen, hd, hr⟩ :=
    read_progress fd (size - got.length) hne (by omega)
  have hpos : 0 < (fd.bytes.take n).length := by
    simp only [List.length_take]
    omega
  obtain ⟨b, bs, hcons⟩ := List.exists_cons_of_ne_nil (List.ne_nil_of_length_pos hpos)
  refine ⟨n, fd', hn, hle, hlen, hd, ?_⟩
  rw [readLoop, if_pos hlt, hr, hcons]

theorem readLoop_enough (size : ℕ) (fd : ReadEnd) (got : List UInt8) (hg : got.length ≤ size)
    (h : size ≤ got.length + fd.bytes.length) :
    (readLoop size fd got).ret = size ∧
    (readLoop size fd got).bytes = got ++ fd.bytes.take (size - got.length) ∧
    (readLoop size fd got).fd.bytes = fd.bytes.drop (size - got.length) := by
  induction hk : size - got.length using Nat.strongRecOn generalizing fd got with
  | ind k ih =>
    by_cases hlt : got.length < size
    · have hne : fd.bytes ≠ [] := by
        intro h0
        rw [h0, List.length_nil] at h
        omega
      obtain ⟨n, fd', hn, hle, hlen, hd, hr⟩ := readLoop_turn size fd got hlt hne
      have hgot : (got ++ fd.bytes.take n).length = got.length + n := by
        rw [List.length_append, List.length_take, Nat.min_eq_left hlen]
      have hrest : fd'.bytes.length = fd.bytes.length - n := by
        rw [hd, List.length_drop]
      obtain ⟨h1, h2, h3⟩ := ih (k - n) (by omega) fd' (got ++ fd.bytes.take n)
        (by omega) (by omega) (by omega)
      obtain ⟨e, rfl⟩ : ∃ e, k = n + e := ⟨k - n, by omega⟩
      rw [Nat.add_sub_cancel_left] at h2 h3
      rw [hr]
      refine ⟨h1, ?_, ?_⟩
      · rw [h2, hd, List.append_assoc, List.take_add]
      · rw [h3, hd, List.drop_drop]
    · have hz : k = 0 := by omega
      rw [readLoop, if_neg hlt, hz]
      refine ⟨?_, by simp, by simp⟩
      simp only
      omega

theorem readLoop_short (size : ℕ) (fd : ReadEnd) (got : List UInt8)
    (h : got.length + fd.bytes.length < size) :
    (readLoop size fd got).ret ≤ 0 ∧ -1 ≤ (readLoop size fd got).ret ∧
    (readLoop size fd got).bytes = got ++ fd.bytes := by
  induction hk : fd.bytes.length using Nat.strongRecOn generalizing fd got with
  | ind k ih =>
    by_cases hne : fd.bytes = []
    · rw [readLoop, if_pos (by omega), hne]
      simp only [ReadEnd.read, hne]
      cases fd.failed <;> simp
    · obtain ⟨n, fd', hn, hle, hlen, hd, hr⟩ := readLoop_turn size fd got (by omega) hne
      have hrest : fd'.bytes.length = fd.bytes.length - n := by
        rw [hd, List.length_drop]
      have hgot : (got ++ fd.bytes.take n).length = got.length + n := by
        rw [List.length_append, List.length_take, Nat.min_eq_left hlen]
      obtain ⟨h1, h2, h3⟩ := ih fd'.bytes.length (by omega) fd' (got ++ fd.bytes.take n)
        (by omega) rfl
      rw [hr]
      refine ⟨h1, h2, ?_⟩
      rw [h3, hd, List.append_assoc, List.take_append_drop]

theorem readAll_enough (fd : ReadEnd) (size : ℕ) (h : size ≤ fd.bytes.length) :
    (readAll fd size).ret = size ∧ (readAll fd size).bytes = fd.bytes.take size ∧
    (readAll fd size).fd.bytes = fd.bytes.drop size := by
  simpa [readAll] using readLoop_enough size fd [] (Nat.zero_le _) (by simpa using h)

theorem readAll_short (fd : ReadEnd) (size : ℕ) (h : fd.bytes.length < size) :
    (readAll fd size).ret ≤ 0 ∧ -1 ≤ (readAll fd size).ret ∧
    (readAll fd size).bytes = fd.bytes := by
  simpa [readAll] using readLoop_short size fd [] (by simpa using h)

theorem ntohl_bound (bytes : List UInt8) (h : bytes.length = 4) : ntohl bytes < 2 ^ 32 := by
  obtain ⟨a, b, c, d, rfl⟩ : ∃ a b c d, bytes = [a, b, c, d] := by
    match bytes, h with
    | [a, b, c, d], _ => exact ⟨a, b, c, d, rfl⟩
  have ha := a.toNat_lt
  have hb := b.toNat_lt
  have hc := c.toNat_lt
  have hd := d.toNat_lt
  simp only [ntohl, List.foldl_cons, List.foldl_nil]
  omega

/-- A return value of `ReadAll` that reports a failure is never taken for a count. -/
theorem toSize_failure (z : ℤ) (n : ℕ) (h₀ : z ≤ 0) (h₁ : -1 ≤ z) (hn : 0 < n)
    (hb : n < 2 ^ 32) : toSize z ≠ n := by
  have hz : z = 0 ∨ z = -1 := by omega
  rcases hz with rfl | rfl
  · simp only [toSize]
    omega
  · simp only [toSize]
    omega

theorem get_short_header (fd : ReadEnd) (msg : MsgBuf) (h : fd.bytes.length < 4) :
    (TcpPolicy.get fd msg).ok = false ∧ (TcpPolicy.get fd msg).msg.len = 0 ∧
    (TcpPolicy.get fd msg).stored = 0 := by
  obtain ⟨h₀, h₁, -⟩ := readAll_short fd 4 h
  have hne := toSize_failure _ 4 h₀ h₁ (by omega) (by omega)
  simp [TcpPolicy.get, hne]

theorem readAll_header (fd : ReadEnd) (h4 : 4 ≤ fd.bytes.length) :
    toSize (readAll fd 4).ret = 4 ∧ (readAll fd 4).bytes = fd.bytes.take 4 ∧
    (readAll fd 4).fd.bytes = fd.bytes.drop 4 ∧ ntohl (fd.bytes.take 4) < 2 ^ 32 := by
  obtain ⟨hr, hb, hd⟩ := readAll_enough fd 4 h4
  have hl : (fd.bytes.take 4).length = 4 := by
    rw [List.length_take]
    omega
  refine ⟨?_, hb, hd, ntohl_bound _ hl⟩
  rw [hr]
  rfl

theorem get_short_body (fd : ReadEnd) (msg : MsgBuf) (h4 : 4 ≤ fd.bytes.length)
    (h : (fd.bytes.drop 4).length < ntohl (fd.bytes.take 4)) :
    (TcpPolicy.get fd msg).ok = false ∧ (TcpPolicy.get fd msg).msg.len = 0 ∧
    (TcpPolicy.get fd msg).stored = (fd.bytes.drop 4).length := by
  obtain ⟨h4', hb, hd, hn⟩ := readAll_header fd h4
  obtain ⟨h₀, h₁, h₂⟩ := readAll_short (readAll fd 4).fd (ntohl (fd.bytes.take 4))
    (by rw [hd]; exact h)
  have hne := toSize_failure _ _ h₀ h₁ (by omega) hn
  rw [hd] at h₂
  simp [TcpPolicy.get, h4', hb, hne.symm, h₂]

theorem get_whole (fd : ReadEnd) (msg : MsgBuf) (h4 : 4 ≤ fd.bytes.length)
    (h : ntohl (fd.bytes.take 4) ≤ (fd.bytes.drop 4).length) :
    (TcpPolicy.get fd msg).ok = true ∧ (TcpPolicy.get fd msg).msg.len = ntohl (fd.bytes.take 4) ∧
    (TcpPolicy.get fd msg).msg.data = (fd.bytes.drop 4).take (ntohl (fd.bytes.take 4)) ∧
    (TcpPolicy.get fd msg).stored = ntohl (fd.bytes.take 4) ∧
    (TcpPolicy.get fd msg).rest.bytes = (fd.bytes.drop 4).drop (ntohl (fd.bytes.take 4)) := by
  obtain ⟨h4', hb, hd, hn⟩ := readAll_header fd h4
  obtain ⟨h₀, h₁, h₂⟩ := readAll_enough (readAll fd 4).fd (ntohl (fd.bytes.take 4))
    (by rw [hd]; exact h)
  rw [hd] at h₁ h₂
  have hs : toSize (readAll (readAll fd 4).fd (ntohl (fd.bytes.take 4))).ret =
      ntohl (fd.bytes.take 4) := by
    rw [h₀, toSize_of_nonneg _ (by omega) (by omega)]
    exact Int.toNat_natCast _
  have hlen : ((fd.bytes.drop 4).take (ntohl (fd.bytes.take 4))).length =
      ntohl (fd.bytes.take 4) := by
    rw [List.length_take, Nat.min_eq_left h]
  have hdata := store_data_exact msg ((fd.bytes.drop 4).take (ntohl (fd.bytes.take 4)))
  rw [hlen] at hdata
  simp only [TcpPolicy.get, h4', hb, hs, h₁, ne_eq, not_true_eq_false, ↓reduceIte]
  exact ⟨trivial, trivial, hdata, hlen, h₂⟩

theorem get_of_decode (fd : ReadEnd) (msg : MsgBuf) (m : Msg) (rest : List UInt8)
    (h : decode fd.bytes = some (m, rest)) :
    (TcpPolicy.get fd msg).ok = true ∧ (TcpPolicy.get fd msg).msg.data = m ∧
    (TcpPolicy.get fd msg).rest.bytes = rest := by
  simp only [decode] at h
  split at h
  next hc =>
    obtain ⟨h₁, h₂, h₃, -, h₄⟩ := get_whole fd msg hc.1 hc.2
    cases h
    exact ⟨h₁, h₃, h₄⟩
  next => cases h

theorem get_of_decode_none (fd : ReadEnd) (msg : MsgBuf) (h : decode fd.bytes = none) :
    (TcpPolicy.get fd msg).ok = false ∧ (TcpPolicy.get fd msg).msg.len = 0 := by
  by_cases h4 : 4 ≤ fd.bytes.length
  · have hb : (fd.bytes.drop 4).length < ntohl (fd.bytes.take 4) := by
      by_contra hc
      rw [decode, if_pos ⟨h4, Nat.not_lt.mp hc⟩] at h
      cases h
    obtain ⟨h₁, h₂, -⟩ := get_short_body fd msg h4 hb
    exact ⟨h₁, h₂⟩
  · obtain ⟨h₁, h₂, -⟩ := get_short_header fd msg (by omega)
    exact ⟨h₁, h₂⟩

def received (n : ℕ) (fd : ReadEnd) (msg : MsgBuf) : List Msg :=
  (gets TcpPolicy.get n fd msg).map MsgBuf.data

theorem received_eq (n : ℕ) (fd : ReadEnd) (msg : MsgBuf) :
    received n fd msg = decodeN decode n fd.bytes := by
  refine gets_data TcpPolicy.get decode ReadEnd.bytes (fun _ => True) ?_ ?_ n fd msg trivial
  · exact fun fd msg h => (get_of_decode_none fd msg h).1
  · intro fd msg m rest _ h
    obtain ⟨h₁, h₂, h₃⟩ := get_of_decode fd msg m rest h
    exact ⟨h₁, h₂, trivial, h₃⟩

/-- What is on the connection before each of the next frames, up to one that is cut short. -/
def fronts : ℕ → List UInt8 → List (List UInt8)
  | 0, _ => []
  | n + 1, bytes =>
    bytes ::
      match decode bytes with
      | some (_, rest) => fronts n rest
      | none => []

/-- A header that has arrived declares a message, and one that fits or is cut short before the
array is full. -/
def HeaderOk (bytes : List UInt8) : Prop :=
  4 ≤ bytes.length →
    0 < ntohl (bytes.take 4) ∧
    (ntohl (bytes.take 4) ≤ maxMsgSize ∨ (bytes.drop 4).length ≤ maxMsgSize)

theorem headers_ok_iff (n : ℕ) (fd : ReadEnd) (msg : MsgBuf) :
    ((∀ m ∈ gets TcpPolicy.get n fd msg, 0 < m.len ∧ m.len ≤ maxMsgSize) ∧
      ∀ k ∈ stores TcpPolicy.get n fd msg, k ≤ maxMsgSize) ↔
      ∀ front ∈ fronts n fd.bytes, HeaderOk front := by
  induction n generalizing fd msg with
  | zero => simp [gets, stores, fronts]
  | succ n ih =>
    by_cases h4 : 4 ≤ fd.bytes.length
    · by_cases hw : ntohl (fd.bytes.take 4) ≤ (fd.bytes.drop 4).length
      · obtain ⟨hok, hlen, -, hstored, hrest⟩ := get_whole fd msg h4 hw
        have hdec : decode fd.bytes = some ((fd.bytes.drop 4).take (ntohl (fd.bytes.take 4)),
            (fd.bytes.drop 4).drop (ntohl (fd.bytes.take 4))) := if_pos ⟨h4, hw⟩
        simp only [gets, stores, fronts, hok, hlen, hstored, hdec, ↓reduceIte, List.forall_mem_cons,
          ← hrest]
        rw [← ih _ (TcpPolicy.get fd msg).msg]
        simp only [HeaderOk, h4, forall_const]
        constructor
        · rintro ⟨⟨⟨hpos, hle⟩, hgets⟩, -, hstores⟩
          exact ⟨⟨hpos, .inl hle⟩, hgets, hstores⟩
        · rintro ⟨⟨hpos, hle⟩, hgets, hstores⟩
          have hle' : ntohl (fd.bytes.take 4) ≤ maxMsgSize := by omega
          exact ⟨⟨⟨hpos, hle'⟩, hgets⟩, hle', hstores⟩
      · obtain ⟨hok, -, hstored⟩ := get_short_body fd msg h4 (by omega)
        have hdec : decode fd.bytes = none := if_neg fun h => hw h.2
        simp only [gets, stores, fronts, HeaderOk, hok, hstored, hdec, Bool.false_eq_true, ↓reduceIte,
          List.mem_singleton, forall_eq, List.not_mem_nil, false_implies, implies_true, true_and, h4,
          forall_const]
        omega
    · obtain ⟨hok, -, hstored⟩ := get_short_header fd msg (by omega)
      have hdec : decode fd.bytes = none := if_neg fun h => h4 h.1
      simp [gets, stores, fronts, HeaderOk, hok, hstored, hdec, h4]

theorem decode_frame (m : Msg) (rest : List UInt8) (h : m.length < 2 ^ 32) :
    decode (frame m ++ rest) = some (m, rest) := by
  have ht : (frame m ++ rest).take 4 = htonl m.length := by
    rw [frame, List.append_assoc, List.take_append_of_le_length (by simp)]
    rfl
  have hd : (frame m ++ rest).drop 4 = m ++ rest := by
    rw [frame, List.append_assoc]
    exact List.drop_left' (htonl_length _)
  unfold decode
  simp only
  rw [ht, ntohl_htonl _ h, hd, if_pos]
  · simp
  · simp only [List.length_append, frame_length]
    omega

theorem decode_cut (m : Msg) (cut : List UInt8) (h : m.length < 2 ^ 32) (hp : cut <+: frame m)
    (hne : cut ≠ frame m) : decode cut = none := by
  have hlt : cut.length < 4 + m.length := by
    rw [← frame_length]
    exact Nat.lt_of_not_le (fun hle => hne (hp.eq_of_length_le hle))
  unfold decode
  apply if_neg
  rintro ⟨h4, hn⟩
  have ht : cut.take 4 = htonl m.length := by
    obtain ⟨t, ht⟩ := hp
    have := congrArg (List.take 4) ht
    rw [List.take_append_of_le_length h4] at this
    rw [this, frame]
    rfl
  rw [ht, ntohl_htonl _ h, List.length_drop] at hn
  omega

def codec : Codec Msg UInt8 where
  valid m := m.length < 2 ^ 32
  enc := frame
  dec := decode
  dec_enc m rest h := decode_frame m rest h

theorem codec_strict : codec.Strict :=
  fun m cut h hp hne => decode_cut m cut h hp hne

theorem offered_front (m : Msg) (k : ℕ) : offered m k <+: (frame m).drop k := by
  unfold offered frame
  split_ifs with hk
  · rw [List.drop_append_of_le_length (by simp; omega)]
    exact List.prefix_append _ _
  · have hd : (htonl m.length).drop k = [] := List.drop_of_length_le (by simp; omega)
    rw [List.drop_append, hd]
    exact List.prefix_rfl

theorem take_offered (m : Msg) (k n : ℕ) (hk : k ≤ (frame m).length) :
    k + ((offered m k).take n).length ≤ (frame m).length ∧
    (frame m).take k ++ (offered m k).take n =
      (frame m).take (k + ((offered m k).take n).length) := by
  have hp := (List.take_prefix n (offered m k)).trans (offered_front m k)
  constructor
  · have hle := hp.length_le
    rw [List.length_drop] at hle
    omega
  · rw [List.take_add, ← List.prefix_iff_eq_take.mp hp]

theorem offered_rest (m : Msg) (k n : ℕ) :
    (offered m k).take n ++ (frame m).drop (k + ((offered m k).take n).length) =
      (frame m).drop k := by
  have hp := (List.take_prefix n (offered m k)).trans (offered_front m k)
  rw [← List.drop_drop]
  exact List.prefix_iff_eq_append.mp hp

theorem writeLoop_sent (buf : List UInt8) (broken : Bool) (results : List (Option ℕ))
    (k : ℕ) (sent : List UInt8) (hk : k ≤ buf.length) :
    ∃ t, (writeLoop buf broken results k sent).2.sent = sent ++ t ∧ t <+: buf.drop k ∧
      ((writeLoop buf broken results k sent).1 = true ↔ t = buf.drop k) := by
  induction results generalizing k sent with
  | nil =>
    unfold writeLoop
    by_cases hlt : k < buf.length
    · cases broken with
      | false => exact ⟨buf.drop k, by simp [hlt], List.prefix_refl _, by simp [hlt]⟩
      | true =>
        refine ⟨[], by simp [hlt], List.nil_prefix, ?_⟩
        simp only [hlt, ↓reduceIte, Bool.false_eq_true, false_iff]
        intro h
        have := congrArg List.length h
        simp at this
        omega
    · have hd : buf.drop k = [] := List.drop_of_length_le (by omega)
      exact ⟨[], by simp [hlt], List.nil_prefix, by simp [hlt, hd]⟩
  | cons r results ih =>
    unfold writeLoop
    by_cases hlt : k < buf.length
    · have hpos : (buf.drop k) ≠ [] := by
        intro h
        have := congrArg List.length h
        simp at this
        omega
      cases r with
      | none =>
        refine ⟨[], by simp [hlt], List.nil_prefix, ?_⟩
        simp only [hlt, ↓reduceIte, Bool.false_eq_true, false_iff]
        exact fun h => hpos h.symm
      | some n =>
        simp only [hlt, ↓reduceIte]
        obtain ⟨t, h₁, h₂, h₃⟩ := ih (k + min n (buf.length - k))
          (sent ++ (buf.drop k).take (min n (buf.length - k))) (by omega)
        have hsplit : (buf.drop k).take (min n (buf.length - k)) ++
            buf.drop (k + min n (buf.length - k)) = buf.drop k := by
          rw [← List.drop_drop, List.take_append_drop]
        generalize (buf.drop k).take (min n (buf.length - k)) = head at *
        refine ⟨head ++ t, by rw [h₁, List.append_assoc], ?_, ?_⟩
        · rw [← hsplit]
          exact (List.prefix_append_right_inj head).mpr h₂
        · rw [h₃, ← hsplit, List.append_cancel_left_eq]
    · have hd : buf.drop k = [] := List.drop_of_length_le (by omega)
      exact ⟨[], by simp [hlt], List.nil_prefix, by simp [hlt, hd]⟩

theorem writeAll_sent (fd : WriteEnd) (buf : List UInt8) :
    ∃ t, (writeAll fd buf).2.sent = fd.sent ++ t ∧ t <+: buf ∧
      ((writeAll fd buf).1 = true ↔ t = buf) := by
  simpa [writeAll] using
    writeLoop_sent buf fd.broken fd.results 0 fd.sent (Nat.zero_le _)

/-- `Put` returns true exactly when the whole frame went out, and otherwise has
sent a proper part of it, at whatever byte `write` failed. -/
theorem put_sent (fd : WriteEnd) (msg : MsgBuf) :
    ∃ t, (TcpPolicy.put fd msg).2.sent = fd.sent ++ t ∧ t <+: frame msg.data ∧
      ((TcpPolicy.put fd msg).1 = true ↔ t = frame msg.data ∧ msg.len ≠ 0) := by
  unfold TcpPolicy.put
  by_cases hl : msg.len = 0
  · exact ⟨[], by simp [hl], List.nil_prefix, by simp [hl]⟩
  · obtain ⟨t, h₁, h₂, h₃⟩ := writeAll_sent fd (htonl msg.len)
    rw [if_neg hl, frame, data_length]
    cases hok : (writeAll fd (htonl msg.len)).1 with
    | false =>
      have hne : t ≠ htonl msg.len := by
        rw [ne_eq, ← h₃, hok]
        exact Bool.false_ne_true
      have hlt : t.length < (htonl msg.len).length :=
        Nat.lt_of_not_le (fun hle => hne (h₂.eq_of_length_le hle))
      refine ⟨t, by simp [hok, h₁], h₂.trans (List.prefix_append _ _), ?_⟩
      simp only [hok, Bool.false_eq_true, ↓reduceIte, false_iff]
      rintro ⟨h, -⟩
      have := congrArg List.length h
      simp only [List.length_append] at this
      omega
    | true =>
      obtain ⟨u, g₁, g₂, g₃⟩ := writeAll_sent (writeAll fd (htonl msg.len)).2 msg.data
      have ht : t = htonl msg.len := h₃.mp hok
      refine ⟨t ++ u, by simp [hok, g₁, h₁], ?_, ?_⟩
      · rw [ht]
        exact (List.prefix_append_right_inj _).mpr g₂
      · simp only [hok, ↓reduceIte]
        rw [g₃, ht, List.append_cancel_left_eq]
        exact ⟨fun h => ⟨h, hl⟩, And.left⟩

def Working (fd : WriteEnd) : Prop := none ∉ fd.results ∧ fd.broken = false

theorem writeLoop_working (buf : List UInt8) (results : List (Option ℕ)) (k : ℕ)
    (sent : List UInt8) (h : none ∉ results) :
    (writeLoop buf false results k sent).1 = true ∧
      Working (writeLoop buf false results k sent).2 := by
  induction results generalizing k sent with
  | nil =>
    unfold writeLoop
    by_cases hlt : k < buf.length <;> simp [hlt, Working]
  | cons r results ih =>
    unfold writeLoop
    cases r with
    | none => simp at h
    | some n =>
      by_cases hlt : k < buf.length
      · simp only [hlt, ↓reduceIte]
        exact ih _ _ (fun hm => h (List.mem_cons_of_mem _ hm))
      · simpa [hlt, Working] using h

theorem writeAll_working (fd : WriteEnd) (buf : List UInt8) (h : Working fd) :
    (writeAll fd buf).1 = true ∧ Working (writeAll fd buf).2 := by
  have hw := writeLoop_working buf fd.results 0 fd.sent h.1
  rwa [← h.2] at hw

theorem put_working (fd : WriteEnd) (msg : MsgBuf) (h : Working fd) (hl : msg.len ≠ 0) :
    (TcpPolicy.put fd msg).1 = true := by
  obtain ⟨h₁, h₂⟩ := writeAll_working fd (htonl msg.len) h
  simp only [TcpPolicy.put, hl, ↓reduceIte, h₁]
  exact (writeAll_working _ msg.data h₂).1

end Wissbi.TcpFraming
