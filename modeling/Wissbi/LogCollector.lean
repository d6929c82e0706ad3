import Wissbi.LineFormat
import Wissbi.TcpFraming

set_option autoImplicit false

namespace Wissbi.LogCollector
open Buffers LineFormat LinePolicy Streams TcpFraming TcpPolicy

def backslash : UInt8 := 92

def width : ℕ := 4000

/-- A character that `.` matches: one or more bytes, as the locale has it. -/
structure Character where
  bytes : List UInt8
  ne_nil : bytes ≠ []
  no_newline : newline ∉ bytes

def encode (line : List Character) : List UInt8 := line.flatMap Character.bytes

def substitute (line : List Character) : List UInt8 :=
  if width ≤ line.length then
    encode (line.take width) ++ [backslash, newline] ++ substitute (line.drop width)
  else encode line
termination_by line.length
decreasing_by
  simp only [List.length_drop, width] at *
  omega

def sed (line : List Character) : List UInt8 := substitute line ++ [newline]

def pieces (line : List Character) : List Msg :=
  if width ≤ line.length then
    (encode (line.take width) ++ [backslash]) :: pieces (line.drop width)
  else [encode line]
termination_by line.length
decreasing_by
  simp only [List.length_drop, width] at *
  omega

def rejoin : List Msg → List UInt8
  | [] => []
  | [l] => l
  | l :: ls => l.dropLast ++ rejoin ls

/-- Every line that comes out is one that `Line::Get` returns and that the producer's `Put`
takes. -/
def Publishable (line : List Character) : Prop :=
  (∀ l ∈ lines (sed line), l ≠ [] ∧ l.length ≤ maxMsgSize - 1) ∧
  ∀ buf,
    let msgs := gets LinePolicy.get (lines (sed line)).length (IStream.ofBytes (sed line)) buf
    msgs.map MsgBuf.data = lines (sed line) ∧
    ∀ fd, Working fd → ∀ msg ∈ msgs, (TcpPolicy.put fd msg).1 = true

def Rejoins (line : List Character) : Prop :=
  (∀ l ∈ (lines (sed line)).dropLast, l.getLast? = some backslash) ∧
  rejoin (lines (sed line)) = encode line

/-- The last piece has a character, every other one has room for the backslash, and the last
one fits too. -/
structure Fits (line : List Character) : Prop where
  rest : ¬ width ∣ line.length
  full : ∀ k, width * (k + 1) ≤ line.length →
    (encode ((line.drop (width * k)).take width)).length ≤ maxMsgSize - 2
  last : (encode (line.drop (width * (line.length / width)))).length ≤ maxMsgSize - 1

theorem newline_not_mem_encode (line : List Character) : newline ∉ encode line := by
  unfold encode
  rw [List.mem_flatMap]
  rintro ⟨c, -, hc⟩
  exact c.no_newline hc

theorem encode_eq_nil {line : List Character} : encode line = [] ↔ line = [] := by
  cases line with
  | nil => simp [encode]
  | cons c line => simp [encode, c.ne_nil]

theorem lines_enc (l : Msg) (rest : List UInt8) (h : newline ∉ l) :
    lines (l ++ newline :: rest) = l :: lines rest := by
  have hall : ∀ c ∈ l, (c != newline) = true := fun c hc => bne_iff_ne.mpr fun he => h (he ▸ hc)
  rw [lines_cons _ (by simp)]
  unfold head tail
  rw [List.takeWhile_append_of_pos hall, List.dropWhile_append_of_pos hall]
  simp

theorem lines_sed (line : List Character) : lines (sed line) = pieces line := by
  unfold sed
  fun_induction pieces line with
  | case1 line hw ih =>
    have hno : newline ∉ encode (line.take width) ++ [backslash] := by
      simpa [newline_not_mem_encode] using (by decide : newline ≠ backslash)
    rw [substitute, if_pos hw, ← ih, ← lines_enc _ _ hno]
    simp
  | case2 line hw =>
    rw [substitute, if_neg hw]
    exact lines_enc _ [] (newline_not_mem_encode line)

theorem rejoins (line : List Character) : Rejoins line := by
  unfold Rejoins
  rw [lines_sed]
  fun_induction pieces line with
  | case1 line hw ih =>
    obtain ⟨l, ls, hls⟩ : ∃ l ls, pieces (line.drop width) = l :: ls := by
      unfold pieces
      split_ifs
      · exact ⟨_, _, rfl⟩
      · exact ⟨_, _, rfl⟩
    rw [hls] at ih ⊢
    refine ⟨?_, ?_⟩
    · rw [List.dropLast_cons_of_ne_nil (List.cons_ne_nil _ _), List.forall_mem_cons]
      exact ⟨by simp, ih.1⟩
    · change (encode (line.take width) ++ [backslash]).dropLast ++ rejoin (l :: ls) = _
      rw [ih.2, List.dropLast_concat]
      unfold encode
      rw [← List.flatMap_append, List.take_append_drop]
  | case2 line hw => simp [rejoin]

theorem fits_drop {line : List Character} (hw : width ≤ line.length) :
    Fits line ↔
      (encode (line.take width)).length ≤ maxMsgSize - 2 ∧ Fits (line.drop width) := by
  have hlen : (line.drop width).length = line.length - width := List.length_drop
  have hdiv : line.length / width = (line.length - width) / width + 1 :=
    Nat.div_eq_sub_div (by decide) hw
  have hlast : (line.drop width).drop (width * ((line.drop width).length / width)) =
      line.drop (width * (line.length / width)) := by
    rw [List.drop_drop, hlen, hdiv, Nat.mul_succ, Nat.add_comm]
  have hdvd : width ∣ (line.drop width).length ↔ width ∣ line.length := by
    rw [hlen, ← Nat.dvd_add_self_right, Nat.sub_add_cancel hw]
  have hblock (k : ℕ) : (line.drop width).drop (width * k) = line.drop (width * (k + 1)) := by
    rw [List.drop_drop, Nat.mul_succ, Nat.add_comm]
  constructor
  · intro h
    refine ⟨by simpa using h.full 0 (by omega), mt hdvd.mp h.rest, fun k hk => ?_, ?_⟩
    · rw [hblock]
      exact h.full (k + 1) (by rw [hlen] at hk; rw [Nat.mul_succ]; omega)
    · rw [hlast]
      exact h.last
  · rintro ⟨hfirst, h⟩
    refine ⟨mt hdvd.mpr h.rest, fun k hk => ?_, ?_⟩
    · cases k with
      | zero => simpa using hfirst
      | succ k =>
        rw [← hblock]
        exact h.full k (by rw [hlen]; rw [Nat.mul_succ] at hk; omega)
    · rw [← hlast]
      exact h.last

theorem pieces_fit_iff (line : List Character) :
    (∀ l ∈ pieces line, l ≠ [] ∧ l.length ≤ maxMsgSize - 1) ↔ Fits line := by
  fun_induction pieces line with
  | case1 line hw ih =>
    rw [List.forall_mem_cons, fits_drop hw, ih]
    refine and_congr_left fun _ => ?_
    simp only [ne_eq, List.append_eq_nil_iff, List.cons_ne_self, and_false, not_false_eq_true,
      List.length_append, List.length_singleton, true_and, maxMsgSize]
    omega
  | case2 line hw =>
    have hlt : line.length < width := Nat.not_le.mp hw
    have hdiv : line.length / width = 0 := Nat.div_eq_of_lt hlt
    have hnil : width ∣ line.length ↔ line = [] := by
      rw [← List.length_eq_zero_iff]
      exact ⟨fun h => Nat.eq_zero_of_dvd_of_lt h hlt, fun h => h ▸ Nat.dvd_zero _⟩
    rw [List.forall_mem_singleton, ne_eq, encode_eq_nil, ← hnil]
    constructor
    · rintro ⟨hne, hle⟩
      refine ⟨hne, fun k hk => ?_, by rw [hdiv]; exact hle⟩
      exact absurd (Nat.le_trans (Nat.le_mul_of_pos_right width k.succ_pos) hk) hw
    · intro h
      have hle := h.last
      rw [hdiv] at hle
      exact ⟨h.rest, hle⟩

/-- The lines that come out can all be published exactly when the last piece is not empty
and every piece fits in bytes; nothing is lost in any case. -/
theorem publishable_iff (line : List Character) :
    (Publishable line ↔ Fits line) ∧ Rejoins line := by
  refine ⟨⟨fun h => ?_, fun h => ?_⟩, rejoins line⟩
  · rw [← pieces_fit_iff, ← lines_sed]
    exact h.1
  · rw [← pieces_fit_iff, ← lines_sed] at h
    refine ⟨h, fun buf => ?_⟩
    have hdata := gets_fitting (sed line) buf fun l hl => (h l hl).2
    refine ⟨hdata, fun fd hfd msg hmsg => put_working fd msg hfd fun hz => ?_⟩
    have hmem : msg.data ∈ lines (sed line) := hdata ▸ List.mem_map_of_mem hmsg
    exact (h _ hmem).1 ((data_eq_nil msg).mpr hz)

theorem exact_line_unpublishable :
    ¬ Publishable (List.replicate 4000 ⟨[97], by decide, by decide⟩) := by
  intro h
  have hfits : Fits _ := (pieces_fit_iff _).mp (lines_sed _ ▸ h.1)
  exact hfits.rest (by rw [List.length_replicate]; decide)

end Wissbi.LogCollector
