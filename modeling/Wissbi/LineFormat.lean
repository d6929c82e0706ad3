import Mathlib.Data.List.TakeWhile
import Wissbi.LinePolicy
import Wissbi.MsgFilter

set_option autoImplicit false

namespace Wissbi.LineFormat
open Buffers Framing LinePolicy MsgFilter Streams

theorem lines_eq_nil {bytes : List UInt8} (h : lines bytes = []) : bytes = [] := by
  by_contra hb
  rw [lines_cons bytes hb] at h
  cases h

theorem reads_lines (ls : List Msg) (bytes : List UInt8) (h : lines bytes = ls)
    (hfit : ∀ l ∈ ls, l.length ≤ maxMsgSize - 1) :
    Reads (fun bytes m rest => decode bytes = some (m, rest)) bytes ls [] := by
  induction ls generalizing bytes with
  | nil => exact lines_eq_nil h
  | cons l ls ih =>
    have hb : bytes ≠ [] := by
      rintro rfl
      cases h
    rw [lines_cons bytes hb, List.cons.injEq] at h
    have hl := hfit l (by simp)
    rw [← h.1] at hl
    refine ⟨(tail bytes).tail, ?_, ih _ h.2 fun x hx => hfit x (by simp [hx])⟩
    change decode bytes = _
    rw [decode, if_neg (not_or.mpr ⟨hb, Nat.not_lt.mpr hl⟩), h.1]

def missing (bytes : List UInt8) : List UInt8 :=
  if bytes = [] ∨ bytes.getLast? = some newline then [] else [newline]

theorem missing_cons {c : UInt8} {cs : List UInt8} (h : c = newline ∨ cs ≠ []) :
    missing (c :: cs) = missing cs := by
  unfold missing
  cases cs with
  | nil =>
    have hc : c = newline := h.resolve_right fun hne => hne rfl
    simp [hc]
  | cons d ds => simp [List.getLast?_cons_cons]

theorem flatMap_lines (bytes : List UInt8) :
    (lines bytes).flatMap enc = bytes ++ missing bytes := by
  induction bytes with
  | nil => rfl
  | cons c cs ih =>
    by_cases hc : c = newline
    · rw [missing_cons (.inl hc), lines, if_pos hc, List.flatMap_cons, ih, hc]
      rfl
    · rw [lines, if_neg hc]
      cases hl : lines cs with
      | nil =>
        rw [lines_eq_nil hl]
        simp [missing, enc, hc]
      | cons l ls =>
        have hcs : cs ≠ [] := by
          rintro rfl
          cases hl
        rw [hl] at ih
        rw [missing_cons (.inr hcs), List.cons_append, ← ih]
        rfl

theorem gets_fitting (bytes : List UInt8) (buf : MsgBuf)
    (hfit : ∀ l ∈ lines bytes, l.length ≤ maxMsgSize - 1) :
    (gets LinePolicy.get (lines bytes).length (IStream.ofBytes bytes) buf).map MsgBuf.data =
      lines bytes := by
  have hall : ((lines bytes).takeWhile fun l => l.length ≤ maxMsgSize - 1) = lines bytes :=
    List.takeWhile_eq_self_iff.mpr fun l hl => decide_eq_true (hfit l hl)
  rw [gets_lines _ _ _ (clean_ofBytes bytes)]
  change ((lines bytes).takeWhile _).take _ = _
  rw [hall, List.take_length]

/-- Lines that fit are returned one by one, and written back when none of them is empty. -/
theorem line_format (bytes : List UInt8) (buf : MsgBuf)
    (hfit : ∀ l ∈ lines bytes, l.length ≤ maxMsgSize - 1) :
    (calls LinePolicy.get ((lines bytes).length + 1) (IStream.ofBytes bytes) buf).map
        GetResult.seen =
      (lines bytes).map (fun l => (true, l.length, l)) ++ [(false, 0, [])] ∧
    ((∀ l ∈ lines bytes, l ≠ []) →
      puts LinePolicy.put [] (gets LinePolicy.get (lines bytes).length (IStream.ofBytes bytes) buf) =
        ((lines bytes).map fun _ => true, bytes ++ missing bytes)) := by
  refine ⟨?_, fun hne => ?_⟩
  · exact calls_reads LinePolicy.get _ IStream.data Clean get_of_decode
      (fun s msg _ h => get_of_decode_none s msg (by rw [h]; rfl)) (IStream.ofBytes bytes) buf
      (clean_ofBytes bytes) (reads_lines (lines bytes) bytes rfl hfit)
  · have hdata := gets_fitting bytes buf hfit
    obtain ⟨msgs, hmsgs⟩ : ∃ msgs, gets LinePolicy.get (lines bytes).length
      (IStream.ofBytes bytes) buf = msgs := ⟨_, rfl⟩
    rw [hmsgs] at hdata ⊢
    have hlen : ∀ msg ∈ msgs, msg.len ≠ 0 := by
      intro msg hmem hz
      exact hne msg.data (hdata ▸ List.mem_map_of_mem hmem) ((data_eq_nil msg).mpr hz)
    rw [puts_enc LinePolicy.put enc put_data [] msgs hlen, hdata, flatMap_lines, List.nil_append,
      ← hdata, List.map_map]
    rfl

theorem open_line_copied :
    (calls LinePolicy.get 3 (IStream.ofBytes [97, 0, 10, 98, 99]) ⟨0, fun _ => 7, 9⟩).map
        GetResult.seen = [(true, 2, [97, 0]), (true, 2, [98, 99]), (false, 0, [])] ∧
    puts LinePolicy.put []
        (gets LinePolicy.get 2 (IStream.ofBytes [97, 0, 10, 98, 99]) ⟨0, fun _ => 7, 9⟩) =
      ([true, true], [97, 0, 10, 98, 99, 10]) := by
  have h := line_format [97, 0, 10, 98, 99] ⟨0, fun _ => 7, 9⟩ (by decide)
  exact ⟨h.1, h.2 (by decide)⟩

section
variable {τ : Type}

/-- A filter that reads lines. Its function may rewrite a message and takes every one, and so
does its output. -/
def lineFilter (func : τ → MsgBuf → τ × MsgBuf) (out : τ → MsgBuf → τ) : Hooks (IStream × τ) where
  preFilter := always
  get := fun (s, msg) =>
    let r := LinePolicy.get s.1 msg
    (r.ok, (r.rest, s.2), r.msg)
  filterFunc := fun (s, msg) =>
    let r := func s.2 msg
    (true, (s.1, r.1), r.2)
  put := fun (s, msg) => (true, (s.1, out s.2 msg), msg)
  postFilter := defaultPost

variable (func : τ → MsgBuf → τ × MsgBuf) (out : τ → MsgBuf → τ)

theorem filter_turn (s : IStream × τ) (buf : MsgBuf) (l : Msg) (rest : List UInt8)
    (hs : Clean s.1) (hd : decode s.1.data = some (l, rest)) :
    (filter (lineFilter func out) (s, buf)).1 = true ∧
    Clean (filter (lineFilter func out) (s, buf)).2.1.1 ∧
    (filter (lineFilter func out) (s, buf)).2.1.1.data = rest := by
  obtain ⟨h₁, -, h₃, h₄⟩ := get_of_decode s.1 buf l rest hs hd
  simp [filter, andThen, lineFilter, always, defaultPost, h₁, h₃, h₄]

theorem filter_stop (s : IStream × τ) (buf : MsgBuf) (hd : decode s.1.data = none) :
    (filter (lineFilter func out) (s, buf)).1 = false ∧
    (filter (lineFilter func out) (s, buf)).2.1.1 = (getline s.1 maxMsgSize).2 := by
  have hok := (get_of_decode_none s.1 buf hd).1
  have hrest : (LinePolicy.get s.1 buf).rest = (getline s.1 maxMsgSize).2 := by
    unfold LinePolicy.get
    simp only
    split_ifs <;> rfl
  simp [filter, andThen, lineFilter, always, defaultPost, hok, hrest]

theorem getlineLoop_rest (n gc : ℕ) (bytes : List UInt8) (hg : gc ≤ n - 1)
    (h : n - 1 < gc + (head bytes).length) : (getlineLoop n gc bytes).rest ≠ [] := by
  have hle := head_length_le bytes
  rw [getlineLoop_full n gc bytes hg h]
  intro hnil
  rw [List.drop_eq_nil_iff] at hnil
  omega

theorem getline_end (s : IStream) (h : s.data = []) : (getline s maxMsgSize).2.data = [] := by
  unfold getline
  split_ifs
  · simp [h, getlineLoop]
  · exact h

theorem getline_long (s : IStream) (hs : Clean s) (h : maxMsgSize - 1 < (head s.data).length) :
    (getline s maxMsgSize).2.data ≠ [] := by
  have hgood : s.good = true := by
    cases heof : s.eofbit with
    | false => simp [IStream.good, heof, hs.1]
    | true =>
      rw [hs.2 heof] at h
      cases h
  simp only [getline, hgood, ↓reduceIte]
  exact getlineLoop_rest maxMsgSize 0 s.data (Nat.zero_le _) (by omega)

theorem loop_ends (ls : List Msg) (s : IStream × τ) (buf : MsgBuf) (hs : Clean s.1)
    (hl : lines s.1.data = ls) :
    ∃ n t, filterLoop (lineFilter func out) n (s, buf) = some t ∧
      (t.1.1.data = [] ↔ ∀ l ∈ ls, l.length ≤ maxMsgSize - 1) := by
  induction ls generalizing s buf with
  | nil =>
    have hdata := lines_eq_nil hl
    obtain ⟨h₁, h₂⟩ := filter_stop func out s buf (by rw [hdata]; rfl)
    refine ⟨1, (filter (lineFilter func out) (s, buf)).2, by simp [filterLoop, h₁], ?_⟩
    rw [h₂]
    exact iff_of_true (getline_end s.1 hdata) (by simp)
  | cons l ls ih =>
    have hne : s.1.data ≠ [] := by
      intro he
      rw [he] at hl
      cases hl
    have hl' := hl
    rw [lines_cons _ hne, List.cons.injEq] at hl'
    by_cases hlong : maxMsgSize - 1 < (head s.1.data).length
    · obtain ⟨h₁, h₂⟩ := filter_stop func out s buf (by rw [decode, if_pos (.inr hlong)])
      refine ⟨1, (filter (lineFilter func out) (s, buf)).2, by simp [filterLoop, h₁], ?_⟩
      rw [h₂]
      refine iff_of_false (getline_long s.1 hs hlong) fun hall => ?_
      have := hall l (by simp)
      rw [← hl'.1] at this
      omega
    · have hd : decode s.1.data = some (head s.1.data, (tail s.1.data).tail) := by
        rw [decode, if_neg (not_or.mpr ⟨hne, hlong⟩)]
      obtain ⟨hturn, hclean, hdata⟩ := filter_turn func out s buf _ _ hs hd
      obtain ⟨n, u, hu, hiff⟩ := ih _ (filter (lineFilter func out) (s, buf)).2.2 hclean
        (by rw [hdata, hl'.2])
      refine ⟨n + 1, u, by simpa [filterLoop, hturn] using hu, ?_⟩
      rw [hiff, List.forall_mem_cons, ← hl'.1]
      exact (and_iff_right (Nat.not_lt.mp hlong)).symm

/-- A filter loop that reads lines ends, and it ends with all of the input read exactly when
no line is longer than the buffer. -/
theorem loop_reads_all_iff (bytes : List UInt8) (w : τ) (buf : MsgBuf) :
    (∃ n t, filterLoop (lineFilter func out) n ((IStream.ofBytes bytes, w), buf) = some t) ∧
    ((∀ n t, filterLoop (lineFilter func out) n ((IStream.ofBytes bytes, w), buf) = some t →
        t.1.1.data = []) ↔
      ∀ l ∈ lines bytes, l.length ≤ maxMsgSize - 1) := by
  obtain ⟨n, t, ht, hiff⟩ := loop_ends func out (lines bytes) (IStream.ofBytes bytes, w) buf
    (clean_ofBytes bytes) rfl
  refine ⟨⟨n, t, ht⟩, fun h => hiff.mp (h n t ht), fun hfit k u hu => ?_⟩
  rw [filterLoop_unique _ hu ht]
  exact hiff.mpr hfit

end

theorem long_line_ends_loop :
    ¬ ∀ (bytes : List UInt8) (n : ℕ) (t : (IStream × Unit) × MsgBuf),
      filterLoop (lineFilter (fun _ msg => ((), msg)) fun _ _ => ()) n
        ((IStream.ofBytes bytes, ()), ⟨0, fun _ => 0, 0⟩) = some t → t.1.1.data = [] := by
  intro h
  obtain ⟨n, t, ht, hiff⟩ := loop_ends (fun (_ : Unit) msg => ((), msg)) (fun _ _ => ())
    (lines (List.replicate 4096 97 ++ [10, 98, 10])) (IStream.ofBytes _, ()) ⟨0, fun _ => 0, 0⟩
    (clean_ofBytes _) rfl
  have hall := hiff.mp (h _ n t ht)
  have hhead : head (List.replicate 4096 97 ++ [10, 98, 10]) = List.replicate 4096 97 := by
    refine (List.takeWhile_append_of_pos ?_).trans (List.append_nil _)
    intro c hc
    rw [List.eq_of_mem_replicate hc]
    rfl
  rw [lines_cons _ (List.append_ne_nil_of_right_ne_nil _ (List.cons_ne_nil _ _)), hhead] at hall
  have hlong := hall _ List.mem_cons_self
  rw [List.length_replicate] at hlong
  exact absurd hlong (by decide)

end Wissbi.LineFormat
