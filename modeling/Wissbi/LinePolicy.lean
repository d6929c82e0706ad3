import Wissbi.Framing
import Wissbi.Streams

set_option autoImplicit false

namespace Wissbi.LinePolicy
open Buffers Framing Streams

def get (s : IStream) (msg : MsgBuf) : GetResult IStream :=
  let r := getline s maxMsgSize
  let msg' := msg.store r.1
  if r.2.failbit then ⟨false, { msg' with len := 0 }, r.1.length, r.2⟩
  else ⟨true, { msg' with len := r.2.gcount - if r.2.eofbit then 0 else 1 }, r.1.length, r.2⟩

def put (out : List UInt8) (msg : MsgBuf) : Bool × List UInt8 :=
  if msg.len = 0 then (false, out) else (true, out ++ msg.data ++ [newline])

def head (bytes : List UInt8) : Msg := bytes.takeWhile (· != newline)
def tail (bytes : List UInt8) : List UInt8 := bytes.dropWhile (· != newline)

/-- One line off the front of the input; a line that does not fit stops it. -/
def decode (bytes : List UInt8) : Option (Msg × List UInt8) :=
  if bytes = [] ∨ maxMsgSize - 1 < (head bytes).length then none
  else some (head bytes, (tail bytes).tail)

/-- The streams that successful calls leave behind. -/
def Clean (s : IStream) : Prop := s.failbit = false ∧ (s.eofbit = true → s.data = [])

theorem clean_ofBytes (bytes : List UInt8) : Clean (IStream.ofBytes bytes) :=
  ⟨rfl, fun h => Bool.noConfusion h⟩

theorem getlineLoop_fits (n gc : ℕ) (bytes : List UInt8)
    (h : gc + (head bytes).length ≤ n - 1) :
    getlineLoop n gc bytes = ⟨head bytes,
      gc + (head bytes).length + (if tail bytes = [] then 0 else 1), (tail bytes).tail,
      (tail bytes).isEmpty, false⟩ := by
  induction bytes generalizing gc with
  | nil => simp [getlineLoop, head, tail]
  | cons c cs ih =>
    by_cases hc : c = newline
    · simp [getlineLoop, head, tail, hc]
    · have hh : head (c :: cs) = c :: head cs := by simp [head, hc]
      have ht : tail (c :: cs) = tail cs := by simp [tail, hc]
      rw [hh, List.length_cons] at h
      rw [getlineLoop, if_neg hc, if_neg (by omega), ih (gc + 1) (by omega), hh, ht]
      simp only [List.length_cons, Extracted.mk.injEq, true_and, and_true]
      omega

/-- A line that does not fit: the array is filled, and what is left starts with the byte for
which there was no room. -/
theorem getlineLoop_full (n gc : ℕ) (bytes : List UInt8) (hg : gc ≤ n - 1)
    (h : n - 1 < gc + (head bytes).length) :
    getlineLoop n gc bytes =
      ⟨bytes.take (n - 1 - gc), n - 1, bytes.drop (n - 1 - gc), false, true⟩ := by
  induction bytes generalizing gc with
  | nil =>
    simp only [head, List.takeWhile_nil, List.length_nil] at h
    omega
  | cons c cs ih =>
    by_cases hc : c = newline
    · simp only [head, hc, List.takeWhile_cons, bne_self_eq_false, Bool.false_eq_true,
        ↓reduceIte, List.length_nil] at h
      omega
    · have hh : head (c :: cs) = c :: head cs := by simp [head, hc]
      rw [hh, List.length_cons] at h
      rw [getlineLoop, if_neg hc]
      by_cases hfull : n - 1 ≤ gc
      · have hroom : n - 1 - gc = 0 := by omega
        rw [if_pos hfull, hroom, Nat.le_antisymm hg hfull]
        rfl
      · have hroom : n - 1 - gc = n - 1 - (gc + 1) + 1 := by omega
        rw [if_neg hfull, ih (gc + 1) (by omega) (by omega), hroom]
        rfl

theorem head_length_le (bytes : List UInt8) : (head bytes).length ≤ bytes.length :=
  (List.takeWhile_prefix _).length_le

theorem head_tail (bytes : List UInt8) : head bytes ++ tail bytes = bytes :=
  List.takeWhile_append_dropWhile ..

theorem get_of_decode (s : IStream) (msg : MsgBuf) (m : Msg) (rest : List UInt8)
    (hs : Clean s) (h : decode s.data = some (m, rest)) :
    (LinePolicy.get s msg).ok = true ∧ (LinePolicy.get s msg).msg.data = m ∧
    Clean (LinePolicy.get s msg).rest ∧ (LinePolicy.get s msg).rest.data = rest := by
  unfold decode at h
  split at h
  next => cases h
  next hc =>
    rw [not_or] at hc
    cases h
    have hgood : s.good = true := by
      have he : s.eofbit = false := by
        cases heof : s.eofbit with
        | false => rfl
        | true => exact absurd (hs.2 heof) hc.1
      simp [IStream.good, he, hs.1]
    have hl := getlineLoop_fits maxMsgSize 0 s.data (by omega)
    have hpos : 0 < (head s.data).length + (if tail s.data = [] then 0 else 1) := by
      by_cases ht : tail s.data = []
      · have := head_tail s.data
        rw [ht, List.append_nil] at this
        rw [this]
        have := List.length_pos_of_ne_nil hc.1
        omega
      · simp [ht]
    have hline : getline s maxMsgSize = (head s.data ++ [0], ⟨(tail s.data).tail,
        (tail s.data).isEmpty, false,
        (head s.data).length + (if tail s.data = [] then 0 else 1)⟩) := by
      simp only [getline, hgood, ↓reduceIte, hl, Nat.zero_add, Bool.false_or]
      rw [beq_false_of_ne (by omega)]
    have hlen : ((head s.data).length + (if tail s.data = [] then 0 else 1)) -
        (if (tail s.data).isEmpty = true then 0 else 1) = (head s.data).length := by
      by_cases ht : tail s.data = [] <;> simp [ht]
    have hdata := store_data msg (head s.data) [0]
    simp only [LinePolicy.get, hline, Bool.false_eq_true, ↓reduceIte, hlen]
    refine ⟨trivial, hdata, ⟨rfl, ?_⟩, trivial⟩
    intro he
    rw [List.isEmpty_iff.mp he, List.tail_nil]

theorem get_of_decode_none (s : IStream) (msg : MsgBuf) (h : decode s.data = none) :
    (LinePolicy.get s msg).ok = false ∧ (LinePolicy.get s msg).msg.len = 0 := by
  have hfail : (getline s maxMsgSize).2.failbit = true := by
    by_cases hgood : s.good = true
    · simp only [getline, hgood, ↓reduceIte]
      by_cases hlong : maxMsgSize - 1 < (head s.data).length
      · rw [getlineLoop_full maxMsgSize 0 s.data (Nat.zero_le _) (by omega)]
        rfl
      · have he : s.data = [] := by
          by_contra hne
          rw [decode, if_neg (not_or.mpr ⟨hne, hlong⟩)] at h
          cases h
        rw [he]
        rfl
    · simp [getline, hgood]
  simp [LinePolicy.get, hfail]

def enc (m : Msg) : List UInt8 := m ++ [newline]

theorem put_data (out : List UInt8) (msg : MsgBuf) (h : msg.len ≠ 0) :
    LinePolicy.put out msg = (true, out ++ enc msg.data) := by
  simp [LinePolicy.put, h, enc]

def lines : List UInt8 → List Msg
  | [] => []
  | c :: cs =>
    if c = newline then [] :: lines cs
    else match lines cs with
      | [] => [[c]]
      | l :: ls => (c :: l) :: ls

theorem lines_cons (bytes : List UInt8) (h : bytes ≠ []) :
    lines bytes = head bytes :: lines (tail bytes).tail := by
  induction bytes with
  | nil => exact absurd rfl h
  | cons c cs ih =>
    by_cases hc : c = newline
    · simp [lines, head, tail, hc]
    · have hh : head (c :: cs) = c :: head cs := by simp [head, hc]
      have ht : tail (c :: cs) = tail cs := by simp [tail, hc]
      rw [lines, if_neg hc, hh, ht]
      by_cases hcs : cs = []
      · subst hcs
        rfl
      · rw [ih hcs]

theorem decode_lines (bytes : List UInt8) (m : Msg) (rest : List UInt8)
    (h : decode bytes = some (m, rest)) :
    lines bytes = m :: lines rest ∧ m.length ≤ maxMsgSize - 1 := by
  unfold decode at h
  split at h
  next => cases h
  next hc =>
    rw [not_or] at hc
    cases h
    exact ⟨lines_cons bytes hc.1, Nat.not_lt.mp hc.2⟩

theorem decode_none_lines (bytes : List UInt8) (h : decode bytes = none) :
    lines bytes = [] ∨ ∃ l ls, lines bytes = l :: ls ∧ maxMsgSize - 1 < l.length := by
  by_cases hb : bytes = []
  · exact .inl (by rw [hb]; rfl)
  · refine .inr ⟨_, _, lines_cons bytes hb, ?_⟩
    by_contra hl
    rw [decode, if_neg (not_or.mpr ⟨hb, hl⟩)] at h
    cases h

theorem decodeN_lines (n : ℕ) (bytes : List UInt8) :
    decodeN decode n bytes =
      ((lines bytes).takeWhile fun l => l.length ≤ maxMsgSize - 1).take n := by
  induction n generalizing bytes with
  | zero => rfl
  | succ n ih =>
    cases h : decode bytes with
    | none =>
      rw [decodeN_none _ _ _ h]
      rcases decode_none_lines bytes h with he | ⟨l, ls, he, hl⟩
      · simp [he]
      · rw [he, List.takeWhile_cons_of_neg (by simpa using hl)]
        rfl
    | some p =>
      obtain ⟨he, hl⟩ := decode_lines bytes p.1 p.2 h
      rw [he, List.takeWhile_cons_of_pos (by simpa using hl)]
      simp only [decodeN, h, ih, List.take_succ_cons]

theorem gets_lines (n : ℕ) (s : IStream) (msg : MsgBuf) (hs : Clean s) :
    (gets LinePolicy.get n s msg).map MsgBuf.data =
      ((lines s.data).takeWhile fun l => l.length ≤ maxMsgSize - 1).take n := by
  rw [← decodeN_lines]
  exact gets_data LinePolicy.get decode IStream.data Clean
    (fun s msg h => (get_of_decode_none s msg h).1) get_of_decode n s msg hs

end Wissbi.LinePolicy
