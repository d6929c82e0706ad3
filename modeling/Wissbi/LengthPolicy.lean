import Mathlib.Data.Nat.Digits.Lemmas
import Wissbi.Framing
import Wissbi.Streams

set_option autoImplicit false

namespace Wissbi.LengthPolicy
open Buffers Framing Streams

def get (s : IStream) (msg : MsgBuf) : GetResult IStream :=
  let header := readInt s
  if !header.2.good then ⟨false, { msg with len := 0 }, 0, header.2⟩
  else
    let body := read (getChar header.2) header.1
    ⟨true, { msg.store body.1 with len := toSize header.1 }, body.1.length, body.2⟩

def decimal (n : ℕ) : List UInt8 :=
  if n = 0 then [48] else (Nat.digits 10 n).reverse.map (fun d => UInt8.ofNat (48 + d))

def put (out : List UInt8) (msg : MsgBuf) : Bool × List UInt8 :=
  if msg.len = 0 then (false, out) else (true, out ++ decimal msg.len ++ [blank] ++ msg.data)

/-- What `Put` adds to the output for one message. -/
def enc (m : Msg) : List UInt8 := decimal m.length ++ [blank] ++ m

theorem put_data (out : List UInt8) (msg : MsgBuf) (h : msg.len ≠ 0) :
    LengthPolicy.put out msg = (true, out ++ enc msg.data) := by
  simp [LengthPolicy.put, h, enc]

theorem digit_byte (d : ℕ) (h : d < 10) :
    (UInt8.ofNat (48 + d)).toNat = 48 + d ∧ isDigit (UInt8.ofNat (48 + d)) = true := by
  have hn : (UInt8.ofNat (48 + d)).toNat = 48 + d := by
    rw [UInt8.toNat_ofNat']
    omega
  refine ⟨hn, ?_⟩
  simp only [isDigit, Bool.and_eq_true, decide_eq_true_eq, UInt8.le_iff_toNat_le, hn]
  constructor
  · exact Nat.le_add_right 48 d
  · change 48 + d ≤ 57
    omega

theorem decimal_isDigit (n : ℕ) (c : UInt8) (h : c ∈ decimal n) : isDigit c = true := by
  unfold decimal at h
  split at h
  next => simp only [List.mem_singleton] at h; subst h; rfl
  next =>
    simp only [List.mem_map, List.mem_reverse] at h
    obtain ⟨d, hd, rfl⟩ := h
    exact (digit_byte d (Nat.digits_lt_base (by omega) hd)).2

theorem decimal_ne_nil (n : ℕ) : decimal n ≠ [] := by
  unfold decimal
  split
  next => simp
  next h => simpa [Nat.digits_eq_nil_iff_eq_zero] using h

theorem foldl_decimal (ds : List ℕ) (h : ∀ d ∈ ds, d < 10) :
    decimalValue (ds.reverse.map (fun d => UInt8.ofNat (48 + d))) = Nat.ofDigits 10 ds := by
  unfold decimalValue
  rw [List.foldl_map, List.foldl_reverse]
  induction ds with
  | nil => rfl
  | cons d ds ih =>
    have hd := (digit_byte d (h d (by simp))).1
    simp only [List.foldr_cons, Nat.ofDigits_cons, hd, ih (fun x hx => h x (by simp [hx]))]
    omega

theorem decimalValue_decimal (n : ℕ) : decimalValue (decimal n) = n := by
  unfold decimal
  split
  next h => rw [h]; rfl
  next =>
    rw [foldl_decimal _ (fun d hd => Nat.digits_lt_base (by omega) hd), Nat.ofDigits_digits]

theorem isDigit_not_special (c : UInt8) (h : isDigit c = true) :
    isSpace c = false ∧ c ≠ plus ∧ c ≠ minus := by
  simp only [isDigit, Bool.and_eq_true, decide_eq_true_eq, UInt8.le_iff_toNat_le] at h
  change 48 ≤ c.toNat ∧ c.toNat ≤ 57 at h
  have hne (d : UInt8) (hd : d.toNat < 48) : c ≠ d := by
    rintro rfl
    omega
  refine ⟨?_, hne plus (by decide), hne minus (by decide)⟩
  simp only [isSpace, Bool.or_eq_false_iff, Bool.and_eq_false_iff, decide_eq_false_iff_not,
    UInt8.le_iff_toNat_le, beq_eq_false_iff_ne]
  refine ⟨hne blank (by decide), Or.inr ?_⟩
  change ¬ c.toNat ≤ 13
  omega

theorem readInt_number (s : IStream) (n : ℕ) (rest : List UInt8) (hs : s.good = true)
    (h : s.data = decimal n ++ rest) (hrest : ∀ c ∈ rest.head?, isDigit c = false)
    (hn : n < 2 ^ 31) :
    readInt s = ((n : ℤ), { s with data := rest, eofbit := rest.isEmpty, failbit := false }) := by
  obtain ⟨c, cs, hc⟩ := List.exists_cons_of_ne_nil (decimal_ne_nil n)
  obtain ⟨hsp, hp, hm⟩ := isDigit_not_special c (decimal_isDigit n c (by simp [hc]))
  have hdrop : s.data.dropWhile isSpace = c :: (cs ++ rest) := by
    rw [h, hc, List.cons_append, List.dropWhile_cons_of_neg (by simp [hsp])]
  have hstop : rest.takeWhile isDigit = [] ∧ rest.dropWhile isDigit = rest := by
    cases rest with
    | nil => exact ⟨rfl, rfl⟩
    | cons d ds =>
      have hd : isDigit d = false := hrest d rfl
      simp [hd]
  have htake : (c :: (cs ++ rest)).takeWhile isDigit = decimal n := by
    rw [← List.cons_append, ← hc, List.takeWhile_append_of_pos (decimal_isDigit n), hstop.1,
      List.append_nil]
  have htail : (c :: (cs ++ rest)).dropWhile isDigit = rest := by
    rw [← List.cons_append, ← hc, List.dropWhile_append_of_pos (decimal_isDigit n), hstop.2]
  have hlo : ¬ (n : ℤ) < -2 ^ 31 := by omega
  have hhi : ¬ (2 ^ 31 - 1 : ℤ) < n := by omega
  simp only [readInt, hs, ↓reduceIte, hdrop, hp, hm, or_self, htake, htail,
    decimalValue_decimal, List.isEmpty_eq_false_iff.mpr (decimal_ne_nil n),
    hlo, hhi, decide_false, Bool.or_self]

theorem readInt_decimal (s : IStream) (n : ℕ) (rest : List UInt8) (hs : s.good = true)
    (h : s.data = decimal n ++ blank :: rest) (hn : n < 2 ^ 31) :
    readInt s = ((n : ℤ), { s with data := blank :: rest, eofbit := false, failbit := false }) := by
  refine readInt_number s n (blank :: rest) hs h ?_ hn
  intro c hc
  cases hc
  rfl

/-- `Get` on a stream that starts with the frame of a message returns that message
and stops at the end of its frame, whatever the buffer held before. -/
theorem get_enc (s : IStream) (msg : MsgBuf) (m : Msg) (rest : List UInt8) (hs : s.good = true)
    (h : s.data = enc m ++ rest) (hm : m.length < 2 ^ 31) :
    (LengthPolicy.get s msg).ok = true ∧ (LengthPolicy.get s msg).msg.data = m ∧
    (LengthPolicy.get s msg).rest.good = true ∧ (LengthPolicy.get s msg).rest.data = rest := by
  have hr := readInt_decimal s m.length (m ++ rest) hs (by simp [h, enc]) hm
  have hsize : toSize (m.length : ℤ) = m.length := by
    rw [toSize_of_nonneg _ (by omega) (by omega)]
    exact Int.toNat_natCast _
  have hdata := store_data_exact msg m
  simp only [LengthPolicy.get, hr, IStream.good, Bool.not_false, Bool.and_self, Bool.not_true,
    Bool.false_eq_true, ↓reduceIte, getChar, Streams.read, Int.toNat_natCast, List.take_left,
    List.drop_left, ne_eq, not_true_eq_false, decide_false, hsize]
  exact ⟨trivial, hdata, trivial, trivial⟩

theorem get_ok (s : IStream) (msg : MsgBuf) :
    (LengthPolicy.get s msg).ok = (readInt s).2.good := by
  unfold LengthPolicy.get
  cases h : (readInt s).2.good <;> simp [h]

theorem good_of_failbit (s : IStream) (h : s.failbit = true) : s.good = false := by
  simp [IStream.good, h]

theorem readInt_bad (s : IStream) (h : s.good = false) : (readInt s).2.good = false := by
  apply good_of_failbit
  simp [readInt, h]

theorem readInt_nil (s : IStream) (h : s.data = []) : (readInt s).2.good = false := by
  cases hs : s.good with
  | false => exact readInt_bad s hs
  | true =>
    apply good_of_failbit
    simp [readInt, hs, h]

theorem readInt_range (s : IStream) (h : (readInt s).2.good = true) :
    -2 ^ 31 ≤ (readInt s).1 ∧ (readInt s).1 ≤ 2 ^ 31 - 1 := by
  have hs : s.good = true := by
    by_contra hb
    rw [readInt_bad s (by simpa using hb)] at h
    cases h
  cases hd : s.data.dropWhile isSpace with
  | nil =>
    simp only [readInt, hs, hd, ↓reduceIte] at h
    cases h
  | cons c cs =>
    simp only [readInt, hs, hd, ↓reduceIte] at h ⊢
    simp only [IStream.good, Bool.and_eq_true, Bool.not_eq_true', Bool.or_eq_false_iff,
      decide_eq_false_iff_not] at h
    omega

/-- The sizes that the headers of the input declare, up to one that cannot be read or
whose body is missing. -/
def sizes : ℕ → List UInt8 → List ℤ
  | 0, _ => []
  | n + 1, bytes =>
    let header := readInt (IStream.ofBytes bytes)
    if header.2.good then
      header.1 ::
        if 0 ≤ header.1 ∧ header.1.toNat < header.2.data.length then
          sizes n (header.2.data.drop (header.1.toNat + 1))
        else []
    else []

theorem readInt_ofBytes (s : IStream) (hs : s.good = true) :
    (readInt s).1 = (readInt (IStream.ofBytes s.data)).1 ∧
    (readInt s).2.good = (readInt (IStream.ofBytes s.data)).2.good ∧
    (readInt s).2.data = (readInt (IStream.ofBytes s.data)).2.data := by
  have hb : (IStream.ofBytes s.data).good = true := rfl
  unfold readInt
  rw [if_pos hs, if_pos hb]
  simp only [IStream.ofBytes]
  split <;> exact ⟨rfl, rfl, rfl⟩

theorem read_getChar (s : IStream) (n : ℤ) (hs : s.good = true) (hd : s.data ≠ []) :
    ((Streams.read (getChar s) n).2.good = true ↔ 0 ≤ n ∧ n.toNat < s.data.length) ∧
    (Streams.read (getChar s) n).2.data = s.data.drop (n.toNat + 1) := by
  obtain ⟨c, cs, hc⟩ := List.exists_cons_of_ne_nil hd
  have hg : getChar s = ⟨cs, false, false, 1⟩ := by simp [getChar, hs, hc]
  rw [hg, hc]
  simp only [Streams.read, IStream.good, Bool.not_false, Bool.and_self, ↓reduceIte,
    Bool.not_eq_true', decide_eq_false_iff_not, not_not, List.length_take, List.drop_succ_cons,
    List.length_cons, and_true]
  omega

theorem gets_stopped (n : ℕ) (s : IStream) (msg : MsgBuf) (hs : s.good = false) :
    gets LengthPolicy.get n s msg = [] := by
  cases n with
  | zero => rfl
  | succ n => simp [gets, get_ok, readInt_bad s hs]

theorem readInt_data (s : IStream) (h : (readInt s).2.good = true) : (readInt s).2.data ≠ [] := by
  cases hs : s.good with
  | false =>
    rw [readInt_bad s hs] at h
    cases h
  | true =>
    intro he
    unfold readInt at h he
    rw [if_pos hs] at h he
    split at h
    next => simp [IStream.good] at h
    next c cs hc =>
      rw [hc] at he
      simp only [IStream.good, Bool.and_eq_true, Bool.not_eq_true'] at h he
      rw [he] at h
      exact Bool.noConfusion h.1

theorem gets_sizes (n : ℕ) (s : IStream) (msg : MsgBuf) (hs : s.good = true) :
    (gets LengthPolicy.get n s msg).map MsgBuf.len = (sizes n s.data).map toSize := by
  induction n generalizing s msg with
  | zero => rfl
  | succ n ih =>
    obtain ⟨hv, hg, hd⟩ := readInt_ofBytes s hs
    simp only [gets, sizes, get_ok, ← hv, ← hg, ← hd]
    by_cases hok : (readInt s).2.good = true
    · obtain ⟨hgood, hdata⟩ := read_getChar _ (readInt s).1 hok (readInt_data s hok)
      have hget : LengthPolicy.get s msg = ⟨true,
          { msg.store (Streams.read (getChar (readInt s).2) (readInt s).1).1 with
            len := toSize (readInt s).1 },
          (Streams.read (getChar (readInt s).2) (readInt s).1).1.length,
          (Streams.read (getChar (readInt s).2) (readInt s).1).2⟩ := by
        simp [LengthPolicy.get, hok]
      simp only [hok, ↓reduceIte, List.map_cons, hget]
      apply congrArg (_ :: ·)
      by_cases hbody : 0 ≤ (readInt s).1 ∧ (readInt s).1.toNat < (readInt s).2.data.length
      · rw [if_pos hbody, ih _ _ (hgood.mpr hbody), hdata]
      · rw [if_neg hbody, gets_stopped n _ _ (Bool.not_eq_true _ ▸ fun h => hbody (hgood.mp h))]
        rfl
    · simp [hok]

theorem sizes_range (n : ℕ) (bytes : List UInt8) (v : ℤ) (h : v ∈ sizes n bytes) :
    -2 ^ 31 ≤ v ∧ v ≤ 2 ^ 31 - 1 := by
  induction n generalizing bytes with
  | zero => cases h
  | succ n ih =>
    simp only [sizes] at h
    split_ifs at h with hg hb
    · rcases List.mem_cons.mp h with rfl | h
      · exact readInt_range _ hg
      · exact ih _ h
    · rw [List.mem_singleton.mp h]
      exact readInt_range _ hg
    · cases h

end Wissbi.LengthPolicy
