import Mathlib.Data.List.TakeWhile
import Wissbi.LengthPolicy

set_option autoImplicit false

namespace Wissbi.LengthFrames
open Buffers Framing LengthPolicy Streams

def signed (sign digits : List UInt8) : ℤ :=
  if sign = [minus] then -(decimalValue digits : ℤ) else decimalValue digits

structure Header (bytes : List UInt8) (v : ℤ) (after : List UInt8) : Prop where
  parts : ∃ ws sign digits sep, bytes = ws ++ (sign ++ (digits ++ sep :: after)) ∧
    (∀ c ∈ ws, isSpace c = true) ∧ (sign = [] ∨ sign = [plus] ∨ sign = [minus]) ∧
    digits ≠ [] ∧ (∀ c ∈ digits, isDigit c = true) ∧ isDigit sep = false ∧
    v = signed sign digits

def Frame (bytes : List UInt8) (n : ℕ) (body rest : List UInt8) : Prop :=
  Header bytes n (body ++ rest) ∧ body.length = n

def Fits (v : ℤ) : Prop := -2 ^ 31 ≤ v ∧ v ≤ 2 ^ 31 - 1

theorem takeWhile_digits {digits : List UInt8} {sep : UInt8}
    (hd : ∀ c ∈ digits, isDigit c = true) (hsep : isDigit sep = false) (after : List UInt8) :
    (digits ++ sep :: after).takeWhile isDigit = digits ∧
    (digits ++ sep :: after).dropWhile isDigit = sep :: after := by
  rw [List.takeWhile_append_of_pos hd, List.dropWhile_append_of_pos hd]
  simp [hsep]

theorem dropWhile_spaces {ws rest : List UInt8} {c : UInt8} (hws : ∀ x ∈ ws, isSpace x = true)
    (hc : isSpace c = false) : (ws ++ c :: rest).dropWhile isSpace = c :: rest := by
  rw [List.dropWhile_append_of_pos hws]
  simp [hc]

theorem readInt_header {s : IStream} {v : ℤ} {after : List UInt8} (hs : s.good = true)
    (h : Header s.data v after) :
    ∃ sep, readInt s = (v, { s with
      data := sep :: after
      eofbit := false
      failbit := decide (v < -2 ^ 31) || decide (2 ^ 31 - 1 < v) }) := by
  obtain ⟨ws, sign, digits, sep, hdata, hws, hsign, hne, hdigits, hsep, rfl⟩ := h.parts
  obtain ⟨htake, hdrop⟩ := takeWhile_digits hdigits hsep after
  have hempty : digits.isEmpty = false := List.isEmpty_eq_false_iff.mpr hne
  refine ⟨sep, ?_⟩
  rcases hsign with rfl | rfl | rfl
  · obtain ⟨d, ds, rfl⟩ := List.exists_cons_of_ne_nil hne
    obtain ⟨hsp, hp, hm⟩ := isDigit_not_special d (hdigits d (by simp))
    have hstart : s.data.dropWhile isSpace = d :: (ds ++ sep :: after) := by
      rw [hdata]
      exact dropWhile_spaces hws hsp
    rw [List.cons_append] at htake hdrop
    simp [readInt, hs, hstart, hp, hm, htake, hdrop, signed]
  · have hstart : s.data.dropWhile isSpace = plus :: (digits ++ sep :: after) := by
      rw [hdata]
      exact dropWhile_spaces hws rfl
    have hpm : plus ≠ minus := by decide
    simp [readInt, hs, hstart, htake, hdrop, hempty, hpm, signed]
  · have hstart : s.data.dropWhile isSpace = minus :: (digits ++ sep :: after) := by
      rw [hdata]
      exact dropWhile_spaces hws rfl
    simp [readInt, hs, hstart, htake, hdrop, hempty, signed]

theorem digits_split {body rest : List UInt8} {sep : UInt8}
    (h : body.dropWhile isDigit = sep :: rest) :
    body = body.takeWhile isDigit ++ sep :: rest ∧
    (∀ c ∈ body.takeWhile isDigit, isDigit c = true) ∧ isDigit sep = false := by
  refine ⟨?_, fun c hc => List.mem_takeWhile_imp hc, ?_⟩
  · rw [← h]
    exact List.takeWhile_append_dropWhile.symm
  · have hhead := List.head?_dropWhile_not isDigit body
    rw [h] at hhead
    simpa using hhead

theorem header_of_readInt {s : IStream} (h : (readInt s).2.good = true) :
    ∃ sep after, (readInt s).2.data = sep :: after ∧ Header s.data (readInt s).1 after := by
  have hs : s.good = true := by
    by_contra hb
    rw [readInt_bad s (by simpa using hb)] at h
    cases h
  cases hd : s.data.dropWhile isSpace with
  | nil =>
    simp only [readInt, hs, hd, ↓reduceIte] at h
    cases h
  | cons c cs =>
    have hdata : s.data = s.data.takeWhile isSpace ++ c :: cs := by
      rw [← hd]
      exact List.takeWhile_append_dropWhile.symm
    have hws : ∀ x ∈ s.data.takeWhile isSpace, isSpace x = true :=
      fun x hx => List.mem_takeWhile_imp hx
    simp only [readInt, hs, hd, ↓reduceIte] at h ⊢
    simp only [IStream.good, Bool.and_eq_true, Bool.not_eq_true', Bool.or_eq_false_iff] at h
    obtain ⟨heof, ⟨hdigits, -⟩, -⟩ := h
    rw [List.isEmpty_eq_false_iff] at heof hdigits
    obtain ⟨sep, after, hrest⟩ := List.exists_cons_of_ne_nil heof
    obtain ⟨hbody, hall, hsep⟩ := digits_split hrest
    refine ⟨sep, after, hrest, ⟨s.data.takeWhile isSpace, if c = plus ∨ c = minus then [c] else [],
      _, sep, hdata.trans (congrArg _ ?_), hws, ?_, hdigits, hall, hsep, ?_⟩⟩
    · rw [← hbody]
      split_ifs <;> rfl
    · split_ifs with hc
      · exact .inr (hc.imp (fun he => by rw [he]) (fun he => by rw [he]))
      · exact .inl rfl
    · by_cases hc : c = minus
      · simp [signed, hc]
      · have hsign : (if c = plus ∨ c = minus then [c] else []) ≠ [minus] := by
          split_ifs <;> simp [hc]
        rw [signed, if_neg hsign, if_neg hc]

theorem Header.unique {bytes after after' : List UInt8} {v v' : ℤ} (h : Header bytes v after)
    (h' : Header bytes v' after') : v = v' ∧ after = after' := by
  obtain ⟨sep, hr⟩ := readInt_header (s := IStream.ofBytes bytes) rfl h
  obtain ⟨sep', hr'⟩ := readInt_header (s := IStream.ofBytes bytes) rfl h'
  rw [hr] at hr'
  simp only [Prod.mk.injEq, IStream.mk.injEq, List.cons.injEq] at hr'
  exact ⟨hr'.1, hr'.2.1.2⟩

/-- `Get` on a stream that starts with a header takes it for a frame, whatever follows. -/
theorem get_header {s : IStream} {v : ℤ} {after : List UInt8} (hs : s.good = true)
    (h : Header s.data v after) (hfits : Fits v) (msg : MsgBuf) :
    (LengthPolicy.get s msg).ok = true ∧
    (LengthPolicy.get s msg).msg =
      { msg.store (after.take v.toNat) with len := toSize v } := by
  obtain ⟨sep, hr⟩ := readInt_header hs h
  have hlo : ¬ v < -2 ^ 31 := not_lt.mpr hfits.1
  have hhi : ¬ 2 ^ 31 - 1 < v := not_lt.mpr hfits.2
  rw [decide_eq_false hlo, decide_eq_false hhi, Bool.or_self] at hr
  simp [LengthPolicy.get, hr, IStream.good, getChar, Streams.read]

theorem get_no_header {s : IStream} (msg : MsgBuf) (h : (readInt s).2.good = false) :
    (LengthPolicy.get s msg).ok = false ∧ (LengthPolicy.get s msg).msg.len = 0 := by
  simp [LengthPolicy.get, h]

theorem fits_of_readInt {s : IStream} (h : (readInt s).2.good = true) : Fits (readInt s).1 :=
  readInt_range s h

theorem toSize_fits {v : ℤ} (h₀ : 0 ≤ v) (h : Fits v) : toSize v = v.toNat :=
  toSize_of_nonneg v h₀ (by have := h.2; omega)

/-- A `Get` that returns a message has read a whole frame and stored its body in the array,
where `len` does not overwrite it; one that returns none leaves the length zero. -/
def Accepts (s : IStream) (r : GetResult IStream) : Prop :=
  (r.ok = true → ∃ n body rest, Frame s.data n body rest ∧ n ≤ maxMsgSize ∧
    r.msg.len = n ∧ r.msg.data = body) ∧
  (r.ok = false → r.msg.len = 0)

def Complete (s : IStream) : Prop :=
  s.good = true → ∀ v after, Header s.data v after → Fits v →
    0 ≤ v ∧ v ≤ maxMsgSize ∧ v ≤ after.length

theorem accepts_of_complete {s : IStream} (h : Complete s) (msg : MsgBuf) :
    Accepts s (LengthPolicy.get s msg) := by
  cases hg : (readInt s).2.good with
  | false =>
    obtain ⟨hok, hlen⟩ := get_no_header msg hg
    exact ⟨fun ht => absurd (hok.symm.trans ht) (by decide), fun _ => hlen⟩
  | true =>
    have hs : s.good = true := by
      by_contra hb
      rw [readInt_bad s (by simpa using hb)] at hg
      cases hg
    obtain ⟨sep, after, -, hheader⟩ := header_of_readInt hg
    have hfits := fits_of_readInt hg
    obtain ⟨hok, hmsg⟩ := get_header hs hheader hfits msg
    obtain ⟨hpos, hmax, hle⟩ := h hs _ after hheader hfits
    have hsize := toSize_fits hpos hfits
    have hlen : (after.take (readInt s).1.toNat).length = (readInt s).1.toNat := by
      rw [List.length_take]
      omega
    refine ⟨fun _ => ⟨(readInt s).1.toNat, after.take (readInt s).1.toNat,
      after.drop (readInt s).1.toNat, ⟨?_, hlen⟩, Int.toNat_le.mpr hmax, ?_, ?_⟩, fun hf => ?_⟩
    · rw [List.take_append_drop, Int.toNat_of_nonneg hpos]
      exact hheader
    · rw [hmsg]
      exact hsize
    · rw [hmsg, hsize]
      have hdata := store_data_exact msg (after.take (readInt s).1.toNat)
      rwa [hlen] at hdata
    · rw [hok] at hf
      cases hf

theorem complete_of_accepts {s : IStream} {msg : MsgBuf}
    (h : Accepts s (LengthPolicy.get s msg)) : Complete s := by
  intro hs v after hheader hfits
  obtain ⟨hok, hmsg⟩ := get_header hs hheader hfits msg
  obtain ⟨n, body, rest, ⟨hframe, hbody⟩, hmax, hlen, -⟩ := h.1 hok
  obtain ⟨hv, hafter⟩ := hheader.unique hframe
  rw [hv, hafter, List.length_append, hbody]
  omega

/-- `Get` accepts only whole frames exactly where the header it finds, if any, has a size
that is not negative and not too large, and a body that is not cut short. -/
theorem accepts_iff_complete (s : IStream) (msg : MsgBuf) :
    Accepts s (LengthPolicy.get s msg) ↔ Complete s :=
  ⟨complete_of_accepts, fun h => accepts_of_complete h msg⟩

def hello : MsgBuf := ⟨0, fun i => [104, 101, 108, 108, 111].getD i 0, 5⟩

theorem truncated_accepted :
    ¬ (∀ s msg, Accepts s (LengthPolicy.get s msg)) ∧
    (LengthPolicy.get (IStream.ofBytes [53, 32, 97, 98]) hello).ok = true ∧
    (LengthPolicy.get (IStream.ofBytes [53, 32, 97, 98]) hello).msg.data = [97, 98, 108, 108, 111] ∧
    (LengthPolicy.get (IStream.ofBytes [45, 49, 32]) hello).ok = true ∧
    (LengthPolicy.get (IStream.ofBytes [45, 49, 32]) hello).msg.len = 2 ^ 64 - 1 := by
  refine ⟨fun h => ?_, by decide, by decide, by decide, by decide⟩
  have hheader : Header [53, 32, 97, 98] 5 [97, 98] :=
    ⟨[], [], [53], 32, rfl, by simp, .inl rfl, by simp, List.forall_mem_singleton.mpr rfl, rfl, rfl⟩
  have hc := complete_of_accepts (h (IStream.ofBytes [53, 32, 97, 98]) hello) rfl 5 [97, 98]
    hheader ⟨by decide, by decide⟩
  exact absurd hc.2.2 (by decide)

theorem get_spaces {s : IStream} {ws : List UInt8} (msg : MsgBuf) (h : s.data = ws)
    (hws : ∀ c ∈ ws, isSpace c = true) :
    (LengthPolicy.get s msg).ok = false ∧ (LengthPolicy.get s msg).msg.len = 0 := by
  apply get_no_header msg
  cases hs : s.good with
  | false => exact readInt_bad s hs
  | true =>
    apply good_of_failbit
    have hdrop : s.data.dropWhile isSpace = [] := by
      rw [h]
      exact List.dropWhile_eq_nil_iff.mpr hws
    simp [readInt, hs, hdrop]

/-- What `Put` writes for a list of messages is read back as these messages, with white space
at the end or without, and then `Get` fails. -/
theorem length_round_trip (msgs : List MsgBuf) (ws : List UInt8) (buf : MsgBuf)
    (hm : ∀ msg ∈ msgs, 1 ≤ msg.len ∧ msg.len ≤ maxMsgSize)
    (hws : ∀ c ∈ ws, isSpace c = true) :
    (puts LengthPolicy.put [] msgs).1 = msgs.map (fun _ => true) ∧
    (calls LengthPolicy.get (msgs.length + 1)
        (IStream.ofBytes ((puts LengthPolicy.put [] msgs).2 ++ ws)) buf).map GetResult.seen =
      msgs.map (fun msg => (true, msg.len, msg.data)) ++ [(false, 0, [])] ∧
    ∀ out msg, msg.len = 0 → LengthPolicy.put out msg = (false, out) := by
  have hputs := puts_enc LengthPolicy.put enc put_data [] msgs
    fun msg hx => Nat.pos_iff_ne_zero.mp (hm msg hx).1
  rw [List.nil_append] at hputs
  have hsmall : ∀ m ∈ msgs.map MsgBuf.data, m.length < 2 ^ 31 := by
    intro m hx
    obtain ⟨msg, hmem, rfl⟩ := List.mem_map.mp hx
    rw [data_length]
    exact Nat.lt_of_le_of_lt (hm msg hmem).2 (by decide)
  have hreads : Reads (fun bytes m rest => bytes = enc m ++ rest ∧ m.length < 2 ^ 31)
      ((msgs.map MsgBuf.data).flatMap enc ++ ws) (msgs.map MsgBuf.data) ws :=
    reads_flatMap ws fun m hx after => ⟨rfl, hsmall m hx⟩
  have hcalls := calls_reads LengthPolicy.get _ IStream.data (fun s => s.good = true)
    (fun s msg m rest hs h => get_enc s msg m rest hs h.1 h.2)
    (fun s msg _ h => get_spaces msg h hws)
    (IStream.ofBytes ((msgs.map MsgBuf.data).flatMap enc ++ ws)) buf rfl hreads
  refine ⟨by rw [hputs], ?_, fun out msg hz => by simp [LengthPolicy.put, hz]⟩
  rw [List.length_map, List.map_map] at hcalls
  rw [hputs, hcalls]
  simp [Function.comp_def]

theorem digits_and_blanks_survive :
    let msgs : List MsgBuf := [⟨0, fun _ => 49, 3⟩, ⟨0, fun i => [10, 32, 50].getD i 0, 3⟩]
    (puts LengthPolicy.put [] msgs).2 = [51, 32, 49, 49, 49, 51, 32, 10, 32, 50] ∧
    (calls LengthPolicy.get 3
        (IStream.ofBytes ((puts LengthPolicy.put [] msgs).2 ++ [10, 10])) hello).map
          GetResult.seen =
      msgs.map (fun msg => (true, msg.len, msg.data)) ++ [(false, 0, [])] := by
  intro msgs
  refine ⟨by decide, ?_⟩
  have hws : ∀ c ∈ [10, 10], isSpace c = true :=
    List.forall_mem_cons.mpr ⟨rfl, List.forall_mem_singleton.mpr rfl⟩
  exact (length_round_trip msgs [10, 10] hello (by decide) hws).2.1

end Wissbi.LengthFrames
