import Mathlib.Algebra.BigOperators.Group.List.Basic
import Wissbi.LineFormat
import Wissbi.PoisonMessages

set_option autoImplicit false

namespace Wissbi.Count
open Buffers LinePolicy MsgFilter PoisonMessages Streams

/-- `calls` is how often `time` was called, and `rates` what was divided, one pair for each line on
`cerr`. -/
structure Counter where
  lastUpdateTs : ℤ
  count : Int32
  calls : ℕ
  rates : List (Int32 × ℤ)

def update (time : ℕ → ℤ) (s : Counter) (_msg : MsgBuf) : Counter :=
  let count := s.count + 1
  let currentTs := time s.calls
  if currentTs > s.lastUpdateTs then
    ⟨currentTs, 0, s.calls + 1, s.rates ++ [(count, currentTs - s.lastUpdateTs)]⟩
  else { s with count := count, calls := s.calls + 1 }

def start (time : ℕ → ℤ) : Counter := ⟨time 0, 0, 1, []⟩

/-- Of `n` messages fewer than `2 ^ 31` come before the clock passes any of its readings, so that
`count` does not overflow between two reports. -/
def Reports (time : ℕ → ℤ) (n : ℕ) : Prop :=
  ∀ i j, j < n → (∀ m, i < m → m ≤ j → time m ≤ time i) → j + 1 - i < 2 ^ 31

/-- Where the counter stands after `n` messages: each one is in a rate or still to be reported,
the intervals follow each other without a gap, and the last one ends at the latest reading. -/
structure Accounts (time : ℕ → ℤ) (n : ℕ) (s : Counter) : Prop where
  calls : s.calls = n + 1
  messages : (s.rates.map fun r => r.1.toInt).sum + s.count.toInt = n
  seconds : (s.rates.map Prod.snd).sum = s.lastUpdateTs - time 0
  positive : ∀ r ∈ s.rates, 0 < r.1.toInt ∧ 0 < r.2
  latest : ∀ k ≤ n, time k ≤ s.lastUpdateTs
  reading : ∃ k ≤ n, time k = s.lastUpdateTs ∧ s.count.toInt = n - k

theorem start_accounts (time : ℕ → ℤ) : Accounts time 0 (start time) where
  calls := rfl
  messages := by simp [start]
  seconds := by simp [start]
  positive := by simp [start]
  latest := by
    intro k hk
    rw [Nat.le_zero.mp hk]
    exact le_rfl
  reading := ⟨0, le_rfl, rfl, rfl⟩

theorem toInt_succ {time : ℕ → ℤ} {n : ℕ} {s : Counter} (h : Accounts time n s)
    (hreports : Reports time (n + 1)) :
    0 ≤ s.count.toInt ∧ (s.count + 1).toInt = s.count.toInt + 1 := by
  obtain ⟨k, hk, hlast, hcount⟩ := h.reading
  have hquiet := hreports k n (Nat.lt_succ_self n) fun m _ hm => hlast ▸ h.latest m hm
  refine ⟨by omega, ?_⟩
  rw [Int32.toInt_add, Int32.toInt_one, Int.bmod_eq_of_le (by omega) (by omega)]

theorem update_accounts {time : ℕ → ℤ} {n : ℕ} {s : Counter} (h : Accounts time n s)
    (hreports : Reports time (n + 1)) (msg : MsgBuf) :
    Accounts time (n + 1) (update time s msg) := by
  have hcalls := h.calls
  have hmessages := h.messages
  have hseconds := h.seconds
  obtain ⟨hcount, hsucc⟩ := toInt_succ h hreports
  unfold update
  simp only [hcalls]
  split_ifs with hnow
  · refine ⟨rfl, ?_, ?_, ?_, ?_, ⟨n + 1, le_rfl, rfl, by simp⟩⟩
    · simp only [List.map_append, List.map_singleton, List.sum_append, List.sum_singleton, hsucc,
        Int32.toInt_zero]
      omega
    · simp only [List.map_append, List.map_singleton, List.sum_append, List.sum_singleton]
      omega
    · intro r hr
      rcases List.mem_append.mp hr with hr | hr
      · exact h.positive r hr
      · rw [List.mem_singleton.mp hr]
        simp only [hsucc]
        omega
    · intro k hk
      rcases Nat.le_succ_iff.mp hk with hk | rfl
      · exact le_of_lt (lt_of_le_of_lt (h.latest k hk) hnow)
      · exact le_rfl
  · obtain ⟨k, hk, hlast, hsince⟩ := h.reading
    refine ⟨rfl, by simp only [hsucc]; omega, hseconds, h.positive, ?_, ⟨k, by omega, hlast, ?_⟩⟩
    · intro k hk
      rcases Nat.le_succ_iff.mp hk with hk | rfl
      · exact h.latest k hk
      · exact not_lt.mp hnow
    · simp only [hsucc]
      omega

section
variable {τ : Type} (note : τ → MsgBuf → τ)

theorem filter_notes (s : Copier τ) (buf : MsgBuf) :
    (filter (copyFilter note) (s, buf)).2.1.notes =
      if (LinePolicy.get s.input buf).ok then note s.notes (LinePolicy.get s.input buf).msg
      else s.notes := by
  cases hok : (LinePolicy.get s.input buf).ok with
  | true => simp [filter, andThen, copyFilter, always, defaultPost, hok]
  | false => simp [filter, andThen, copyFilter, always, defaultPost, hok]

def seen (ls : List Msg) : ℕ :=
  (ls.takeWhile Plain).length + if (ls.dropWhile Plain).head? = some [] then 1 else 0

theorem decode_of_lines {bytes : List UInt8} {l : Msg} {ls : List Msg}
    (h : lines bytes = l :: ls) :
    (l.length ≤ maxMsgSize - 1 → ∃ rest, decode bytes = some (l, rest) ∧ lines rest = ls) ∧
    (¬ l.length ≤ maxMsgSize - 1 → decode bytes = none) := by
  have hne : bytes ≠ [] := by
    rintro rfl
    cases h
  rw [lines_cons bytes hne, List.cons.injEq] at h
  obtain ⟨rfl, rfl⟩ := h
  unfold decode
  refine ⟨fun hfit => ⟨_, if_neg ?_, rfl⟩, fun hlong => if_pos (.inr (Nat.not_le.mp hlong))⟩
  exact not_or.mpr ⟨hne, Nat.not_lt.mpr hfit⟩

theorem copy_notes (I : ℕ → τ → Prop) (hnote : ∀ k w msg, I k w → I (k + 1) (note w msg))
    (ls : List Msg) (k : ℕ) (s : Copier τ) (buf : MsgBuf) (hs : Clean s.input)
    (hl : lines s.input.data = ls) (h : I k s.notes) :
    ∃ n t, filterLoop (copyFilter note) n (s, buf) = some t ∧ I (k + seen ls) t.1.notes := by
  induction ls generalizing k s buf with
  | nil =>
    have hstop := (copy_stop note s buf hs (by simp [hl])).1
    have hok := (get_of_decode_none s.input buf (by rw [LineFormat.lines_eq_nil hl]; rfl)).1
    refine ⟨1, (filter (copyFilter note) (s, buf)).2, by simp [filterLoop, hstop], ?_⟩
    rw [filter_notes, hok]
    exact h
  | cons l ls ih =>
    have hdecode := decode_of_lines hl
    cases hp : Plain l with
    | false =>
      have hstop := (copy_stop note s buf hs (by simp [hl, hp])).1
      refine ⟨1, (filter (copyFilter note) (s, buf)).2, by simp [filterLoop, hstop], ?_⟩
      rw [filter_notes, seen, List.takeWhile_cons_of_neg (by simp [hp]),
        List.dropWhile_cons_of_neg (by simp [hp])]
      by_cases hempty : l = []
      · subst hempty
        obtain ⟨rest, hd, -⟩ := hdecode.1 (by simp)
        rw [(get_of_decode s.input buf _ _ hs hd).1]
        exact hnote k _ _ h
      · have hlong : ¬ l.length ≤ maxMsgSize - 1 := by
          intro hle
          simp [Plain, List.length_pos_iff.mpr hempty, hle] at hp
        rw [(get_of_decode_none s.input buf (hdecode.2 hlong)).1]
        simpa [hempty] using h
    | true =>
      have hp' := hp
      simp only [Plain, Bool.and_eq_true, decide_eq_true_eq] at hp'
      obtain ⟨rest, hd, hrest⟩ := hdecode.1 hp'.2
      obtain ⟨t, buf', hf, ht, hdata, -⟩ :=
        copy_turn note s buf l rest hs hd (List.ne_nil_of_length_pos hp'.1)
      have hnotes := filter_notes note s buf
      rw [hf, (get_of_decode s.input buf _ _ hs hd).1] at hnotes
      have hnext : I (k + 1) t.notes := hnotes ▸ hnote k _ _ h
      obtain ⟨n, u, hu, hI⟩ := ih (k + 1) t buf' ht (by rw [hdata, hrest]) hnext
      refine ⟨n + 1, u, by simp [filterLoop, hf, hu], ?_⟩
      have hseen : seen (l :: ls) = 1 + seen ls := by
        simp only [seen, List.takeWhile_cons_of_pos hp, List.dropWhile_cons_of_pos hp,
          List.length_cons]
        omega
      rwa [hseen, ← Nat.add_assoc]

end

/-- A whole run, for every input and every clock that moves on in time: it ends; the lines before
the first one that is empty or too long are on the output; and the rates account for every message
that was seen and for every second between the first and the latest reading. -/
theorem counts_every_message (bytes : List UInt8) (time : ℕ → ℤ) (buf : MsgBuf)
    (hreports : Reports time (seen (lines bytes))) :
    ∃ n t, filterLoop (copyFilter (update time)) n
        (⟨IStream.ofBytes bytes, [], start time⟩, buf) = some t ∧
      t.1.out = ((lines bytes).takeWhile Plain).flatMap enc ∧
      Accounts time (seen (lines bytes)) t.1.notes := by
  obtain ⟨n, t, ht, hout⟩ := copy_out (update time) (lines bytes)
    ⟨IStream.ofBytes bytes, [], start time⟩ buf (clean_ofBytes bytes) rfl
  obtain ⟨k, u, hu, hnotes⟩ := copy_notes (update time)
    (fun k w => k ≤ seen (lines bytes) → Accounts time k w)
    (fun k w msg h hk => update_accounts (h (Nat.le_of_succ_le hk))
      (fun i j hj => hreports i j (Nat.lt_of_lt_of_le hj hk)) msg) (lines bytes) 0
    ⟨IStream.ofBytes bytes, [], start time⟩ buf (clean_ofBytes bytes) rfl fun _ => start_accounts time
  rw [filterLoop_unique _ hu ht, Nat.zero_add] at hnotes
  exact ⟨n, t, ht, hout, hnotes le_rfl⟩

theorem still_clock_counts :
    ∃ n t, filterLoop (copyFilter (update fun _ => 5)) n
        (⟨IStream.ofBytes [97, 10, 98, 10], [], start fun _ => 5⟩, ⟨0, fun _ => 0, 0⟩) = some t ∧
      t.1.out = [97, 10, 98, 10] ∧ Accounts (fun _ => 5) 2 t.1.notes := by
  have hlines : lines [97, 10, 98, 10] = [[97], [98]] := by decide
  have hseen : seen (lines [97, 10, 98, 10]) = 2 := by
    rw [hlines]
    decide
  obtain ⟨n, t, ht, hout, hnotes⟩ := counts_every_message [97, 10, 98, 10] (fun _ => 5)
    ⟨0, fun _ => 0, 0⟩ (by rw [hseen]; intro i j hj _; omega)
  rw [hlines] at hout
  rw [hseen] at hnotes
  exact ⟨n, t, ht, hout.trans (by decide), hnotes⟩

end Wissbi.Count
