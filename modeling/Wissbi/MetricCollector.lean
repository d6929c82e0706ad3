import Wissbi.MetricReporter

set_option autoImplicit false

namespace Wissbi.MetricCollector
open LengthPolicy MetricReporter Streams Util

def underscore : UInt8 := 95

def strip (s : Str) : Str := ((s.dropWhile isSpace).reverse.dropWhile isSpace).reverse

def readline (input : Str) : Str × Str :=
  let rest := input.dropWhile (· != newline)
  (input.takeWhile (· != newline) ++ rest.take 1, rest.drop 1)

/-- `int(s)` of a string, which raises `ValueError` unless it is a decimal number. -/
def int (s : Str) : Option ℤ :=
  match strip s with
  | [] => none
  | c :: cs =>
    let digits := if c = plus ∨ c = minus then cs else c :: cs
    if digits ≠ [] ∧ digits.all isDigit then
      some (if c = minus then -(decimalValue digits : ℤ) else decimalValue digits)
    else none

def rrdName (name direction : Str) : Str :=
  let name := name.flatMap fun c => if c = slash then [underscore, underscore] else [c]
  ascii "wissbi." ++ replace colon dot name ++ [dot] ++ direction

abbrev Counters := Str → Option ℤ

section
variable (loadCounter : Str → ℤ)

/-- The counter that the loop finds for a metric, from `rrdtool` when it has none. -/
def Counters.value (counterMap : Counters) (name : Str) : ℤ :=
  (counterMap name).getD (loadCounter name)

def newCounter (counter value : ℤ) : ℤ :=
  if counter + value > 0xffffffff then counter + value - 0xffffffff - 1 else counter + value

/-- The body of the loop for a line that is not empty; `none` where Python raises. What `rrdtool`
knows of a metric is `loadCounter`. -/
def handle (counterMap : Counters) (line : Str) : Option Counters :=
  match line.splitOn comma with
  | [name, direction, value] =>
    let name := rrdName name direction
    (int value).map fun v =>
      Function.update counterMap name (some (newCounter (counterMap.value loadCounter name) v))
  | _ => none

inductive Outcome where
  | ended (counterMap : Counters)
  | raised
  | running (counterMap : Counters)

def loop : ℕ → Counters → Str → Outcome
  | 0, counterMap, _ => .running counterMap
  | n + 1, counterMap, input =>
    let line := strip (readline input).1
    if line.length = 0 then .ended counterMap
    else
      match handle loadCounter counterMap line with
      | none => .raised
      | some counterMap => loop n counterMap (readline input).2

def feed : Counters → List Str → Option Counters
  | counterMap, [] => some counterMap
  | counterMap, line :: lines =>
    (handle loadCounter counterMap line).bind fun counterMap => feed counterMap lines

end

/-- The counters are unsigned 32-bit values. -/
def InRange (counterMap : Counters) : Prop := ∀ n c, counterMap n = some c → 0 ≤ c ∧ c < 2 ^ 32

theorem newCounter_mod {c v : ℤ} (hc : 0 ≤ c ∧ c < 2 ^ 32) (hv : 0 ≤ v ∧ v < 2 ^ 32) :
    newCounter c v = (c + v) % 2 ^ 32 := by
  unfold newCounter
  split <;> omega

theorem value_range {loadCounter : Str → ℤ} {counterMap : Counters} (hm : InRange counterMap)
    (hl : ∀ n, 0 ≤ loadCounter n ∧ loadCounter n < 2 ^ 32) (n : Str) :
    0 ≤ counterMap.value loadCounter n ∧ counterMap.value loadCounter n < 2 ^ 32 := by
  unfold Counters.value
  cases h : counterMap n with
  | none => exact hl n
  | some c => exact hm n c h

theorem dropWhile_of_head {p : UInt8 → Bool} {s : Str} (h : ∀ c ∈ s.head?, p c = false) :
    s.dropWhile p = s := by
  cases s with
  | nil => rfl
  | cons c cs =>
    have hc : p c = false := h c rfl
    simp [hc]

theorem strip_line {s : Str} (hfirst : ∀ c ∈ s.head?, isSpace c = false)
    (hlast : ∀ c ∈ s.getLast?, isSpace c = false) (hne : s ≠ []) :
    strip s = s ∧ strip (s ++ [newline]) = s := by
  have hback : s.reverse.dropWhile isSpace = s.reverse :=
    dropWhile_of_head (by simpa using hlast)
  have hfirst' : ∀ c ∈ (s ++ [newline]).head?, isSpace c = false := by
    rw [List.head?_append_of_ne_nil s hne]
    exact hfirst
  have hnewline : isSpace newline = true := by decide
  constructor
  · rw [strip, dropWhile_of_head hfirst, hback, List.reverse_reverse]
  · rw [strip, dropWhile_of_head hfirst', List.reverse_append, List.reverse_singleton,
      List.singleton_append, List.dropWhile_cons_of_pos hnewline, hback, List.reverse_reverse]

theorem readline_line {s : Str} (h : newline ∉ s) (rest : Str) :
    readline (s ++ newline :: rest) = (s ++ [newline], rest) := by
  have hne : ∀ c ∈ s, (c != newline) = true := by
    intro c hc
    rw [bne_iff_ne]
    rintro rfl
    exact h hc
  unfold readline
  rw [List.takeWhile_append_of_pos hne, List.dropWhile_append_of_pos hne]
  simp

/-- What `Report` sends is a line of its own: not empty, not broken and not padded. -/
structure Line (s : Str) : Prop where
  first : ∀ c ∈ s.head?, isSpace c = false
  last : ∀ c ∈ s.getLast?, isSpace c = false
  whole : newline ∉ s
  nonempty : s ≠ []

theorem loop_lines (loadCounter : Str → ℤ) (counterMap counterMap' : Counters) (lines : List Str)
    (hl : ∀ s ∈ lines, Line s) (hf : feed loadCounter counterMap lines = some counterMap') :
    loop loadCounter (lines.length + 1) counterMap (lines.flatMap (· ++ [newline])) =
      .ended counterMap' := by
  induction lines generalizing counterMap with
  | nil =>
    cases hf
    simp [loop, readline, strip]
  | cons s lines ih =>
    obtain ⟨next, hn, hf⟩ := Option.bind_eq_some_iff.mp hf
    have hs := hl s (by simp)
    have hinput : (s :: lines).flatMap (· ++ [newline]) =
        s ++ newline :: lines.flatMap (· ++ [newline]) := by simp
    have hlen : ¬ s.length = 0 := by simpa using hs.nonempty
    rw [hinput, List.length_cons, loop, readline_line hs.whole]
    simp only [(strip_line hs.first hs.last hs.nonempty).2, hlen, ↓reduceIte, hn]
    exact ih next (fun x hx => hl x (by simp [hx])) hf

theorem int_decimal (n : ℕ) : int (decimal n) = some (n : ℤ) := by
  have hspace (c : UInt8) (hc : c ∈ decimal n) : isSpace c = false :=
    (isDigit_not_special c (decimal_isDigit n c hc)).1
  have hstrip := (strip_line (fun c hc => hspace c (List.mem_of_head? hc))
    (fun c hc => hspace c (List.mem_of_getLast? hc)) (decimal_ne_nil n)).1
  obtain ⟨c, cs, hc⟩ := List.exists_cons_of_ne_nil (decimal_ne_nil n)
  obtain ⟨-, hp, hm⟩ := isDigit_not_special c (decimal_isDigit n c (by simp [hc]))
  have hall : (decimal n).all isDigit = true := List.all_eq_true.mpr (decimal_isDigit n)
  have hv := decimalValue_decimal n
  rw [hc] at hstrip hall hv
  unfold int
  rw [hc, hstrip]
  simp only [hp, hm, or_self, ↓reduceIte, ne_eq, reduceCtorEq, not_false_eq_true, hall, and_self,
    hv]

structure Named (name : Str) : Prop where
  comma : comma ∉ name
  newline : newline ∉ name
  first : ∀ c ∈ name.head?, isSpace c = false

section
variable {name direction : Str}

theorem not_mem_decimal (n : ℕ) (c : UInt8) (h : isDigit c = false) : c ∉ decimal n := by
  intro hc
  rw [decimal_isDigit n c hc] at h
  cases h

theorem split_reportText (hn : comma ∉ name) (hd : comma ∉ direction) (v : UInt32) :
    (reportText name direction v).splitOn comma = [name, direction, decimal v.toNat] := by
  have hdec : comma ∉ decimal v.toNat := not_mem_decimal _ _ (by decide)
  have hparts : reportText name direction v =
      [comma].intercalate [name, direction, decimal v.toNat] := by
    simp [reportText, List.intercalate]
  rw [hparts, List.splitOn_intercalate comma _ (by simp)]
  simp [hn, hd, hdec]

theorem line_reportText (hn : Named name) (hd : newline ∉ direction) (v : UInt32) :
    Line (reportText name direction v) := by
  have hdec : newline ∉ decimal v.toNat := not_mem_decimal _ _ (by decide)
  have hnl := hn.newline
  have hcomma : newline ≠ comma := by decide
  refine ⟨?_, ?_, by simp [reportText, hnl, hd, hdec, hcomma], by simp [reportText]⟩
  · intro c hc
    cases hname : name with
    | nil =>
      rw [hname] at hc
      cases hc
      decide
    | cons x xs =>
      apply hn.first c
      rw [hname] at hc ⊢
      exact hc
  · intro c hc
    unfold reportText at hc
    rw [List.getLast?_append_of_ne_nil _ (decimal_ne_nil _)] at hc
    exact (isDigit_not_special c (decimal_isDigit _ c (List.mem_of_getLast? hc))).1

theorem handle_reportText (loadCounter : Str → ℤ) (counterMap : Counters) (hn : Named name)
    (hd : comma ∉ direction) (v : UInt32) :
    handle loadCounter counterMap (reportText name direction v) =
      some (Function.update counterMap (rrdName name direction) (some (newCounter
        (counterMap.value loadCounter (rrdName name direction)) v.toNat))) := by
  unfold handle
  rw [split_reportText hn.comma hd]
  simp only [int_decimal, Option.map_some]

end

end Wissbi.MetricCollector
