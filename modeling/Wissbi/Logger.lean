import Wissbi.Runs
import Wissbi.Util

set_option autoImplicit false

namespace Wissbi.Logger
open Streams Util

def npos : ℕ := 2 ^ 64 - 1

def lbrace : UInt8 := 123
def rbrace : UInt8 := 125

structure StdString where
  bytes : Str
  fits : bytes.length < npos

def findBraces : Str → Option ℕ
  | c :: d :: s =>
    if c = lbrace ∧ d = rbrace then some 0 else (findBraces (d :: s)).map (· + 1)
  | _ => none

def find (s : Str) (pos : ℕ) : ℕ :=
  match findBraces (s.drop pos) with
  | some i => pos + i
  | none => npos

/-- `s.substr(pos, n)`, which throws `std::out_of_range` for a place behind the end. -/
def substr (s : Str) (pos n : ℕ) : Option Str :=
  if pos ≤ s.length then some ((s.drop pos).take n) else none

theorem findBraces_lt {s : Str} {i : ℕ} (h : findBraces s = some i) : i + 2 ≤ s.length := by
  induction s using findBraces.induct generalizing i with
  | case1 c d s hb =>
    rw [findBraces, if_pos hb] at h
    cases h
    simp
  | case2 c d s hb ih =>
    rw [findBraces, if_neg hb] at h
    obtain ⟨j, hj, rfl⟩ := Option.map_eq_some_iff.mp h
    have hlen := ih hj
    simp only [List.length_cons] at hlen ⊢
    omega
  | case3 s hs =>
    rw [findBraces] at h
    · cases h
    · exact hs

theorem find_bounds {s : Str} {pos : ℕ} (h : find s pos ≠ npos) :
    pos ≤ find s pos ∧ find s pos + 2 ≤ s.length := by
  unfold find at h ⊢
  cases hf : findBraces (s.drop pos) with
  | none => exact absurd (by rw [hf]) h
  | some i =>
    have hlt := findBraces_lt hf
    rw [List.length_drop] at hlt
    simp only
    omega

def segmentsFrom (format : StdString) (segBeginPos : ℕ) : Option (List Str) :=
  let segEndPos := find format.bytes segBeginPos
  match substr format.bytes segBeginPos ((segEndPos + 2 ^ 64 - segBeginPos) % 2 ^ 64) with
  | none => none
  | some seg =>
    -- behind the last segment `npos + 2` wraps around to one, but the loop has ended
    if h : segEndPos ≠ npos then
      (segmentsFrom format ((segEndPos + 2) % 2 ^ 64)).map (seg :: ·)
    else some [seg]
termination_by format.bytes.length - segBeginPos
decreasing_by
  have hb := find_bounds h
  have hf := format.fits
  unfold npos at hf
  rw [Nat.mod_eq_of_lt (by omega)]
  omega

def segments (format : StdString) : Option (List Str) := segmentsFrom format 0

inductive Dispatched where
  | done (oss : Str)
  | invalidArgument (what : Str)
  | derefEnd
  deriving DecidableEq, Repr

/-- The two `dispatch_r`. The iterator is the list of the segments from it on; the empty list
is `end`, and `*iter` there is undefined. -/
def dispatchR : List Str → Str → Str → List Str → Dispatched
  | [], _, _, _ => .derefEnd
  -- `*(++iter)` after the last argument
  | _ :: [], _, _, [] => .derefEnd
  | seg :: seg' :: iter, oss, last, [] =>
    if iter ≠ [] then .invalidArgument (ascii "not enough argument given")
    else .done (oss ++ seg ++ last ++ seg')
  | seg :: iter, oss, head, next :: tail => dispatchR iter (oss ++ seg ++ head) next tail

inductive Outcome where
  | returned
  | invalidArgument (what : Str)
  | outOfRange
  | derefEnd
  deriving DecidableEq, Repr

structure State where
  locked : Bool
  cerr : Str
  deriving DecidableEq, Repr

def stamp (time : Str) : Str := ascii "[" ++ time.dropLast ++ ascii "] "

/-- `log` with arguments, as the texts that `operator<<` makes of them; `none` where the
mutex is locked and the call waits for it. -/
def log (s : State) (time : Str) (format : StdString) (head : Str) (tail : List Str) :
    Option (Outcome × State) :=
  match segments format with
  | none => some (.outOfRange, s)
  | some segs =>
    if s.locked then none
    else
      let s : State := ⟨true, s.cerr ++ stamp time⟩
      -- an exception leaves from here, past `mutex.unlock()`
      match dispatchR segs [] head tail with
      | .done text => some (.returned, ⟨false, s.cerr ++ text ++ [newline]⟩)
      | .invalidArgument what => some (.invalidArgument what, s)
      | .derefEnd => some (.derefEnd, s)

def logMsg (s : State) (time msg : Str) : Option (Outcome × State) :=
  if s.locked then none
  else some (.returned, ⟨false, s.cerr ++ stamp time ++ msg ++ [newline]⟩)

def placeholders : Str → ℕ
  | c :: d :: s =>
    if c = lbrace ∧ d = rbrace then placeholders s + 1 else placeholders (d :: s)
  | _ => 0

def render : Str → List Str → Str
  | c :: d :: s, args =>
    if c = lbrace ∧ d = rbrace then args.headD [] ++ render s args.tail
    else c :: render (d :: s) args
  | s, _ => s

def pieces : Str → List Str
  | c :: d :: s =>
    if c = lbrace ∧ d = rbrace then [] :: pieces s else (pieces (d :: s)).modifyHead (c :: ·)
  | s => [s]

def weave : List Str → List Str → Str
  | p :: ps, a :: args => p ++ a ++ weave ps args
  | ps, _ => ps.flatten

theorem pieces_none {s : Str} (h : findBraces s = none) : pieces s = [s] := by
  induction s using findBraces.induct with
  | case1 c d s hb =>
    rw [findBraces, if_pos hb] at h
    cases h
  | case2 c d s hb ih =>
    rw [findBraces, if_neg hb, Option.map_eq_none_iff] at h
    rw [pieces, if_neg hb, ih h]
    rfl
  | case3 s hs =>
    rw [pieces]
    exact hs

theorem pieces_some {s : Str} {i : ℕ} (h : findBraces s = some i) :
    pieces s = s.take i :: pieces (s.drop (i + 2)) := by
  induction s using findBraces.induct generalizing i with
  | case1 c d s hb =>
    rw [findBraces, if_pos hb] at h
    cases h
    rw [pieces, if_pos hb]
    rfl
  | case2 c d s hb ih =>
    rw [findBraces, if_neg hb] at h
    obtain ⟨j, hj, rfl⟩ := Option.map_eq_some_iff.mp h
    rw [pieces, if_neg hb, ih hj]
    rfl
  | case3 s hs =>
    rw [findBraces] at h
    · cases h
    · exact hs

theorem segmentsFrom_eq (format : StdString) (pos : ℕ) (hpos : pos ≤ format.bytes.length) :
    segmentsFrom format pos = some (pieces (format.bytes.drop pos)) := by
  have hfits := format.fits
  unfold npos at hfits
  rw [segmentsFrom]
  simp only [substr, if_pos hpos]
  cases hf : findBraces (format.bytes.drop pos) with
  | none =>
    have hfind : find format.bytes pos = npos := by rw [find, hf]
    -- the count is cut off at the end of the text
    have hlen : (format.bytes.drop pos).length ≤ (npos + 2 ^ 64 - pos) % 2 ^ 64 := by
      rw [List.length_drop]
      unfold npos
      omega
    rw [hfind, dif_neg (by simp), pieces_none hf, List.take_of_length_le hlen]
  | some i =>
    have hlt : i + 2 ≤ format.bytes.length - pos := List.length_drop ▸ findBraces_lt hf
    have hfind : find format.bytes pos = pos + i := by rw [find, hf]
    have hne : pos + i ≠ npos := by
      unfold npos
      omega
    have hcount : (pos + i + 2 ^ 64 - pos) % 2 ^ 64 = i := by omega
    have hnext : (pos + i + 2) % 2 ^ 64 = pos + (i + 2) := by omega
    rw [hfind, dif_pos hne, hcount, hnext, segmentsFrom_eq format (pos + (i + 2)) (by omega),
      pieces_some hf, Option.map_some, List.drop_drop]
termination_by format.bytes.length - pos
decreasing_by omega

theorem segments_eq (format : StdString) : segments format = some (pieces format.bytes) :=
  segmentsFrom_eq format 0 (Nat.zero_le _)

theorem pieces_length (s : Str) : (pieces s).length = placeholders s + 1 := by
  induction s using pieces.induct with
  | case1 c d s hb ih => rw [pieces, if_pos hb, placeholders, if_pos hb, List.length_cons, ih]
  | case2 c d s hb ih =>
    rw [pieces, if_neg hb, placeholders, if_neg hb, List.length_modifyHead, ih]
  | case3 s hs =>
    rw [pieces, placeholders]
    · rfl
    · exact hs
    · exact hs

theorem weave_modifyHead (c : UInt8) {ps : List Str} (hps : ps ≠ []) (args : List Str) :
    weave (ps.modifyHead (c :: ·)) args = c :: weave ps args := by
  obtain ⟨p, ps, rfl⟩ := List.exists_cons_of_ne_nil hps
  cases args with
  | nil => rfl
  | cons a args => rfl

theorem pieces_ne_nil (s : Str) : pieces s ≠ [] := by
  intro h
  have hlen := pieces_length s
  rw [h] at hlen
  cases hlen

theorem weave_pieces (s : Str) (args : List Str) (h : args.length = placeholders s) :
    weave (pieces s) args = render s args := by
  induction s using pieces.induct generalizing args with
  | case1 c d s hb ih =>
    rw [placeholders, if_pos hb] at h
    obtain ⟨a, args, rfl⟩ := List.exists_cons_of_length_eq_add_one h
    rw [pieces, if_pos hb, render, if_pos hb, weave, ih args (by simpa using h)]
    rfl
  | case2 c d s hb ih =>
    rw [placeholders, if_neg hb] at h
    rw [pieces, if_neg hb, render, if_neg hb, weave_modifyHead c (pieces_ne_nil _), ih args h]
  | case3 s hs =>
    rw [placeholders] at h
    · rw [pieces, render, List.eq_nil_of_length_eq_zero h]
      · simp [weave]
      · exact hs
      · exact hs
    · exact hs

/-- The recursion over the arguments returns when there is one segment more than there are
arguments, throws when there are more than that, and reads `*end` when there are fewer. -/
theorem dispatchR_eq (iter : List Str) (oss head : Str) (tail : List Str) :
    (iter.length = tail.length + 2 →
      dispatchR iter oss head tail = .done (oss ++ weave iter (head :: tail))) ∧
    (tail.length + 2 < iter.length →
      dispatchR iter oss head tail = .invalidArgument (ascii "not enough argument given")) ∧
    (iter.length < tail.length + 2 → dispatchR iter oss head tail = .derefEnd) := by
  induction iter, oss, head, tail using dispatchR.induct with
  | case1 oss head tail => simp [dispatchR]
  | case2 seg oss head => simp [dispatchR]
  | case3 seg seg' iter oss last hi => simp [dispatchR, hi, weave]
  | case4 seg seg' iter oss last hi =>
    rw [not_not] at hi
    simp [dispatchR, hi, weave]
  | case5 seg iter oss head next tail ih =>
    obtain ⟨hdone, hthrow, hderef⟩ := ih
    simp only [dispatchR, List.length_cons]
    refine ⟨fun h => ?_, fun h => hthrow (by omega), fun h => hderef (by omega)⟩
    rw [hdone (by omega), weave]
    simp only [List.append_assoc]

theorem log_free (err time : Str) (format : StdString) (head : Str) (tail : List Str) :
    (placeholders format.bytes = tail.length + 1 →
      log ⟨false, err⟩ time format head tail = some (.returned,
        ⟨false, err ++ stamp time ++ render format.bytes (head :: tail) ++ [newline]⟩)) ∧
    (tail.length + 1 < placeholders format.bytes →
      log ⟨false, err⟩ time format head tail = some
        (.invalidArgument (ascii "not enough argument given"), ⟨true, err ++ stamp time⟩)) ∧
    (placeholders format.bytes < tail.length + 1 →
      log ⟨false, err⟩ time format head tail = some (.derefEnd, ⟨true, err ++ stamp time⟩)) := by
  have hlen := pieces_length format.bytes
  obtain ⟨hdone, hthrow, hderef⟩ := dispatchR_eq (pieces format.bytes) [] head tail
  refine ⟨fun h => ?_, fun h => ?_, fun h => ?_⟩
  · have hweave := weave_pieces format.bytes (head :: tail) (by simp [h])
    simp [log, segments_eq, hdone (by omega), hweave]
  · simp [log, segments_eq, hthrow (by omega)]
  · simp [log, segments_eq, hderef (by omega)]

theorem log_isSome (s : State) (time : Str) (format : StdString) (head : Str) (tail : List Str) :
    (log s time format head tail).isSome = !s.locked := by
  rw [log, segments_eq]
  cases hs : s.locked with
  | true => simp
  | false =>
    simp only
    cases dispatchR (pieces format.bytes) [] head tail <;> rfl

theorem logMsg_isSome (s : State) (time msg : Str) : (logMsg s time msg).isSome = !s.locked := by
  cases hs : s.locked <;> simp [logMsg, hs]

def Proceeds (s : State) : Prop :=
  (∀ time format head tail, (log s time format head tail).isSome = true) ∧
  ∀ time msg, (logMsg s time msg).isSome = true

theorem proceeds_iff (s : State) : Proceeds s ↔ s.locked = false := by
  simp only [Proceeds, log_isSome, logMsg_isSome, Bool.not_eq_true', forall_const]
  constructor
  · exact fun h => h.2
  · exact fun h => ⟨fun _ => h, h⟩

/-- A call on a free logger writes the format with the arguments in place of the `{}` when
there are as many of the one as of the other, throws `std::invalid_argument` when there are not,
and leaves the mutex unlocked. -/
def Formats (err time : Str) (format : StdString) (head : Str) (tail : List Str) : Prop :=
  ∃ outcome s, log ⟨false, err⟩ time format head tail = some (outcome, s) ∧
    (placeholders format.bytes = tail.length + 1 → outcome = .returned ∧
      s.cerr = err ++ stamp time ++ render format.bytes (head :: tail) ++ [newline]) ∧
    (placeholders format.bytes ≠ tail.length + 1 → ∃ what, outcome = .invalidArgument what) ∧
    s.locked = false ∧ Proceeds s

/-- The logger does so exactly when the counts agree: with more `{}` it throws and keeps the
mutex, and with fewer it reads behind the last segment. -/
theorem formats_iff (err time : Str) (format : StdString) (head : Str) (tail : List Str) :
    Formats err time format head tail ↔ placeholders format.bytes = tail.length + 1 := by
  obtain ⟨hreturn, hthrow, hderef⟩ := log_free err time format head tail
  constructor
  · rintro ⟨outcome, s, hlog, -, hne, hfree, -⟩
    by_contra h
    rcases Nat.lt_or_gt_of_ne h with hlt | hgt
    · rw [hderef hlt] at hlog
      cases hlog
      obtain ⟨what, hwhat⟩ := hne h
      cases hwhat
    · rw [hthrow hgt] at hlog
      cases hlog
      cases hfree
  · intro h
    exact ⟨.returned, _, hreturn h, fun _ => ⟨rfl, rfl⟩, fun hn => absurd h hn, rfl,
      (proceeds_iff _).mpr rfl⟩

/-- `{} {}` with one argument throws and no later call gets the mutex; `x` with one argument
reads the segment behind the last one. -/
theorem mismatch_not_formatted :
    ¬ (∀ err time format head tail, Formats err time format head tail) ∧
    log ⟨false, []⟩ [] ⟨[123, 125, 32, 123, 125], by decide⟩ [97] [] = some
      (.invalidArgument (ascii "not enough argument given"), ⟨true, stamp []⟩) ∧
    ¬ Proceeds ⟨true, stamp []⟩ ∧
    log ⟨false, []⟩ [] ⟨[120], by decide⟩ [97] [] = some (.derefEnd, ⟨true, stamp []⟩) := by
  have hthrow : log ⟨false, []⟩ [] ⟨[123, 125, 32, 123, 125], by decide⟩ [97] [] = some
      (.invalidArgument (ascii "not enough argument given"), ⟨true, stamp []⟩) :=
    (log_free [] [] ⟨[123, 125, 32, 123, 125], by decide⟩ [97] []).2.1 (by decide)
  refine ⟨fun h => ?_, hthrow, ?_, (log_free [] [] ⟨[120], by decide⟩ [97] []).2.2 (by decide)⟩
  · obtain ⟨outcome, s, hlog, -, -, hfree, -⟩ :=
      h [] [] ⟨[123, 125, 32, 123, 125], by decide⟩ [97] []
    rw [hthrow] at hlog
    cases hlog
    cases hfree
  · rw [proceeds_iff]
    decide

inductive Request where
  | text (time msg : Str)
  | formatted (time : Str) (format : StdString) (head : Str) (tail : List Str)

def request (s : State) : Request → Option State
  | .text time msg => (logMsg s time msg).map Prod.snd
  | .formatted time format head tail =>
    match log s time format head tail with
    | some (.derefEnd, _) => none
    | r => r.map Prod.snd

def Request.Matches : Request → Prop
  | .text _ _ => True
  | .formatted _ format _ tail => placeholders format.bytes = tail.length + 1

def Request.line : Request → Str
  | .text time msg => stamp time ++ msg ++ [newline]
  | .formatted time format head tail =>
    stamp time ++ render format.bytes (head :: tail) ++ [newline]

theorem request_matches (err : Str) {r : Request} (h : r.Matches) :
    request ⟨false, err⟩ r = some ⟨false, err ++ r.line⟩ := by
  cases r with
  | text time msg => simp [request, logMsg, Request.line]
  | formatted time format head tail =>
    have hlog := (log_free err time format head tail).1 h
    simp [request, hlog, Request.line]

theorem request_mismatch (err : Str) {r : Request} (h : ¬ r.Matches) {s : State}
    (hs : request ⟨false, err⟩ r = some s) : s.locked = true := by
  cases r with
  | text time msg => exact absurd trivial h
  | formatted time format head tail =>
    obtain ⟨-, hthrow, hderef⟩ := log_free err time format head tail
    rcases Nat.lt_or_gt_of_ne h with hlt | hgt
    · simp [request, hderef hlt] at hs
    · simp only [request, hthrow hgt, Option.map_some, Option.some.injEq] at hs
      rw [← hs]

theorem request_locked {s : State} (h : s.locked = true) (r : Request) : request s r = none := by
  cases r with
  | text time msg => simp [request, logMsg, h]
  | formatted time format head tail => simp [request, log, segments_eq, h]

/-- Calls from any number of threads, in the order in which they get the mutex: a further call
proceeds exactly when all calls before it had as many arguments as `{}`, and what it then finds
on `std::cerr` is their lines. -/
theorem run_requests (err : Str) (rs : List Request) :
    ((∃ s, Runs.run request ⟨false, err⟩ rs = some s ∧ Proceeds s) ↔ ∀ r ∈ rs, r.Matches) ∧
    ((∀ r ∈ rs, r.Matches) →
      Runs.run request ⟨false, err⟩ rs = some ⟨false, err ++ (rs.map Request.line).flatten⟩) := by
  induction rs generalizing err with
  | nil => simp [Runs.run, proceeds_iff]
  | cons r rs ih =>
    rw [List.forall_mem_cons]
    by_cases hr : r.Matches
    · obtain ⟨hiff, hlines⟩ := ih (err ++ r.line)
      simp only [Runs.run, request_matches err hr, Option.bind_some, hiff, hr, true_and]
      intro h
      rw [hlines h]
      simp
    · refine ⟨iff_of_false ?_ (fun h => hr h.1), fun h => absurd h.1 hr⟩
      rintro ⟨s, hrun, hs⟩
      obtain ⟨t, ht, hrun⟩ := Runs.run_cons hrun
      have hlocked := request_mismatch err hr ht
      cases rs with
      | nil =>
        cases hrun
        rw [proceeds_iff, hlocked] at hs
        cases hs
      | cons r' rs =>
        obtain ⟨u, hu, -⟩ := Runs.run_cons hrun
        rw [request_locked hlocked] at hu
        cases hu

end Wissbi.Logger
