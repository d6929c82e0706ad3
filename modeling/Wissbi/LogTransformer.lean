import Mathlib.Data.List.Count
import Wissbi.LogCollector
import Wissbi.MetricCollector

set_option autoImplicit false

namespace Wissbi.LogTransformer
open Buffers LineFormat LinePolicy LogCollector MetricCollector Streams Util

def tab : UInt8 := 9

def sepRe (line : Str) : Option Str :=
  let group := (line.drop 4).take (line.length - 8)
  if line = ascii "==> " ++ group ++ ascii " <==" ∧ group.head? = some slash ∧ newline ∉ group then
    some group
  else none

def record (hostname : Str) (event : Str × Str) : Str :=
  hostname ++ [tab] ++ event.1 ++ [tab] ++ event.2

/-- What the first `n` turns of the loop write, if it ends in them. -/
def loop (hostname : Str) : ℕ → Str → Str → Option Str
  | 0, _, _ => none
  | n + 1, currentLogger, input =>
    let (line, rest) := readline input
    if line.length = 0 then some []
    else
      let line := strip line
      if line.length = 0 then loop hostname n currentLogger rest
      else
        match sepRe line with
        | some file => loop hostname n file rest
        | none =>
          (loop hostname n currentLogger rest).map
            (record hostname (currentLogger, line) ++ [newline] ++ ·)

def contents (text : Str) : List Str := ((lines text).map strip).filter (· ≠ [])

/-- The lines that are not headers, each with the file of the header before it. -/
def scan : Str → List Str → List (Str × Str)
  | _, [] => []
  | current, l :: ls =>
    match sepRe l with
    | some file => scan file ls
    | none => (current, l) :: scan current ls

def write (hostname : Str) (events : List (Str × Str)) : Str :=
  events.flatMap fun e => record hostname e ++ [newline]

section
variable {s : Str}

theorem strip_newline (s : Str) : strip (s ++ [newline]) = strip s := by
  have hnewline : isSpace newline = true := by decide
  unfold strip
  rw [List.dropWhile_append]
  split_ifs with h
  · rw [List.isEmpty_iff] at h
    simp [h, hnewline]
  · rw [List.reverse_append, List.reverse_singleton, List.singleton_append,
      List.dropWhile_cons_of_pos hnewline]

theorem readline_eq (input : Str) :
    readline input = (head input ++ (tail input).take 1, (tail input).tail) := by
  unfold readline head tail
  simp only [List.drop_one]

theorem strip_readline (input : Str) : strip (readline input).1 = strip (head input) := by
  rw [readline_eq]
  cases ht : tail input with
  | nil => simp
  | cons c cs =>
    have hc : c = newline := by
      have := List.head?_dropWhile_not (· != newline) input
      unfold tail at ht
      rw [ht] at this
      simpa using this
    subst hc
    exact strip_newline _

theorem contents_cons {input : Str} (h : input ≠ []) :
    contents input =
      (if strip (head input) = [] then [] else [strip (head input)]) ++
        contents (tail input).tail := by
  unfold contents
  rw [lines_cons input h, List.map_cons, List.filter_cons]
  split_ifs <;> simp_all

/-- The loop ends with its input, and it has read the lines one after the other. -/
theorem loop_scan (hostname : Str) (n : ℕ) (current input : Str) (h : (lines input).length < n) :
    loop hostname n current input = some (write hostname (scan current (contents input))) := by
  induction n generalizing current input with
  | zero => omega
  | succ n ih =>
    by_cases hinput : input = []
    · subst hinput
      rfl
    · have hlen : ¬ (readline input).1.length = 0 := by
        rw [readline_eq, List.length_eq_zero_iff, List.append_eq_nil_iff]
        rintro ⟨hh, ht⟩
        rw [List.take_eq_nil_iff] at ht
        exact hinput (by rw [← head_tail input, hh, ht.resolve_left (by decide)]; rfl)
      have hlines := lines_cons input hinput
      have hrest : (lines (tail input).tail).length < n := by
        rw [hlines, List.length_cons] at h
        omega
      have hread : (readline input).2 = (tail input).tail := by rw [readline_eq]
      rw [loop]
      simp only [hlen, ↓reduceIte, strip_readline, hread, List.length_eq_zero_iff]
      rw [contents_cons hinput]
      by_cases hblank : strip (head input) = []
      · rw [if_pos hblank, if_pos hblank, List.nil_append]
        exact ih current _ hrest
      · rw [if_neg hblank, if_neg hblank, List.singleton_append, scan]
        cases sepRe (strip (head input)) with
        | some file => exact ih file _ hrest
        | none =>
          simp only [ih current _ hrest, Option.map_some]
          rfl

end

def header (file : Str) : Str := ascii "==> " ++ file ++ ascii " <=="

/-- What `tail -F` of several files prints, for the texts that it reads from them one after the
other; `last` is the file that it has read before. -/
def tailF : Option Str → List (Str × Str) → Str
  | _, [] => []
  | last, (file, text) :: rest =>
    (if last = some file then []
      else (if last = none then [] else [newline]) ++ header file ++ [newline]) ++
    text ++ tailF (some file) rest

/-- The same texts, with those that are read from one file in a row put together. -/
def sections (file text : Str) : List (Str × Str) → List (Str × Str)
  | [] => [(file, text)]
  | (next, more) :: rest =>
    if next = file then sections file (text ++ more) rest
    else (file, text) :: sections next more rest

def events (sections : List (Str × Str)) : List (Str × Str) :=
  sections.flatMap fun s => (contents s.2).map fun l => (s.1, l)

structure LogFile (file : Str) : Prop where
  absolute : file.head? = some slash
  whole : newline ∉ file

theorem sepRe_header {file : Str} (h : LogFile file) : sepRe (header file) = some file := by
  have hopen : ascii "==> " = [61, 61, 62, 32] := by decide
  have hclose : (ascii " <==").length = 4 := by decide
  have hgroup : ((header file).drop 4).take ((header file).length - 8) = file := by
    simp [header, hopen, hclose]
  unfold sepRe
  simp only [hgroup]
  exact if_pos ⟨rfl, h.absolute, h.whole⟩

theorem sepRe_whole {l file : Str} (h : sepRe l = some file) : newline ∉ file := by
  unfold sepRe at h
  simp only at h
  split_ifs at h with hl
  cases h
  exact hl.2.2

theorem lines_cons_of_ne {c : UInt8} (hc : c ≠ newline) {cs l : Str} {ls : List Str}
    (hl : lines cs = l :: ls) : lines (c :: cs) = (c :: l) :: ls := by
  rw [lines, if_neg hc, hl]

theorem lines_append_newline (t r : Str) :
    lines (t ++ newline :: r) = lines (t ++ [newline]) ++ lines r := by
  induction t with
  | nil => rfl
  | cons c cs ih =>
    by_cases hc : c = newline
    · simp only [List.cons_append, lines, hc, ↓reduceIte, ih]
    · have hne : lines (cs ++ [newline]) ≠ [] := fun h => by simpa using lines_eq_nil h
      obtain ⟨l, ls, hl⟩ := List.exists_cons_of_ne_nil hne
      rw [hl] at ih
      rw [List.cons_append, List.cons_append, lines_cons_of_ne hc ih, lines_cons_of_ne hc hl]
      rfl

theorem lines_newline (t : Str) :
    lines (t ++ [newline]) = lines t ++ if missing t = [] then [[]] else [] := by
  induction t with
  | nil => rfl
  | cons c cs ih =>
    by_cases hc : c = newline
    · rw [missing_cons (.inl hc), List.cons_append, lines, if_pos hc, ih, lines, if_pos hc]
      rfl
    · cases cs with
      | nil => simp [lines, hc, missing]
      | cons d ds =>
        have hne : lines (d :: ds) ≠ [] := fun h => by cases lines_eq_nil h
        obtain ⟨l, ls, hl⟩ := List.exists_cons_of_ne_nil hne
        rw [hl] at ih
        rw [missing_cons (.inr (List.cons_ne_nil d ds)), List.cons_append, lines_cons_of_ne hc ih,
          lines_cons_of_ne hc hl]
        rfl

theorem contents_append (t r : Str) : contents (t ++ newline :: r) = contents t ++ contents r := by
  unfold contents
  rw [lines_append_newline, lines_newline, List.map_append, List.filter_append, List.map_append,
    List.filter_append]
  split_ifs <;> simp [strip]

theorem newline_not_mem_header {file : Str} (h : LogFile file) : newline ∉ header file := by
  have hopen : newline ∉ ascii "==> " := by decide
  have hclose : newline ∉ ascii " <==" := by decide
  simp [header, hopen, hclose, h.whole]

theorem contents_header {file : Str} (h : LogFile file) (r : Str) :
    contents (header file ++ newline :: r) = header file :: contents r := by
  have hopen : ascii "==> " = [61, 61, 62, 32] := by decide
  have hclose : ascii " <==" = [32, 60, 61, 61] := by decide
  have hstrip : strip (header file) = header file := by
    refine (strip_line ?_ ?_ ?_).1
    · simp [header, hopen, isSpace, blank]
    · simp [header, hclose, isSpace, blank]
    · simp [header, hopen]
  have hne : header file ≠ [] := by simp [header, hopen]
  unfold contents
  rw [lines_enc _ _ (newline_not_mem_header h), List.map_cons, hstrip, List.filter_cons_of_pos]
  simpa using hne

def marked (sections : List (Str × Str)) : List Str :=
  sections.flatMap fun s => header s.1 :: contents s.2

theorem contents_tailF (file text : Str) (chunks : List (Str × Str))
    (h : ∀ c ∈ chunks, LogFile c.1) :
    header file :: contents (text ++ tailF (some file) chunks) =
      marked (sections file text chunks) := by
  induction chunks generalizing file text with
  | nil => simp [tailF, sections, marked]
  | cons c chunks ih =>
    obtain ⟨next, more⟩ := c
    have hnext := h (next, more) (by simp)
    have hrest : ∀ c ∈ chunks, LogFile c.1 := fun c hc => h c (by simp [hc])
    by_cases hf : next = file
    · subst hf
      rw [tailF, if_pos rfl, sections, if_pos rfl, ← ih next (text ++ more) hrest]
      simp
    · have hlast : ¬ some file = some next := fun he => hf (Option.some.inj he).symm
      rw [tailF, if_neg hlast, if_neg (Option.some_ne_none file), sections, if_neg hf]
      have hsplit : text ++ (([newline] ++ header next ++ [newline]) ++ more ++
          tailF (some next) chunks) =
          text ++ newline :: (header next ++ newline :: (more ++ tailF (some next) chunks)) := by
        simp
      rw [hsplit, contents_append, contents_header hnext, ih next more hrest]
      simp [marked]

theorem contents_start {file : Str} (hfile : LogFile file) (text : Str)
    (chunks : List (Str × Str)) (h : ∀ c ∈ chunks, LogFile c.1) :
    contents (tailF none ((file, text) :: chunks)) = marked (sections file text chunks) := by
  have hsplit : tailF none ((file, text) :: chunks) =
      header file ++ newline :: (text ++ tailF (some file) chunks) := by
    simp [tailF]
  rw [hsplit, contents_header hfile, contents_tailF file text chunks h]

theorem length_scan (current : Str) (ls : List Str) :
    (scan current ls).length = ls.countP fun l => (sepRe l).isNone := by
  induction ls generalizing current with
  | nil => rfl
  | cons l ls ih =>
    rw [scan]
    cases hl : sepRe l with
    | some file => simp [hl, ih]
    | none => simp [hl, ih]

theorem scan_append {file : Str} {ls : List Str} (h : ∀ l ∈ ls, sepRe l = none) (rest : List Str) :
    scan file (ls ++ rest) = (ls.map fun l => (file, l)) ++ scan file rest := by
  induction ls with
  | nil => rfl
  | cons l ls ih =>
    rw [List.forall_mem_cons] at h
    rw [List.cons_append, scan, h.1, List.map_cons, List.cons_append, ih h.2]

theorem scan_marked (current : Str) (secs : List (Str × Str)) (hfiles : ∀ s ∈ secs, LogFile s.1)
    (h : ∀ e ∈ events secs, sepRe e.2 = none) : scan current (marked secs) = events secs := by
  induction secs generalizing current with
  | nil => rfl
  | cons s secs ih =>
    rw [List.forall_mem_cons] at hfiles
    have hs : ∀ l ∈ contents s.2, sepRe l = none := fun l hl =>
      h (s.1, l) (List.mem_flatMap.mpr ⟨s, by simp, List.mem_map_of_mem hl⟩)
    have hrest : ∀ e ∈ events secs, sepRe e.2 = none := fun e he =>
      h e (List.mem_append_right _ he)
    have hmarked : marked (s :: secs) = header s.1 :: (contents s.2 ++ marked secs) := rfl
    rw [hmarked, scan, sepRe_header hfiles.1]
    exact (scan_append hs _).trans (congrArg _ (ih s.1 hfiles.2 hrest))

/-- The headers are not counted: what the loop writes is as much as the events that do not look
like one. -/
theorem length_scan_marked (current : Str) (secs : List (Str × Str))
    (hfiles : ∀ s ∈ secs, LogFile s.1) :
    (scan current (marked secs)).length = (events secs).countP fun e => (sepRe e.2).isNone := by
  rw [length_scan]
  induction secs with
  | nil => rfl
  | cons s secs ih =>
    rw [List.forall_mem_cons] at hfiles
    have hmarked : marked (s :: secs) = header s.1 :: (contents s.2 ++ marked secs) := rfl
    have hevents : events (s :: secs) = ((contents s.2).map fun l => (s.1, l)) ++ events secs := rfl
    rw [hmarked, hevents, List.countP_cons_of_neg (by simp [sepRe_header hfiles.1]),
      List.countP_append, List.countP_append, ih hfiles.2, List.countP_map]
    rfl

theorem newline_not_mem_lines (text : Str) : ∀ l ∈ lines text, newline ∉ l := by
  induction text with
  | nil => simp [lines]
  | cons c cs ih =>
    by_cases hc : c = newline
    · simpa [lines, hc] using ih
    · cases hl : lines cs with
      | nil => simpa [lines, hc, hl] using Ne.symm hc
      | cons l ls =>
        rw [hl, List.forall_mem_cons] at ih
        rw [lines_cons_of_ne hc hl, List.forall_mem_cons]
        exact ⟨by simpa [Ne.symm hc] using ih.1, ih.2⟩

theorem strip_subset (s : Str) : strip s ⊆ s := by
  intro c hc
  rw [strip, List.mem_reverse] at hc
  exact List.dropWhile_subset _ (List.mem_reverse.mp (List.dropWhile_subset _ hc))

theorem contents_line {text l : Str} (h : l ∈ contents text) :
    newline ∉ l ∧ l ≠ [] ∧ l ⊆ text ∧ ∀ c ∈ l.getLast?, isSpace c = false := by
  unfold contents at h
  rw [List.mem_filter, List.mem_map] at h
  obtain ⟨⟨line, hline, rfl⟩, hne⟩ := h
  have hwhole := newline_not_mem_lines text line hline
  refine ⟨fun hn => hwhole (strip_subset line hn), of_decide_eq_true hne, fun c hc => ?_, ?_⟩
  · have hc := strip_subset line hc
    have hmem : c ∈ text ++ missing text := by
      rw [← flatMap_lines]
      exact List.mem_flatMap.mpr ⟨line, hline, List.mem_append_left _ hc⟩
    refine (List.mem_append.mp hmem).resolve_right fun hm => hwhole ?_
    unfold missing at hm
    split_ifs at hm
    · cases hm
    · rwa [List.mem_singleton.mp hm] at hc
  · intro c hc
    have := List.head?_dropWhile_not isSpace (line.dropWhile isSpace).reverse
    rw [strip, List.getLast?_reverse] at hc
    rw [hc] at this
    simpa using this

theorem count_write {hostname : Str} (hhost : newline ∉ hostname) (es : List (Str × Str))
    (h : ∀ e ∈ es, newline ∉ e.1 ∧ newline ∉ e.2) :
    (write hostname es).count newline = es.length := by
  induction es with
  | nil => rfl
  | cons e es ih =>
    rw [List.forall_mem_cons] at h
    have htab : tab ≠ newline := by decide
    have hone : (record hostname e ++ [newline]).count newline = 1 := by
      simp [record, List.count_eq_zero_of_not_mem hhost, List.count_eq_zero_of_not_mem h.1.1,
        List.count_eq_zero_of_not_mem h.1.2, htab]
    have hwrite : write hostname (e :: es) =
      (record hostname e ++ [newline]) ++ write hostname es := rfl
    rw [hwrite, List.count_append, hone, ih h.2, List.length_cons, Nat.add_comm]

theorem scan_whole {current : Str} (hc : newline ∉ current) {ls : List Str}
    (h : ∀ l ∈ ls, newline ∉ l) : ∀ e ∈ scan current ls, newline ∉ e.1 ∧ newline ∉ e.2 := by
  induction ls generalizing current with
  | nil => simp [scan]
  | cons l ls ih =>
    rw [List.forall_mem_cons] at h
    rw [scan]
    cases hl : sepRe l with
    | some file => exact ih (sepRe_whole hl) h.2
    | none =>
      rw [List.forall_mem_cons]
      exact ⟨⟨hc, h.1⟩, ih hc h.2⟩

theorem mem_sections {file text : Str} {chunks : List (Str × Str)} {s : Str × Str}
    (h : s ∈ sections file text chunks) : s.1 ∈ file :: chunks.map Prod.fst := by
  induction chunks generalizing file text with
  | nil =>
    rw [List.mem_singleton.mp h]
    simp
  | cons c chunks ih =>
    obtain ⟨next, more⟩ := c
    rw [sections] at h
    split_ifs at h with hf
    · rcases List.mem_cons.mp (ih h) with hs | hs
      · simp [hs]
      · exact List.mem_cons_of_mem _ (List.mem_cons_of_mem _ hs)
    · rcases List.mem_cons.mp h with rfl | h
      · simp
      · exact List.mem_cons_of_mem _ (ih h)

theorem events_whole {secs : List (Str × Str)} (hfiles : ∀ s ∈ secs, LogFile s.1) :
    ∀ e ∈ events secs, newline ∉ e.1 ∧ newline ∉ e.2 := by
  intro e he
  obtain ⟨s, hs, he⟩ := List.mem_flatMap.mp he
  obtain ⟨l, hl, rfl⟩ := List.mem_map.mp he
  exact ⟨(hfiles s hs).whole, (contents_line hl).1⟩

section
variable (hostname file text : Str) (chunks : List (Str × Str))
  (hfiles : ∀ f ∈ file :: chunks.map Prod.fst, LogFile f)
include hfiles

theorem sections_files : ∀ s ∈ sections file text chunks, LogFile s.1 := fun s hs =>
  hfiles s.1 (mem_sections hs)

theorem loop_tailF (n : ℕ) (hn : (lines (tailF none ((file, text) :: chunks))).length < n) :
    loop hostname n [] (tailF none ((file, text) :: chunks)) =
      some (write hostname (scan [] (marked (sections file text chunks)))) := by
  have hchunks : ∀ c ∈ chunks, LogFile c.1 := fun c hc =>
    hfiles c.1 (List.mem_cons_of_mem _ (List.mem_map_of_mem hc))
  rw [loop_scan hostname n _ _ hn, contents_start (hfiles file (by simp)) text chunks hchunks]

theorem transformed (hclean : ∀ e ∈ events (sections file text chunks), sepRe e.2 = none) (n : ℕ)
    (hn : (lines (tailF none ((file, text) :: chunks))).length < n) :
    loop hostname n [] (tailF none ((file, text) :: chunks)) =
      some (write hostname (events (sections file text chunks))) := by
  rw [loop_tailF hostname file text chunks hfiles n hn,
    scan_marked [] _ (sections_files file text chunks hfiles) hclean]

/-- Every event is written once, in order and with the name of its file, exactly when no line of
the files reads like a header. Where a file ends within a line, the newline that `tail` prints
before its next header ends that line. -/
theorem attributed_iff (hhost : newline ∉ hostname) (n : ℕ)
    (hn : (lines (tailF none ((file, text) :: chunks))).length < n) :
    loop hostname n [] (tailF none ((file, text) :: chunks)) =
        some (write hostname (events (sections file text chunks))) ↔
      ∀ e ∈ events (sections file text chunks), sepRe e.2 = none := by
  have hsecs := sections_files file text chunks hfiles
  refine ⟨fun h => ?_, fun h => transformed hostname file text chunks hfiles h n hn⟩
  rw [loop_tailF hostname file text chunks hfiles n hn, Option.some.injEq] at h
  have hmarked : ∀ l ∈ marked (sections file text chunks), newline ∉ l := by
    intro l hl
    obtain ⟨s, hs, hl⟩ := List.mem_flatMap.mp hl
    rcases List.mem_cons.mp hl with rfl | hl
    · exact newline_not_mem_header (hsecs s hs)
    · exact (contents_line hl).1
  -- Equal texts have as many lines, and a line that is taken for a header would be missing.
  have hcount := congrArg (List.count newline) h
  rw [count_write hhost _ (scan_whole (by simp) hmarked), count_write hhost _ (events_whole hsecs),
    length_scan_marked _ _ hsecs, List.countP_eq_length] at hcount
  exact fun e he => Option.isNone_iff_eq_none.mp (hcount e he)

end

theorem open_line_attributed :
    loop (ascii "h") 12 [] (tailF none [(ascii "/a", ascii "x"), (ascii "/b", ascii " y\n\nz"),
        (ascii "/b", ascii "z \n")]) =
      some (ascii "h\t/a\tx\nh\t/b\ty\nh\t/b\tzz\n") := by
  have hfiles : ∀ f ∈ [ascii "/a", ascii "/b", ascii "/b"], LogFile f := by
    intro f hf
    obtain rfl | rfl : f = ascii "/a" ∨ f = ascii "/b" := by simpa using hf
    · exact ⟨by decide, by decide⟩
    · exact ⟨by decide, by decide⟩
  have hevents := (attributed_iff (ascii "h") (ascii "/a") (ascii "x")
    [(ascii "/b", ascii " y\n\nz"), (ascii "/b", ascii "z \n")] hfiles (by decide) 12
    (by decide)).mpr (by decide)
  exact hevents.trans (by decide)

end Wissbi.LogTransformer
