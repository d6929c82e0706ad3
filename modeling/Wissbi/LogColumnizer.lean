import Wissbi.LogTransformer

set_option autoImplicit false

namespace Wissbi.LogColumnizer
open Buffers LineFormat LinePolicy LogCollector LogTransformer Streams TcpFraming TcpPolicy Util

/-- A byte that `read` has taken, and whether a backslash stood before it. -/
structure Taken where
  byte : UInt8
  escaped : Bool

def nul : UInt8 := 0

/-- The bytes of one logical line and what follows it, after a backslash or not; `none` when the
input ends before a newline. The shell drops NUL bytes. -/
def logicalLine : Bool → Str → Option (List Taken × Str)
  | _, [] => none
  | escaped, c :: rest =>
    if c = nul then logicalLine escaped rest
    else if escaped ∧ c = newline then logicalLine false rest
    else if escaped then (logicalLine false rest).map fun r => (⟨c, true⟩ :: r.1, r.2)
    else if c = newline then some ([], rest)
    else if c = backslash then logicalLine true rest
    else (logicalLine false rest).map fun r => (⟨c, false⟩ :: r.1, r.2)

def Taken.isIfs (t : Taken) : Bool :=
  !t.escaped && (t.byte == blank || t.byte == tab || t.byte == newline)

def read (input : Str) : Option (Str × Str) :=
  (logicalLine false input).map fun r =>
    (((r.1.dropWhile Taken.isIfs).reverse.dropWhile Taken.isIfs).reverse.map Taken.byte, r.2)

def rows : ℕ → Str → List Str
  | 0, _ => []
  | n + 1, input =>
    match read input with
    | none => []
    | some (line, rest) => line :: rows n rest

/-- What is handed to `column`, one list for each time that `BUFFER` is printed: when it has more
lines than half the height of the terminal, and at the end. The layout of a page is left out. -/
def pages (termHeight : ℕ) : List Str → List Str → List (List Str)
  | buffer, [] => if buffer.length > 0 then [buffer] else []
  | buffer, line :: lines =>
    if (buffer ++ [line]).length > termHeight / 2 then
      (buffer ++ [line]) :: pages termHeight [] lines
    else pages termHeight (buffer ++ [line]) lines

/-- What `read` can give back: it has no backslash and no NUL, and no white space at its ends. -/
structure Plain (s : Str) : Prop where
  no_newline : newline ∉ s
  no_backslash : backslash ∉ s
  no_nul : nul ∉ s
  first : ∀ c ∈ s.head?, isSpace c = false
  last : ∀ c ∈ s.getLast?, isSpace c = false

def plain (s : Str) : List Taken := s.map fun c => ⟨c, false⟩

theorem logicalLine_newline (rest : Str) : logicalLine false (newline :: rest) = some ([], rest) := by
  have hne : newline ≠ nul := by decide
  simp [logicalLine, hne]

theorem logicalLine_joined (rest : Str) :
    logicalLine false (backslash :: newline :: rest) = logicalLine false rest := by
  have hne : backslash ≠ newline ∧ backslash ≠ nul ∧ newline ≠ nul := by decide
  simp [logicalLine, hne]

theorem logicalLine_append {s : Str} (hn : newline ∉ s) (hb : backslash ∉ s) (hz : nul ∉ s)
    (rest : Str) : logicalLine false (s ++ rest) =
      (logicalLine false rest).map fun r => (plain s ++ r.1, r.2) := by
  induction s with
  | nil => simp [plain]
  | cons c cs ih =>
    rw [List.mem_cons, not_or] at hn hb hz
    rw [List.cons_append, logicalLine]
    simp only [Ne.symm hn.1, Ne.symm hb.1, Ne.symm hz.1, ↓reduceIte, Bool.false_eq_true, false_and,
      ih hn.2 hb.2 hz.2, Option.map_map]
    rfl

theorem logicalLine_substitute (line : List Character) (hb : backslash ∉ encode line)
    (hz : nul ∉ encode line) (rest : Str) :
    logicalLine false (substitute line ++ newline :: rest) = some (plain (encode line), rest) := by
  fun_induction substitute line with
  | case1 line hw ih =>
    have hsplit : encode line = encode (line.take width) ++ encode (line.drop width) := by
      rw [encode, encode, encode, ← List.flatMap_append, List.take_append_drop]
    rw [hsplit, List.mem_append, not_or] at hb hz
    have hjoin : encode (line.take width) ++ [backslash, newline] ++ substitute (line.drop width) ++
        newline :: rest = encode (line.take width) ++ (backslash :: newline ::
        (substitute (line.drop width) ++ newline :: rest)) := by simp
    rw [hjoin, logicalLine_append (newline_not_mem_encode _) hb.1 hz.1, logicalLine_joined,
      ih hb.2 hz.2, hsplit]
    simp [plain]
  | case2 line hw =>
    rw [logicalLine_append (newline_not_mem_encode line) hb hz, logicalLine_newline]
    simp

theorem dropWhile_plain {s : Str} (h : ∀ c ∈ s.head?, isSpace c = false) :
    (plain s).dropWhile Taken.isIfs = plain s := by
  cases s with
  | nil => rfl
  | cons c cs =>
    have hc : isSpace c = false := h c rfl
    have hifs : Taken.isIfs ⟨c, false⟩ = false := by
      rw [Bool.eq_false_iff]
      intro ht
      have hcases : (c = blank ∨ c = tab) ∨ c = newline := by simpa [Taken.isIfs] using ht
      rcases hcases with (rfl | rfl) | rfl <;> cases hc
    simp [plain, hifs]

theorem read_sed {line : List Character} (h : Plain (encode line)) (rest : Str) :
    read (sed line ++ rest) = some (encode line, rest) := by
  have hback : (plain (encode line)).reverse = plain (encode line).reverse := by
    simp [plain]
  have hbytes : ∀ s, (plain s).map Taken.byte = s := by
    intro s
    rw [plain, List.map_map]
    exact List.map_id s
  unfold read sed
  rw [List.append_assoc, List.singleton_append, logicalLine_substitute line h.no_backslash
    h.no_nul, Option.map_some, dropWhile_plain h.first, hback, dropWhile_plain, ← hback,
    List.reverse_reverse, hbytes]
  rw [List.head?_reverse]
  exact h.last

theorem rows_sed {cs : List (List Character)} (h : ∀ line ∈ cs, Plain (encode line)) {n : ℕ}
    (hn : cs.length ≤ n) : rows n (cs.flatMap sed) = cs.map encode := by
  induction cs generalizing n with
  | nil => cases n <;> rfl
  | cons line cs ih =>
    rw [List.forall_mem_cons] at h
    cases n with
    | zero => cases hn
    | succ n =>
      rw [List.flatMap_cons, rows, read_sed h.1]
      exact congrArg _ (ih h.2 (Nat.le_of_succ_le_succ hn))

theorem lines_flatMap_sed (cs : List (List Character)) :
    lines (cs.flatMap sed) = cs.flatMap pieces := by
  induction cs with
  | nil => rfl
  | cons line cs ih =>
    rw [List.flatMap_cons, List.flatMap_cons, ← ih, ← lines_sed, sed, List.append_assoc,
      List.singleton_append, lines_append_newline]

theorem missing_flatMap_sed (cs : List (List Character)) : missing (cs.flatMap sed) = [] := by
  rcases List.eq_nil_or_concat cs with rfl | ⟨cs, line, rfl⟩
  · rfl
  · rw [missing, if_pos]
    simp [sed]

def Published (msgs : List MsgBuf) (cs : List (List Character)) : Prop :=
  msgs.map MsgBuf.data = lines (cs.flatMap sed) ∧ ∀ msg ∈ msgs, msg.len ≠ 0

theorem published_iff (cs : List (List Character)) (buf : MsgBuf) :
    Published (gets LinePolicy.get (lines (cs.flatMap sed)).length
      (IStream.ofBytes (cs.flatMap sed)) buf) cs ↔ ∀ line ∈ cs, Fits line := by
  have hfits : (∀ line ∈ cs, Fits line) ↔
      ∀ l ∈ lines (cs.flatMap sed), l ≠ [] ∧ l.length ≤ maxMsgSize - 1 := by
    rw [lines_flatMap_sed]
    simp only [← pieces_fit_iff, List.mem_flatMap]
    exact ⟨fun h l ⟨line, hline, hl⟩ => h line hline l hl, fun h line hline l hl =>
      h l ⟨line, hline, hl⟩⟩
  rw [hfits]
  constructor
  · rintro ⟨hdata, hlen⟩ l hl
    have hread := gets_lines (lines (cs.flatMap sed)).length _ buf (clean_ofBytes (cs.flatMap sed))
    rw [hdata] at hread
    have hl' := hl
    rw [← hdata, List.mem_map] at hl'
    obtain ⟨msg, hmsg, rfl⟩ := hl'
    refine ⟨fun hnil => hlen msg hmsg ((data_eq_nil msg).mp hnil), ?_⟩
    rw [hread] at hl
    simpa using List.mem_takeWhile_imp (List.mem_of_mem_take hl)
  · intro h
    have hdata := gets_fitting (cs.flatMap sed) buf fun l hl => (h l hl).2
    refine ⟨hdata, fun msg hmsg hz => ?_⟩
    have hmem : msg.data ∈ lines (cs.flatMap sed) := hdata ▸ List.mem_map_of_mem hmsg
    exact (h _ hmem).1 ((data_eq_nil msg).mpr hz)

theorem lines_flatMap_enc {ls : List Str} (h : ∀ l ∈ ls, newline ∉ l) :
    lines (ls.flatMap enc) = ls := by
  induction ls with
  | nil => rfl
  | cons l ls ih =>
    rw [List.forall_mem_cons] at h
    rw [List.flatMap_cons, enc, List.append_assoc, List.singleton_append, lines_enc _ _ h.1, ih h.2]

theorem sections_avoid {c : UInt8} {file text : Str} {chunks : List (Str × Str)} (ht : c ∉ text)
    (hchunks : ∀ x ∈ chunks, c ∉ x.2) : ∀ s ∈ sections file text chunks, c ∉ s.2 := by
  induction chunks generalizing file text with
  | nil => simpa [sections] using ht
  | cons x chunks ih =>
    obtain ⟨next, more⟩ := x
    rw [List.forall_mem_cons] at hchunks
    rw [sections]
    split_ifs with hf
    · exact ih (by simpa using ⟨ht, hchunks.1⟩) hchunks.2
    · rw [List.forall_mem_cons]
      exact ⟨ht, ih hchunks.1 hchunks.2⟩

theorem pages_lines (termHeight : ℕ) (buffer lines : List Str)
    (h : buffer.length ≤ termHeight / 2) :
    (pages termHeight buffer lines).flatten = buffer ++ lines ∧
    ∀ page ∈ pages termHeight buffer lines,
      0 < page.length ∧ page.length ≤ termHeight / 2 + 1 := by
  induction lines generalizing buffer with
  | nil =>
    rw [pages]
    split_ifs with hb
    · simp only [List.flatten_singleton, List.append_nil, List.mem_singleton, forall_eq, true_and]
      omega
    · have hnil : buffer = [] := List.eq_nil_of_length_eq_zero (by omega)
      simp [hnil]
  | cons line lines ih =>
    have hlen : (buffer ++ [line]).length = buffer.length + 1 := by simp
    rw [pages]
    split_ifs with hb
    · obtain ⟨hflat, hpages⟩ := ih [] (by simp)
      rw [List.flatten_cons, hflat, List.forall_mem_cons]
      exact ⟨by simp, by omega, hpages⟩
    · obtain ⟨hflat, hpages⟩ := ih (buffer ++ [line]) (by omega)
      exact ⟨by rw [hflat]; simp, hpages⟩

theorem plain_record {hostname : Str} (hhost : Plain hostname) (hne : hostname ≠ [])
    {e : Str × Str} (hfile : newline ∉ e.1 ∧ backslash ∉ e.1 ∧ nul ∉ e.1) (hline : newline ∉ e.2)
    (hb : backslash ∉ e.2) (hz : nul ∉ e.2) (hl : e.2 ≠ [])
    (hlast : ∀ c ∈ e.2.getLast?, isSpace c = false) : Plain (record hostname e) := by
  have htab : newline ≠ tab ∧ backslash ≠ tab ∧ nul ≠ tab := by decide
  refine ⟨?_, ?_, ?_, ?_, ?_⟩
  · simp [record, hhost.no_newline, hfile.1, hline, htab.1]
  · simp [record, hhost.no_backslash, hfile.2.1, hb, htab.2.1]
  · simp [record, hhost.no_nul, hfile.2.2, hz, htab.2.2]
  · have hhead : (record hostname e).head? = hostname.head? := by
      simp only [record, List.append_assoc]
      exact List.head?_append_of_ne_nil _ hne
    rw [hhead]
    exact hhost.first
  · rw [record, List.getLast?_append_of_ne_nil _ hl]
    exact hlast

/-- From the log files to the terminal. When no line of the files reads like a header or has a
backslash or a NUL in it, the collector's output can be published exactly when every line of it
fits; the pages that the columnizer makes of what a subscriber prints then have the events of the
files, each one once and whole, in order and with its file. -/
theorem logs_read_back (hostname : Str) (hhost : Plain hostname) (hne : hostname ≠ [])
    (file text : Str) (chunks : List (Str × Str))
    (hfiles : ∀ f ∈ file :: chunks.map Prod.fst, LogFile f ∧ backslash ∉ f ∧ nul ∉ f)
    (htexts : ∀ x ∈ text :: chunks.map Prod.snd, backslash ∉ x ∧ nul ∉ x)
    (hclean : ∀ e ∈ events (sections file text chunks), sepRe e.2 = none) (n : ℕ)
    (hn : (lines (tailF none ((file, text) :: chunks))).length < n) :
    ∃ out, loop hostname n [] (tailF none ((file, text) :: chunks)) = some out ∧
      ∀ cs : List (List Character), (cs.map encode).flatMap enc = out → ∀ buf,
        let msgs := gets LinePolicy.get (lines (cs.flatMap sed)).length
          (IStream.ofBytes (cs.flatMap sed)) buf
        (Published msgs cs ↔ ∀ line ∈ cs, Fits line) ∧
        (Published msgs cs → ∀ k, cs.length ≤ k → ∀ termHeight,
          let shown := pages termHeight [] (rows k ((msgs.map MsgBuf.data).flatMap enc))
          shown.flatten = (events (sections file text chunks)).map (record hostname) ∧
          ∀ page ∈ shown, 0 < page.length ∧ page.length ≤ termHeight / 2 + 1) := by
  have hlogs : ∀ f ∈ file :: chunks.map Prod.fst, LogFile f := fun f hf => (hfiles f hf).1
  have hout := transformed hostname file text chunks hlogs hclean n hn
  refine ⟨_, hout, fun cs hcs buf => ⟨published_iff cs buf, fun hpub k hk termHeight => ?_⟩⟩
  have hplain : ∀ e ∈ events (sections file text chunks), Plain (record hostname e) := by
    intro e he
    obtain ⟨s, hs, he⟩ := List.mem_flatMap.mp he
    obtain ⟨l, hl, rfl⟩ := List.mem_map.mp he
    obtain ⟨hline, hl, hsub, hlast⟩ := contents_line hl
    have hfile := hfiles s.1 (mem_sections hs)
    simp only [List.forall_mem_cons, List.forall_mem_map] at htexts
    have hb := sections_avoid htexts.1.1 (fun x hx => (htexts.2 x hx).1) s hs
    have hz := sections_avoid htexts.1.2 (fun x hx => (htexts.2 x hx).2) s hs
    exact plain_record hhost hne ⟨hfile.1.whole, hfile.2⟩ hline (fun h => hb (hsub h))
      (fun h => hz (hsub h)) hl hlast
  have hrecords : cs.map encode = (events (sections file text chunks)).map (record hostname) := by
    have hwrite : write hostname (events (sections file text chunks)) =
        ((events (sections file text chunks)).map (record hostname)).flatMap enc := by
      rw [write, List.flatMap_map]
      rfl
    rw [hwrite] at hcs
    have hlines := congrArg lines hcs
    rwa [lines_flatMap_enc, lines_flatMap_enc] at hlines
    · intro l hl
      obtain ⟨e, he, rfl⟩ := List.mem_map.mp hl
      exact (hplain e he).no_newline
    · intro l hl
      obtain ⟨line, -, rfl⟩ := List.mem_map.mp hl
      exact newline_not_mem_encode line
  have hencoded : ∀ line ∈ cs, Plain (encode line) := by
    intro line hline
    have hmem : encode line ∈ cs.map encode := List.mem_map_of_mem hline
    rw [hrecords, List.mem_map] at hmem
    obtain ⟨e, he, heq⟩ := hmem
    exact heq ▸ hplain e he
  rw [hpub.1, flatMap_lines, missing_flatMap_sed, List.append_nil, rows_sed hencoded hk, hrecords]
  exact pages_lines termHeight [] _ (Nat.zero_le _)

def singles (line : Str) : List Character :=
  line.filterMap fun c =>
    if h : newline = c then none else some ⟨[c], List.cons_ne_nil c [], by simpa using h⟩

theorem encode_singles {line : Str} (h : newline ∉ line) : encode (singles line) = line := by
  induction line with
  | nil => rfl
  | cons c cs ih =>
    rw [List.mem_cons, not_or] at h
    have hcons : singles (c :: cs) =
        ⟨[c], List.cons_ne_nil c [], by simpa using h.1⟩ :: singles cs := by
      simp [singles, h.1]
    rw [hcons]
    exact congrArg (c :: ·) (ih h.2)

theorem short_line_read_back :
    let cs := [singles (ascii "h\t/a\tx y")]
    let msgs := gets LinePolicy.get (lines (cs.flatMap sed)).length
      (IStream.ofBytes (cs.flatMap sed)) ⟨0, fun _ => 0, 0⟩
    Published msgs cs ∧
    (pages 24 [] (rows 1 ((msgs.map MsgBuf.data).flatMap enc))).flatten =
      [ascii "h\t/a\tx y"] := by
  intro cs msgs
  have hcs : cs.map encode = [ascii "h\t/a\tx y"] := by
    rw [List.map_singleton, encode_singles (by decide)]
  have hspace : isSpace 104 = false := by decide
  have hhost : Plain (ascii "h") :=
    ⟨by decide, by decide, by decide, by simpa [ascii] using hspace, by simpa [ascii] using hspace⟩
  obtain ⟨out, hout, hread⟩ := logs_read_back (ascii "h") hhost (by decide) (ascii "/a")
    (ascii "  x y \n") []
    (fun f hf => by
      obtain rfl : f = ascii "/a" := by simpa using hf
      exact ⟨⟨by decide, by decide⟩, by decide⟩)
    (fun x hx => by
      obtain rfl : x = ascii "  x y \n" := by simpa using hx
      decide) (by decide) 9 (by decide)
  have hlines : (cs.map encode).flatMap enc = out := by
    rw [hcs]
    refine Option.some.inj (Eq.trans ?_ hout)
    decide
  have hfits : ∀ line ∈ cs, Fits line := by
    intro line hline
    rw [List.mem_singleton.mp hline]
    have hshort : (singles (ascii "h\t/a\tx y")).length < width := by decide
    rw [← pieces_fit_iff, pieces, if_neg (Nat.not_le.mpr hshort), encode_singles (by decide)]
    decide
  obtain ⟨hpub, hrows⟩ := hread cs hlines ⟨0, fun _ => 0, 0⟩
  exact ⟨hpub.mpr hfits, (hrows (hpub.mpr hfits) 1 (by decide) 24).1.trans (by decide)⟩

end Wissbi.LogColumnizer
