import Mathlib.Data.List.Perm.Basic
import Wissbi.FiniteMaps
import Wissbi.MetricCollector

set_option autoImplicit false

namespace Wissbi.FilterDaemons
open FiniteMaps LengthPolicy MetricCollector Streams Util

/-- What the shell does not take as it stands where it is not quoted: white space, the
characters of patterns and the backslash. -/
def special : Str := ascii "\t\n *?[\\"

structure Word where
  text : Str
  literal : text.all fun c => !special.contains c

def globs (pidPrefix : Word) (ending path : Str) : Bool :=
  let star := (path.drop (pidPrefix.text.length + 1)).take
    (path.length - (pidPrefix.text.length + 1) - ending.length)
  path == pidPrefix.text ++ minus :: star ++ ending && !star.contains slash

def pid : Str := ascii ".pid"
def pidWait : Str := ascii ".pid.wait"

def pidFile (pidPrefix : Word) (i : ℕ) : Str := pidPrefix.text ++ minus :: decimal i ++ pid

def waitFile (pidPrefix : Word) (i : ℕ) : Str := pidPrefix.text ++ minus :: decimal i ++ pidWait

def extraFile (pidPrefix : Word) (j : ℕ) : Str :=
  pidPrefix.text ++ minus :: (ascii "extra-" ++ decimal j) ++ pid

/-- The kernel gives every process a number of its own; `nextPid` is the next one. -/
structure State where
  files : List (Str × ℕ)
  /-- The numbers for which `stop` has called `kill`, each with the process it went to. -/
  signalled : List (ℕ × ℕ)
  /-- The numbers whose processes `stop` has seen die. -/
  waited : List ℕ
  /-- What was started to be killed, what was started to be waited for, and what feeds the FIFO
  sinks. -/
  sources : List ℕ
  pipelines : List ℕ
  sinks : List ℕ
  nextPid : ℕ

/-- `stop`. `descent` has the processes that `get_child_recursive` comes through below a number;
the last of them gets the signal. -/
def stop (pidPrefix : Word) (descent : ℕ → List ℕ) (s : State) : State :=
  { s with
    files := s.files.filter fun e => !globs pidPrefix pid e.1 && !globs pidPrefix pidWait e.1
    signalled := s.signalled ++ (s.files.filter fun e => globs pidPrefix pid e.1).map fun e =>
      (e.2, (descent e.2).getLastD e.2)
    waited := s.waited ++ (s.files.filter fun e => globs pidPrefix pidWait e.1).map Prod.snd }

/-- What the loop of `start` does that can be seen in the files: `mkfifo` of a name that the
environment gives, and processes in the background. Under `errexit` it ends with a `mkfifo` that
fails; those in a new directory do not fail. -/
inductive Cmd where
  | mkfifo
  | source (file : Str)
  | sink
  | pipeline (file : Str)

structure Config where
  pidPrefix : Word
  count : ℕ
  extraSources : ℕ
  extraSinks : ℕ

def turn (c : Config) (i : ℕ) : List Cmd :=
  (List.range c.extraSources).flatMap (fun j => [.mkfifo, .source (extraFile c.pidPrefix j)]) ++
  (List.range c.extraSinks).flatMap (fun _ => [.mkfifo, .sink]) ++
  [.source (pidFile c.pidPrefix i), .pipeline (waitFile c.pidPrefix i)]

def State.write (s : State) (file : Str) : State :=
  { s with files := (file, s.nextPid) :: discard file s.files }

def Cmd.file : Cmd → Option Str
  | .mkfifo => none
  | .source file => some file
  | .sink => none
  | .pipeline file => some file

def exec : (ℕ → Bool) → List Cmd → State → State
  | _, [], s => s
  | ok, .mkfifo :: rest, s => if ok 0 then exec (fun k => ok (k + 1)) rest s else s
  | ok, .source file :: rest, s =>
    exec ok rest { s.write file with sources := s.nextPid :: s.sources, nextPid := s.nextPid + 1 }
  | ok, .sink :: rest, s =>
    -- its number is written nowhere
    exec ok rest { s with sinks := s.nextPid :: s.sinks, nextPid := s.nextPid + 1 }
  | ok, .pipeline file :: rest, s =>
    exec ok rest { s.write file with
      pipelines := s.nextPid :: s.pipelines, nextPid := s.nextPid + 1 }

def start (c : Config) (ok : ℕ → Bool) (s : State) : State :=
  exec ok ((List.range' 1 c.count).flatMap (turn c)) s

/-- The script with `start` or `restart`, which do the same, or with `stop`. -/
inductive Act where
  | start (c : Config) (descent : ℕ → List ℕ) (ok : ℕ → Bool)
  | stop (pidPrefix : Word) (descent : ℕ → List ℕ)

def Act.pidPrefix : Act → Word
  | .start c _ _ => c.pidPrefix
  | .stop pidPrefix _ => pidPrefix

def step (s : State) : Act → State
  | .start c descent ok => FilterDaemons.start c ok (FilterDaemons.stop c.pidPrefix descent s)
  | .stop pidPrefix descent => FilterDaemons.stop pidPrefix descent s

def run (s : State) (acts : List Act) : State := acts.foldl step s

theorem globs_iff (p : Word) (ending path : Str) :
    globs p ending path = true ↔
      ∃ star, path = p.text ++ minus :: star ++ ending ∧ slash ∉ star := by
  unfold globs
  simp only [Bool.and_eq_true, beq_iff_eq, Bool.not_eq_true', List.contains_eq_mem,
    decide_eq_false_iff_not]
  constructor
  · rintro ⟨hpath, hslash⟩
    exact ⟨_, hpath, hslash⟩
  · rintro ⟨star, rfl, hslash⟩
    have hstar : ((p.text ++ minus :: star ++ ending).drop (p.text.length + 1)).take
        ((p.text ++ minus :: star ++ ending).length - (p.text.length + 1) - ending.length) =
        star := by
      have hlen : (p.text ++ minus :: star ++ ending).length - (p.text.length + 1) - ending.length =
          star.length := by
        simp
        omega
      have hdrop : (p.text ++ minus :: star ++ ending).drop (p.text.length + 1) =
          star ++ ending := by
        simp
      rw [hlen, hdrop]
      simp
    rw [hstar]
    exact ⟨rfl, hslash⟩

def Clobbers (p q : Word) : Prop := q.text = p.text ∨ ∃ x, q.text = p.text ++ minus :: x ∧ slash ∉ x

theorem split_last {c : UInt8} {p q x y : Str} (h : c ∉ x) :
    p ++ c :: x = q ++ c :: y ↔ (p = q ∧ x = y) ∨ ∃ z, p = q ++ c :: z ∧ y = z ++ c :: x := by
  constructor
  · intro he
    rcases List.append_eq_append_iff.mp he with ⟨a, rfl, ha⟩ | ⟨a, rfl, ha⟩
    · cases a with
      | nil =>
        rw [List.nil_append, List.cons.injEq] at ha
        exact .inl ⟨(List.append_nil p).symm, ha.2⟩
      | cons d a =>
        rw [List.cons_append, List.cons.injEq] at ha
        exact absurd (by rw [ha.2]; simp) h
    · cases a with
      | nil =>
        rw [List.nil_append, List.cons.injEq] at ha
        exact .inl ⟨List.append_nil q, ha.2.symm⟩
      | cons d a =>
        rw [List.cons_append, List.cons.injEq] at ha
        exact .inr ⟨a, by rw [ha.1], ha.2⟩
  · rintro (⟨rfl, rfl⟩ | ⟨z, rfl, rfl⟩)
    · rfl
    · simp

theorem globs_pidFile (p q : Word) (i : ℕ) : globs p pid (pidFile q i) = true ↔ Clobbers p q := by
  have hminus : minus ∉ decimal i := not_mem_decimal i minus (by decide)
  have hslash : slash ∉ decimal i := not_mem_decimal i slash (by decide)
  have hne : minus ≠ slash := by decide
  rw [globs_iff]
  unfold Clobbers pidFile
  constructor
  · rintro ⟨star, hstar, hs⟩
    rcases (split_last hminus).mp (List.append_cancel_right hstar) with ⟨he, -⟩ | ⟨z, he, rfl⟩
    · exact .inl he
    · exact .inr ⟨z, he, fun hz => hs (List.mem_append_left _ hz)⟩
  · rintro (he | ⟨x, he, hx⟩)
    · exact ⟨decimal i, by rw [he], hslash⟩
    · refine ⟨x ++ minus :: decimal i, by rw [he]; simp, ?_⟩
      simp [hx, hslash, hne.symm]

theorem not_both_endings {path : Str} (h : pid <:+ path) : ¬ pidWait <:+ path := by
  rintro ⟨y, rfl⟩
  obtain ⟨x, hx⟩ := h
  have hlast := congrArg List.getLast? hx
  rw [List.getLast?_append_of_ne_nil _ (by decide), List.getLast?_append_of_ne_nil _ (by decide)]
    at hlast
  exact absurd hlast (by decide)

theorem suffix_of_globs {p : Word} {ending path : Str} (h : globs p ending path = true) :
    ending <:+ path := by
  obtain ⟨star, rfl, -⟩ := (globs_iff p ending path).mp h
  exact ⟨_, rfl⟩

/-- No file names a process twice, and no process that was signalled. -/
structure Sound (s : State) : Prop where
  keys : (s.files.map Prod.fst).Nodup
  pids : (s.files.map Prod.snd).Nodup
  fresh : ∀ e ∈ s.files, e.2 < s.nextPid
  past : ∀ n ∈ s.signalled.map Prod.fst, n < s.nextPid
  live : ∀ e ∈ s.files, e.2 ∉ s.signalled.map Prod.fst

theorem mem_stop {p : Word} {descent : ℕ → List ℕ} {s : State} {e : Str × ℕ} :
    e ∈ (stop p descent s).files ↔
      e ∈ s.files ∧ globs p pid e.1 = false ∧ globs p pidWait e.1 = false := by
  simp [stop]

theorem mem_stop_signalled {p : Word} {descent : ℕ → List ℕ} {s : State} {n : ℕ} :
    n ∈ (stop p descent s).signalled.map Prod.fst ↔
      n ∈ s.signalled.map Prod.fst ∨ ∃ f, (f, n) ∈ s.files ∧ globs p pid f = true := by
  simp only [stop, List.map_append, List.mem_append, List.map_map]
  refine or_congr_right ⟨fun h => ?_, fun ⟨f, hmem, hf⟩ => ?_⟩
  · obtain ⟨e, he, rfl⟩ := List.mem_map.mp h
    rw [List.mem_filter] at he
    exact ⟨e.1, he⟩
  · exact List.mem_map.mpr ⟨(f, n), List.mem_filter.mpr ⟨hmem, hf⟩, rfl⟩

theorem stop_sound {s : State} (h : Sound s) (p : Word) (descent : ℕ → List ℕ) :
    Sound (stop p descent s) where
  keys := h.keys.sublist (List.filter_sublist.map _)
  pids := h.pids.sublist (List.filter_sublist.map _)
  fresh := fun e he => h.fresh e (mem_stop.mp he).1
  past := by
    intro n hn
    rcases mem_stop_signalled.mp hn with hn | ⟨f, hf, -⟩
    · exact h.past n hn
    · exact h.fresh _ hf
  live := by
    intro e he hn
    obtain ⟨hmem, hpid, -⟩ := mem_stop.mp he
    rcases mem_stop_signalled.mp hn with hn | ⟨f, hf, hglob⟩
    · exact h.live e hmem hn
    · have heq : e = (f, e.2) := List.inj_on_of_nodup_map h.pids hmem hf rfl
      rw [heq, hglob] at hpid
      cases hpid

theorem mem_discard {f : Str} {files : List (Str × ℕ)} {e : Str × ℕ} :
    e ∈ discard f files ↔ e ∈ files ∧ e.1 ≠ f := by
  simp [FiniteMaps.discard]

theorem write_sound {s : State} (h : Sound s) (f : Str) (sources pipelines : List ℕ) :
    Sound { s.write f with
      sources := sources, pipelines := pipelines, nextPid := s.nextPid + 1 } where
  keys := by
    refine List.nodup_cons.mpr ⟨fun hf => ?_, h.keys.sublist (List.filter_sublist.map _)⟩
    obtain ⟨e, he, hef⟩ := List.mem_map.mp hf
    exact (mem_discard.mp he).2 hef
  pids := by
    refine List.nodup_cons.mpr ⟨fun hn => ?_, h.pids.sublist (List.filter_sublist.map _)⟩
    obtain ⟨e, he, hen⟩ := List.mem_map.mp hn
    have := h.fresh e (mem_discard.mp he).1
    simp only at hen
    omega
  fresh := by
    intro e he
    rcases List.mem_cons.mp he with rfl | he
    · exact Nat.lt_succ_self _
    · exact Nat.lt_succ_of_lt (h.fresh e (mem_discard.mp he).1)
  past := fun n hn => Nat.lt_succ_of_lt (h.past n hn)
  live := by
    intro e he hn
    rcases List.mem_cons.mp he with rfl | he
    · exact Nat.lt_irrefl _ (h.past _ hn)
    · exact h.live e (mem_discard.mp he).1 hn

theorem exec_keeps (P : State → Prop) {cmds : List Cmd}
    (hwrite : ∀ s f sources pipelines, some f ∈ cmds.map Cmd.file → P s →
      P { s.write f with sources := sources, pipelines := pipelines, nextPid := s.nextPid + 1 })
    (hsink : ∀ s : State, P s →
      P { s with sinks := s.nextPid :: s.sinks, nextPid := s.nextPid + 1 }) (ok : ℕ → Bool)
    {s : State} (h : P s) : P (exec ok cmds s) := by
  induction cmds generalizing ok s with
  | nil => exact h
  | cons c cmds ih =>
    have hrest := ih fun s f sources pipelines hf =>
      hwrite s f sources pipelines (List.mem_cons_of_mem _ hf)
    cases c with
    | mkfifo =>
      rw [exec]
      split_ifs
      · exact hrest _ h
      · exact h
    | source f => exact hrest ok (hwrite s f _ _ List.mem_cons_self h)
    | sink => exact hrest ok (hsink s h)
    | pipeline f => exact hrest ok (hwrite s f _ _ List.mem_cons_self h)

theorem sink_sound {s : State} (h : Sound s) :
    Sound { s with sinks := s.nextPid :: s.sinks, nextPid := s.nextPid + 1 } :=
  ⟨h.keys, h.pids, fun e he => Nat.lt_succ_of_lt (h.fresh e he),
    fun n hn => Nat.lt_succ_of_lt (h.past n hn), h.live⟩

theorem exec_sound {s : State} (h : Sound s) (ok : ℕ → Bool) (cmds : List Cmd) :
    Sound (exec ok cmds s) :=
  exec_keeps Sound (fun _ f _ _ _ hs => write_sound hs f _ _) (fun _ hs => sink_sound hs) ok h

theorem step_sound {s : State} (h : Sound s) (a : Act) : Sound (step s a) := by
  cases a with
  | start c descent ok => exact exec_sound (stop_sound h _ descent) ok _
  | stop p descent => exact stop_sound h p descent

theorem exec_signalled (ok : ℕ → Bool) (cmds : List Cmd) (s : State) :
    (exec ok cmds s).signalled = s.signalled :=
  exec_keeps (fun t => t.signalled = s.signalled) (fun _ _ _ _ _ h => h) (fun _ h => h) ok rfl

theorem write_lookup {s : State} {f g : Str} (h : g ≠ f) :
    (s.write f).files.lookup g = s.files.lookup g := by
  rw [State.write, List.lookup_cons, beq_false_of_ne h]
  refine (lookup_filter_key s.files (fun k => decide (k ≠ f)) g).trans ?_
  rw [if_pos (by simpa using h)]

theorem exec_lookup (ok : ℕ → Bool) (cmds : List Cmd) (s : State) (g : Str)
    (h : some g ∉ cmds.map Cmd.file) : (exec ok cmds s).files.lookup g = s.files.lookup g := by
  refine exec_keeps (fun t => t.files.lookup g = s.files.lookup g) (fun t f _ _ hf ht => ?_)
    (fun _ ht => ht) ok rfl
  exact (write_lookup fun he : g = f => h (by rwa [he])).trans ht

theorem mem_turn {c : Config} {i : ℕ} {f : Str} :
    some f ∈ (turn c i).map Cmd.file ↔
      (∃ j < c.extraSources, f = extraFile c.pidPrefix j) ∨ f = pidFile c.pidPrefix i ∨
        f = waitFile c.pidPrefix i := by
  simp only [turn, List.map_append, List.map_flatMap, List.mem_append, List.mem_flatMap,
    List.mem_range, List.map_cons, List.map_nil, List.mem_cons, Cmd.file, List.not_mem_nil,
    or_false, Option.some.injEq, reduceCtorEq, false_or, and_false, exists_false]

theorem globs_turn {c : Config} {i : ℕ} {f : Str} (h : some f ∈ (turn c i).map Cmd.file) :
    globs c.pidPrefix pid f = true ∨ globs c.pidPrefix pidWait f = true := by
  have hdecimal : ∀ n, slash ∉ decimal n := fun n => not_mem_decimal n slash (by decide)
  have hextra : slash ∉ ascii "extra-" := by decide
  rcases mem_turn.mp h with ⟨j, -, rfl⟩ | rfl | rfl
  · exact .inl ((globs_iff ..).mpr ⟨_, rfl, by simp [hdecimal, hextra]⟩)
  · exact .inl ((globs_iff ..).mpr ⟨_, rfl, hdecimal i⟩)
  · exact .inr ((globs_iff ..).mpr ⟨_, rfl, hdecimal i⟩)

theorem pid_suffix_pidFile (p : Word) (i : ℕ) : pid <:+ pidFile p i := ⟨_, rfl⟩

theorem globs_wait_pidFile (p q : Word) (i : ℕ) : globs p pidWait (pidFile q i) = false := by
  rw [Bool.eq_false_iff]
  exact fun h => not_both_endings (pid_suffix_pidFile q i) (suffix_of_globs h)

theorem stop_lookup {s : State} {p q : Word} (descent : ℕ → List ℕ) {i : ℕ}
    (h : ¬ Clobbers p q) : (stop p descent s).files.lookup (pidFile q i) =
      s.files.lookup (pidFile q i) := by
  have hpid : globs p pid (pidFile q i) = false := by
    rw [Bool.eq_false_iff]
    exact fun hg => h ((globs_pidFile p q i).mp hg)
  refine (lookup_filter_key s.files (fun k => !globs p pid k && !globs p pidWait k) _).trans ?_
  rw [if_pos (by simp [hpid, globs_wait_pidFile])]

theorem step_lookup {s : State} {a : Act} {q : Word} {i : ℕ} (h : ¬ Clobbers a.pidPrefix q) :
    (step s a).files.lookup (pidFile q i) = s.files.lookup (pidFile q i) := by
  cases a with
  | stop p descent => exact stop_lookup descent h
  | start c descent ok =>
    refine (exec_lookup ok _ _ _ fun hfile => ?_).trans (stop_lookup descent h)
    obtain ⟨cmd, hcmd, hfile⟩ := List.mem_map.mp hfile
    obtain ⟨k, -, hcmd⟩ := List.mem_flatMap.mp hcmd
    have hglob := globs_turn (List.mem_map.mpr ⟨cmd, hcmd, hfile⟩)
    rw [globs_pidFile, globs_wait_pidFile] at hglob
    exact h (hglob.resolve_right (by decide))

theorem step_signalled {s : State} {a : Act} {n : ℕ} :
    n ∈ (step s a).signalled.map Prod.fst ↔
      n ∈ s.signalled.map Prod.fst ∨ ∃ f, (f, n) ∈ s.files ∧ globs a.pidPrefix pid f = true := by
  cases a with
  | stop p descent => exact mem_stop_signalled
  | start c descent ok =>
    rw [step, FilterDaemons.start, exec_signalled]
    exact mem_stop_signalled

/-- What was started is on record where `stop` looks for it, or `stop` has dealt with it. -/
structure Tracked (s : State) : Prop where
  sources : ∀ n ∈ s.sources,
    (∃ f, (f, n) ∈ s.files ∧ pid <:+ f) ∨ n ∈ s.signalled.map Prod.fst
  pipelines : ∀ n ∈ s.pipelines, (∃ f, (f, n) ∈ s.files ∧ pidWait <:+ f) ∨ n ∈ s.waited

theorem stop_tracked {s : State} (h : Tracked s) (p : Word) (descent : ℕ → List ℕ) :
    Tracked (stop p descent s) where
  sources := by
    intro n hn
    rcases h.sources n hn with ⟨f, hf, hend⟩ | hsig
    · have hwait : globs p pidWait f = false := by
        rw [Bool.eq_false_iff]
        exact fun hg => not_both_endings hend (suffix_of_globs hg)
      cases hg : globs p pid f with
      | true => exact .inr (mem_stop_signalled.mpr (.inr ⟨f, hf, hg⟩))
      | false => exact .inl ⟨f, mem_stop.mpr ⟨hf, hg, hwait⟩, hend⟩
    · exact .inr (mem_stop_signalled.mpr (.inl hsig))
  pipelines := by
    intro n hn
    rcases h.pipelines n hn with ⟨f, hf, hend⟩ | hdead
    · have hpid : globs p pid f = false := by
        rw [Bool.eq_false_iff]
        exact fun hg => not_both_endings (suffix_of_globs hg) hend
      cases hg : globs p pidWait f with
      | true =>
        refine .inr (List.mem_append_right _ (List.mem_map.mpr ⟨(f, n), ?_, rfl⟩))
        exact List.mem_filter.mpr ⟨hf, hg⟩
      | false => exact .inl ⟨f, mem_stop.mpr ⟨hf, hpid, hg⟩, hend⟩
    · exact .inr (List.mem_append_left _ hdead)

/-- The commands write each file once, none that is there, and with the ending it should have. -/
structure Records (s : State) (cmds : List Cmd) : Prop where
  once : (cmds.filterMap Cmd.file).Nodup
  new : ∀ f ∈ cmds.filterMap Cmd.file, f ∉ s.files.map Prod.fst
  sources : ∀ f, .source f ∈ cmds → pid <:+ f
  pipelines : ∀ f, .pipeline f ∈ cmds → pidWait <:+ f

theorem write_recorded {s : State} {f ending : Str} {n : ℕ} {P : Prop}
    (hf : f ∉ s.files.map Prod.fst) (h : (∃ g, (g, n) ∈ s.files ∧ ending <:+ g) ∨ P) :
    (∃ g, (g, n) ∈ (s.write f).files ∧ ending <:+ g) ∨ P := by
  refine h.imp ?_ id
  rintro ⟨g, hg, hend⟩
  refine ⟨g, List.mem_cons_of_mem _ (mem_discard.mpr ⟨hg, fun he => hf ?_⟩), hend⟩
  exact he ▸ List.mem_map_of_mem hg

theorem Records.write {s t : State} {c : Cmd} {cmds : List Cmd} {f : Str}
    (h : Records s (c :: cmds)) (hc : c.file = some f) (ht : t.files = (s.write f).files) :
    Records t cmds := by
  have honce := h.once
  rw [List.filterMap_cons_some hc, List.nodup_cons] at honce
  refine ⟨honce.2, fun g hg hmem => ?_, fun g hg => h.sources g (List.mem_cons_of_mem _ hg),
    fun g hg => h.pipelines g (List.mem_cons_of_mem _ hg)⟩
  rw [ht] at hmem
  obtain ⟨e, he, rfl⟩ := List.mem_map.mp hmem
  rcases List.mem_cons.mp he with rfl | he
  · exact honce.1 hg
  · refine h.new e.1 ?_ (List.mem_map_of_mem (mem_discard.mp he).1)
    rw [List.filterMap_cons_some hc]
    exact List.mem_cons_of_mem _ hg

theorem Records.skip {s t : State} {c : Cmd} {cmds : List Cmd} (h : Records s (c :: cmds))
    (hc : c.file = none) (ht : t.files = s.files) : Records t cmds := by
  have honce := h.once
  have hnew := h.new
  rw [List.filterMap_cons_none hc] at honce hnew
  exact ⟨honce, fun f hf => ht ▸ hnew f hf, fun g hg => h.sources g (List.mem_cons_of_mem _ hg),
    fun g hg => h.pipelines g (List.mem_cons_of_mem _ hg)⟩

theorem exec_tracked {s : State} (h : Tracked s) (ok : ℕ → Bool) (cmds : List Cmd)
    (hr : Records s cmds) : Tracked (exec ok cmds s) := by
  induction cmds generalizing ok s with
  | nil => exact h
  | cons c cmds ih =>
    cases c with
    | mkfifo =>
      rw [exec]
      split_ifs
      · exact ih h _ (hr.skip rfl rfl)
      · exact h
    | sink =>
      have hnext : Tracked { s with sinks := s.nextPid :: s.sinks, nextPid := s.nextPid + 1 } :=
        ⟨h.sources, h.pipelines⟩
      exact ih hnext ok (hr.skip rfl rfl)
    | source f =>
      have hf : f ∉ s.files.map Prod.fst := hr.new f (by simp [Cmd.file])
      refine ih ⟨fun n hn => ?_, fun n hn => ?_⟩ ok (hr.write rfl rfl)
      · rcases List.mem_cons.mp hn with rfl | hn
        · exact .inl ⟨f, List.mem_cons_self, hr.sources f List.mem_cons_self⟩
        · exact write_recorded hf (h.sources n hn)
      · exact write_recorded hf (h.pipelines n hn)
    | pipeline f =>
      have hf : f ∉ s.files.map Prod.fst := hr.new f (by simp [Cmd.file])
      refine ih ⟨fun n hn => ?_, fun n hn => ?_⟩ ok (hr.write rfl rfl)
      · exact write_recorded hf (h.sources n hn)
      · rcases List.mem_cons.mp hn with rfl | hn
        · exact .inl ⟨f, List.mem_cons_self, hr.pipelines f List.mem_cons_self⟩
        · exact write_recorded hf (h.pipelines n hn)

theorem files_turn (c : Config) (i : ℕ) :
    (turn c i).filterMap Cmd.file = (List.range c.extraSources).map (extraFile c.pidPrefix) ++
      [pidFile c.pidPrefix i, waitFile c.pidPrefix i] := by
  have hsources : ((List.range c.extraSources).flatMap fun j => [Cmd.mkfifo,
      Cmd.source (extraFile c.pidPrefix j)]).filterMap Cmd.file =
      (List.range c.extraSources).map (extraFile c.pidPrefix) := by
    rw [List.filterMap_flatMap, List.map_eq_flatMap]
    rfl
  have hsinks : ((List.range c.extraSinks).flatMap fun _ => [Cmd.mkfifo,
      Cmd.sink]).filterMap Cmd.file = [] := by
    rw [List.filterMap_flatMap]
    exact List.flatMap_eq_nil_iff.mpr fun _ _ => rfl
  rw [turn, List.filterMap_append, List.filterMap_append, hsources, hsinks, List.append_nil]
  rfl

theorem pidFile_injective {p : Word} {i j : ℕ} (h : pidFile p i = pidFile p j) : i = j := by
  unfold pidFile at h
  rw [List.append_cancel_right_eq, List.append_cancel_left_eq, List.cons.injEq] at h
  exact decimal_injective i j h.2

theorem waitFile_injective {p : Word} {i j : ℕ} (h : waitFile p i = waitFile p j) : i = j := by
  unfold waitFile at h
  rw [List.append_cancel_right_eq, List.append_cancel_left_eq, List.cons.injEq] at h
  exact decimal_injective i j h.2

theorem pidFile_ne_waitFile (p q : Word) (i j : ℕ) : pidFile p i ≠ waitFile q j := fun h =>
  not_both_endings (pid_suffix_pidFile p i) (h ▸ ⟨_, rfl⟩)

theorem nodup_turn (c : Config) (i : ℕ) : ((turn c i).filterMap Cmd.file).Nodup := by
  rw [files_turn, List.nodup_append]
  refine ⟨List.nodup_range.map fun j k h => ?_, ?_, ?_⟩
  · unfold extraFile at h
    rw [List.append_cancel_right_eq, List.append_cancel_left_eq, List.cons.injEq,
      List.append_cancel_left_eq] at h
    exact decimal_injective j k h.2
  · simpa using pidFile_ne_waitFile c.pidPrefix c.pidPrefix i i
  · intro f hf g hg hfg
    subst hfg
    obtain ⟨j, -, rfl⟩ := List.mem_map.mp hf
    rcases List.mem_cons.mp hg with he | he
    · unfold extraFile pidFile at he
      rw [List.append_cancel_right_eq, List.append_cancel_left_eq, List.cons.injEq] at he
      have hmem : minus ∈ decimal i := he.2 ▸ List.mem_append_left _ (by decide)
      exact not_mem_decimal i minus (by decide) hmem
    · rw [List.mem_singleton] at he
      exact not_both_endings ⟨_, rfl⟩ (he ▸ ⟨_, rfl⟩ : pidWait <:+ extraFile c.pidPrefix j)

/-- One filter with extra sources, or any number of filters without. -/
def Config.Simple (c : Config) : Prop := c.extraSources = 0 ∨ c.count ≤ 1

theorem nodup_start {c : Config} (h : c.Simple) :
    (((List.range' 1 c.count).flatMap (turn c)).filterMap Cmd.file).Nodup := by
  rw [List.filterMap_flatMap, List.nodup_flatMap]
  refine ⟨fun i _ => nodup_turn c i, ?_⟩
  rcases h with h | h
  · refine (List.nodup_range').imp fun {i j} hij f hi hj => hij ?_
    simp only [files_turn, h, List.range_zero, List.map_nil, List.nil_append, List.mem_cons,
      List.not_mem_nil, or_false] at hi hj
    rcases hi with rfl | rfl
    · exact pidFile_injective (hj.resolve_right (pidFile_ne_waitFile _ _ _ _))
    · exact waitFile_injective (hj.resolve_left (pidFile_ne_waitFile _ _ _ _).symm)
  · obtain h0 | h1 : c.count = 0 ∨ c.count = 1 := by omega
    · rw [h0]
      exact List.Pairwise.nil
    · rw [h1]
      exact List.pairwise_singleton ..

theorem start_records {c : Config} (h : c.Simple) (descent : ℕ → List ℕ) (s : State) :
    Records (stop c.pidPrefix descent s) ((List.range' 1 c.count).flatMap (turn c)) where
  once := nodup_start h
  new := by
    intro f hf hmem
    obtain ⟨cmd, hcmd, hfile⟩ := List.mem_filterMap.mp hf
    obtain ⟨i, -, hcmd⟩ := List.mem_flatMap.mp hcmd
    obtain ⟨e, he, rfl⟩ := List.mem_map.mp hmem
    obtain ⟨-, hpid, hwait⟩ := mem_stop.mp he
    rcases globs_turn (List.mem_map.mpr ⟨cmd, hcmd, hfile⟩) with hg | hg
    · rw [hg] at hpid
      cases hpid
    · rw [hg] at hwait
      cases hwait
  sources := by
    intro f hf
    obtain ⟨i, -, hf⟩ := List.mem_flatMap.mp hf
    simp only [turn, List.mem_append, List.mem_flatMap, List.mem_cons, List.not_mem_nil, or_false,
      reduceCtorEq, false_or, and_false, exists_false, Cmd.source.injEq] at hf
    rcases hf with ⟨j, -, rfl⟩ | rfl
    · exact ⟨_, rfl⟩
    · exact ⟨_, rfl⟩
  pipelines := by
    intro f hf
    obtain ⟨i, -, hf⟩ := List.mem_flatMap.mp hf
    simp only [turn, List.mem_append, List.mem_flatMap, List.mem_cons, List.not_mem_nil, or_false,
      reduceCtorEq, false_or, and_false, exists_false, Cmd.pipeline.injEq] at hf
    exact hf ▸ ⟨_, rfl⟩

def Act.Simple : Act → Prop
  | .start c _ _ => c.Simple
  | .stop _ _ => True

theorem step_tracked {s : State} (h : Tracked s) {a : Act} (ha : a.Simple) :
    Tracked (step s a) := by
  cases a with
  | start c descent ok =>
    exact exec_tracked (stop_tracked h _ descent) ok _ (start_records ha descent s)
  | stop p descent => exact stop_tracked h p descent

theorem run_sound {s : State} (h : Sound s) (acts : List Act) : Sound (run s acts) := by
  induction acts generalizing s with
  | nil => exact h
  | cons a acts ih => exact ih (step_sound h a)

theorem run_tracked {s : State} (h : Tracked s) {acts : List Act} (ha : ∀ a ∈ acts, a.Simple) :
    Tracked (run s acts) := by
  induction acts generalizing s with
  | nil => exact h
  | cons a acts ih =>
    rw [List.forall_mem_cons] at ha
    exact ih (step_tracked h ha.1) ha.2

theorem run_signalled {s : State} {n : ℕ} (h : n ∈ s.signalled.map Prod.fst) (acts : List Act) :
    n ∈ (run s acts).signalled.map Prod.fst := by
  induction acts generalizing s with
  | nil => exact h
  | cons a acts ih => exact ih (step_signalled.mpr (.inl h))

def Supervised (s : State) (p : Word) (i n : ℕ) : Prop :=
  s.files.lookup (pidFile p i) = some n ∧ n ∉ s.signalled.map Prod.fst

theorem supervised_of_lookup {s : State} (hs : Sound s) {p : Word} {i n : ℕ}
    (h : s.files.lookup (pidFile p i) = some n) : Supervised s p i n :=
  ⟨h, hs.live _ ((lookup_iff_mem hs.keys _ _).mp h)⟩

theorem run_supervised_iff {s : State} (hs : Sound s) {p : Word} {i n : ℕ}
    (h : s.files.lookup (pidFile p i) = some n) (acts : List Act) :
    Supervised (run s acts) p i n ↔ ∀ a ∈ acts, ¬ Clobbers a.pidPrefix p := by
  induction acts generalizing s with
  | nil => exact iff_of_true (supervised_of_lookup hs h) (by simp)
  | cons a acts ih =>
    rw [List.forall_mem_cons]
    by_cases hc : Clobbers a.pidPrefix p
    · have hmem := (lookup_iff_mem hs.keys _ _).mp h
      have hsig : n ∈ (step s a).signalled.map Prod.fst :=
        step_signalled.mpr (.inr ⟨_, hmem, (globs_pidFile _ p i).mpr hc⟩)
      exact iff_of_false (fun hr => hr.2 (run_signalled hsig acts)) (fun hn => hn.1 hc)
    · rw [and_iff_right hc]
      exact ih (step_sound hs a) ((step_lookup hc).trans h)

theorem start_lookup (p : Word) (descent : ℕ → List ℕ) (ok : ℕ → Bool) (s : State) :
    (step s (.start ⟨p, 1, 0, 0⟩ descent ok)).files.lookup (pidFile p 1) = some s.nextPid := by
  have hcmds : (List.range' 1 1).flatMap (turn ⟨p, 1, 0, 0⟩) =
      [.source (pidFile p 1), .pipeline (waitFile p 1)] := rfl
  rw [step, FilterDaemons.start, hcmds]
  simp only [exec]
  apply (write_lookup (pidFile_ne_waitFile p p 1 1)).trans
  rw [State.write, List.lookup_cons_self]
  rfl

def lower : Str := ascii "abcdefghijklmnopqrstuvwxyz0123456789._-/"
def upper : Str := ascii "ABCDEFGHIJKLMNOPQRSTUVWXYZ"

/-- An item of the section `forwarderd`, as `ConfigParser` gives it: the first name is not empty and
in lower case. No shell that reads the names changes them, and the file of the generated script is
none that the template would take for a pid file. -/
structure Rule where
  src : Str
  dst : Str
  src_named : src ≠ []
  src_literal : src.all lower.contains
  dst_literal : dst.all (lower ++ upper).contains
  apart : (ascii "wsbforwarderd-").isPrefixOf (src ++ minus :: dst) = false

def Rule.name (r : Rule) : Str := replace slash sharp (r.src ++ minus :: r.dst)

theorem Rule.name_literal (r : Rule) :
    (ascii "/tmp/wsbforwarderd-" ++ r.name).all fun c => !special.contains c := by
  have hpath : (ascii "/tmp/wsbforwarderd-").all fun c => !special.contains c := by decide
  have hminus : special.contains minus = false := by decide
  have hsharp : special.contains sharp = false := by decide
  have hplain : (lower ++ upper).all fun c => !special.contains c := by decide
  have hsrc : ∀ c ∈ r.src ++ r.dst, special.contains c = false := by
    intro c hc
    have hmem : c ∈ lower ++ upper := by
      rcases List.mem_append.mp hc with hc | hc
      · apply List.mem_append_left
        exact List.contains_iff_mem.mp (List.all_eq_true.mp r.src_literal c hc)
      · exact List.contains_iff_mem.mp (List.all_eq_true.mp r.dst_literal c hc)
    simpa using List.all_eq_true.mp hplain c hmem
  rw [List.all_append, hpath, Bool.true_and, List.all_eq_true]
  intro c hc
  obtain ⟨d, hd, rfl⟩ := List.mem_map.mp hc
  have hd' : d ∈ r.src ++ r.dst ∨ d = minus := by
    rw [List.mem_append, List.mem_cons] at hd
    rw [List.mem_append]
    tauto
  split_ifs
  · rw [hsharp, Bool.not_false]
  · rcases hd' with hd | rfl
    · rw [hsrc d hd, Bool.not_false]
    · rw [hminus, Bool.not_false]

def Rule.word (r : Rule) : Word := ⟨ascii "/tmp/wsbforwarderd-" ++ r.name, r.name_literal⟩

def forwarderd (descent : Rule → ℕ → List ℕ) (rules : List Rule) : List Act :=
  rules.map fun r => .start ⟨r.word, 1, 0, 0⟩ (descent r) fun _ => true

def Hits (r r' : Rule) : Prop := r'.name = r.name ∨ r.name ++ [minus] <+: r'.name

theorem clobbers_word (r r' : Rule) : Clobbers r.word r'.word ↔ Hits r r' := by
  have hslash : slash ∉ r'.name := not_mem_replace slash sharp _ (by decide)
  unfold Clobbers Hits Rule.word
  simp only [List.append_assoc, List.append_cancel_left_eq]
  refine or_congr_right ⟨?_, ?_⟩
  · rintro ⟨x, hx, -⟩
    exact ⟨x, by rw [hx]; simp⟩
  · rintro ⟨x, hx⟩
    refine ⟨x, by rw [← hx]; simp, fun hs => hslash ?_⟩
    exact hx ▸ List.mem_append_right _ hs

theorem started (descent : Rule → ℕ → List ℕ) {s : State} (hs : Sound s) (before : List Rule)
    (r : Rule) (after : List Rule) :
    ∃ n, Supervised (run s (forwarderd descent (before ++ [r]))) r.word 1 n ∧
      (Supervised (run s (forwarderd descent (before ++ r :: after))) r.word 1 n ↔
        ∀ x ∈ after, ¬ Hits x r) := by
  have hfirst : run s (forwarderd descent (before ++ [r])) =
      step (run s (forwarderd descent before)) (.start ⟨r.word, 1, 0, 0⟩ (descent r)
        fun _ => true) := by
    simp [run, forwarderd]
  have hall : run s (forwarderd descent (before ++ r :: after)) =
      run (run s (forwarderd descent (before ++ [r]))) (forwarderd descent after) := by
    simp [run, forwarderd]
  have hsound := run_sound hs (forwarderd descent (before ++ [r]))
  have hlookup : (run s (forwarderd descent (before ++ [r]))).files.lookup (pidFile r.word 1) =
      some (run s (forwarderd descent before)).nextPid := by
    rw [hfirst]
    exact start_lookup ..
  refine ⟨_, supervised_of_lookup hsound hlookup, ?_⟩
  rw [hall, run_supervised_iff hsound hlookup]
  simp only [← clobbers_word, forwarderd, List.forall_mem_map]
  rfl

end Wissbi.FilterDaemons
