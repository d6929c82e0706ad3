import Wissbi.Interleavings
import Wissbi.Logger
import Wissbi.ThreadPool

set_option autoImplicit false

namespace Wissbi.LoggerThreads
open Interleavings Logger Runs Streams ThreadPool Util

/-- The texts that a call puts on `std::cerr`, which has no buffer, one after the other while it has
the mutex, and whether it comes to `mutex.unlock()`. -/
def texts : Request → List Str × Bool
  | .text time msg => ([ascii "[", time.dropLast, ascii "] ", msg, [newline]], true)
  | .formatted time format head tail =>
    -- the arguments are dispatched after the time is out
    match (segments format).map fun segs => dispatchR segs [] head tail with
    | some (.done text) => ([ascii "[", time.dropLast, ascii "] ", text, [newline]], true)
    | _ => ([ascii "[", time.dropLast, ascii "] "], false)

inductive Phase where
  | outside
  | inside (r : Request) (left : List Str)
  | thrown (r : Request)

structure Thread where
  todo : List Request
  phase : Phase

structure State where
  locked : Bool
  cerr : Str
  threads : List Thread

inductive Act where
  | lock (i : ℕ)
  | write (i : ℕ)
  | leave (i : ℕ)
  deriving DecidableEq, Repr

def step (s : State) : Act → Option State
  | .lock i =>
    (s.threads[i]?).bind fun t =>
      match s.locked, t.phase, t.todo with
      | false, .outside, r :: rest =>
        some { s with locked := true, threads := s.threads.set i ⟨rest, .inside r (texts r).1⟩ }
      | _, _, _ => none
  | .write i =>
    (s.threads[i]?).bind fun t =>
      match t.phase with
      | .inside r (text :: left) =>
        some { s with cerr := s.cerr ++ text, threads := s.threads.set i ⟨t.todo, .inside r left⟩ }
      | _ => none
  | .leave i =>
    (s.threads[i]?).bind fun t =>
      match t.phase with
      | .inside r [] =>
        if (texts r).2 then
          some { s with locked := false, threads := s.threads.set i ⟨t.todo, .outside⟩ }
        else some { s with threads := s.threads.set i ⟨t.todo, .thrown r⟩ }
      | _ => none

def start (programs : List (List Request)) (err : Str) : State :=
  ⟨false, err, programs.map fun p => ⟨p, .outside⟩⟩

/-- The call that a thread is in the middle of, or that threw. -/
def Thread.current (t : Thread) : Option Request :=
  match t.phase with
  | .outside => none
  | .inside r _ => some r
  | .thrown r => some r

theorem texts_formatted (time : Str) (format : StdString) (head : Str) (tail : List Str) :
    (placeholders format.bytes = tail.length + 1 →
      texts (.formatted time format head tail) = ([ascii "[", time.dropLast, ascii "] ",
        render format.bytes (head :: tail), [newline]], true)) ∧
    (placeholders format.bytes ≠ tail.length + 1 →
      texts (.formatted time format head tail) =
        ([ascii "[", time.dropLast, ascii "] "], false)) := by
  have hlen := pieces_length format.bytes
  obtain ⟨hdone, hthrow, hderef⟩ := dispatchR_eq (pieces format.bytes) [] head tail
  refine ⟨fun h => ?_, fun h => ?_⟩
  · have hweave := weave_pieces format.bytes (head :: tail) (by simp [h])
    simp [texts, segments_eq, hdone (by omega), hweave]
  · rcases Nat.lt_or_gt_of_ne h with hlt | hgt
    · simp [texts, segments_eq, hderef (by omega)]
    · simp [texts, segments_eq, hthrow (by omega)]

theorem texts_returns (r : Request) (h : (texts r).2 = true) :
    r.Matches ∧ (texts r).1.flatten = r.line := by
  cases r with
  | text time msg => exact ⟨trivial, by simp [texts, Request.line, stamp]⟩
  | formatted time format head tail =>
    obtain ⟨hdone, hfail⟩ := texts_formatted time format head tail
    by_cases hm : placeholders format.bytes = tail.length + 1
    · exact ⟨hm, by simp [hdone hm, Request.line, stamp]⟩
    · rw [hfail hm] at h
      cases h

theorem texts_first (r : Request) : (texts r).1.flatten <+: r.line := by
  cases r with
  | text time msg =>
    rw [(texts_returns (.text time msg) rfl).2]
  | formatted time format head tail =>
    obtain ⟨hdone, hfail⟩ := texts_formatted time format head tail
    by_cases hm : placeholders format.bytes = tail.length + 1
    · rw [(texts_returns (.formatted time format head tail) (by rw [hdone hm])).2]
    · rw [hfail hm]
      simp [Request.line, stamp]

structure Task where
  program : List Request
  thread : Thread
  done : List Request
  order : program = done ++ thread.current.toList ++ thread.todo
  returned : ∀ r ∈ done, (texts r).2 = true

def Written (t : Thread) (r : Request) (written : List Str) : Prop :=
  (∃ left, t.phase = .inside r left ∧ written ++ left = (texts r).1) ∨
  (t.phase = .thrown r ∧ written = (texts r).1)

def Alone (s : State) (i : ℕ) : Prop :=
  ∀ j u, s.threads[j]? = some u → u.current ≠ none → j = i

/-- The calls `rs` have returned, in this order. -/
structure Serial (programs : List (List Request)) (err : Str) (s : State) (tasks : List Task)
    (rs : List Request) : Prop where
  threads : tasks.map Task.thread = s.threads
  programs : tasks.map Task.program = programs
  merged : Interleaves (tasks.map Task.done) rs
  free : s.locked = false →
    (∀ t ∈ s.threads, t.current = none) ∧ s.cerr = err ++ (rs.map Request.line).flatten
  held : s.locked = true → ∃ i t r written, s.threads[i]? = some t ∧ Alone s i ∧
    Written t r written ∧ s.cerr = err ++ (rs.map Request.line).flatten ++ written.flatten

theorem current_of_written {t : Thread} {r : Request} {written : List Str}
    (h : Written t r written) : t.current = some r := by
  rcases h with ⟨left, hp, -⟩ | ⟨hp, -⟩
  · simp [Thread.current, hp]
  · simp [Thread.current, hp]

theorem Serial.holder {programs : List (List Request)} {err : Str} {s : State} {tasks : List Task}
    {rs : List Request} (h : Serial programs err s tasks rs) {i : ℕ} {t : Thread}
    (ht : s.threads[i]? = some t) (hc : t.current ≠ none) :
    s.locked = true ∧ Alone s i ∧ ∃ r written, Written t r written ∧
      s.cerr = err ++ (rs.map Request.line).flatten ++ written.flatten := by
  cases hl : s.locked with
  | false => exact absurd ((h.free hl).1 t (List.mem_of_getElem? ht)) hc
  | true =>
    obtain ⟨j, u, r, written, hu, halone, hw, hcerr⟩ := h.held hl
    obtain rfl := halone i t ht hc
    rw [ht] at hu
    cases hu
    exact ⟨rfl, halone, r, written, hw, hcerr⟩

theorem alone_set {s s' : State} {i : ℕ} {t : Thread} (hs : s'.threads = s.threads.set i t)
    (h : ∀ j u, s.threads[j]? = some u → u.current ≠ none → j = i) : Alone s' i := by
  intro j u hu hc
  by_contra hj
  rw [hs, List.getElem?_set_ne (Ne.symm hj)] at hu
  exact hj (h j u hu hc)

theorem tasks_set {programs : List (List Request)} {err : Str} {s : State} {tasks : List Task}
    {rs : List Request} (h : Serial programs err s tasks rs) {i : ℕ} {task : Task}
    (ht : tasks[i]? = some task) (next : Task) (hp : next.program = task.program) :
    (tasks.set i next).map Task.thread = s.threads.set i next.thread ∧
    (tasks.set i next).map Task.program = programs ∧
    (next.done = task.done → Interleaves ((tasks.set i next).map Task.done) rs) ∧
    ∀ r, next.done = task.done ++ [r] →
      Interleaves ((tasks.set i next).map Task.done) (rs ++ [r]) := by
  obtain ⟨before, after, hsplit, hset⟩ := split_at ht
  have hmerged := h.merged
  rw [hsplit, List.map_append, List.map_cons] at hmerged
  refine ⟨?_, ?_, fun hd => ?_, fun r hd => ?_⟩
  · rw [List.map_set, h.threads]
  · rw [hset, ← h.programs, hsplit]
    simp [hp]
  · rw [hset, List.map_append, List.map_cons, hd]
    exact hmerged
  · rw [hset, List.map_append, List.map_cons, hd]
    exact .snoc _ _ _ _ r hmerged

theorem Serial.task {programs : List (List Request)} {err : Str} {s : State} {tasks : List Task}
    {rs : List Request} (h : Serial programs err s tasks rs) {i : ℕ} {t : Thread}
    (ht : s.threads[i]? = some t) : ∃ task, tasks[i]? = some task ∧ task.thread = t := by
  rw [← h.threads, List.getElem?_map] at ht
  exact Option.map_eq_some_iff.mp ht

theorem lock_serial {programs : List (List Request)} {err : Str} {s : State} {tasks : List Task}
    {rs : List Request} (h : Serial programs err s tasks rs) {i : ℕ} {t : Thread}
    (ht : s.threads[i]? = some t) (hfree : s.locked = false) {r : Request} {rest : List Request}
    (htodo : t.todo = r :: rest) :
    ∃ tasks', Serial programs err
      { s with locked := true, threads := s.threads.set i ⟨rest, .inside r (texts r).1⟩ }
      tasks' rs := by
  obtain ⟨task, htask, rfl⟩ := h.task ht
  obtain ⟨hout, hcerr⟩ := h.free hfree
  have hnone := hout _ (List.mem_of_getElem? ht)
  have horder : task.program = task.done ++ [r] ++ rest := by
    rw [task.order, hnone, htodo]
    simp
  obtain ⟨hthreads, hprograms, hsame, -⟩ := tasks_set h htask
    ⟨task.program, ⟨rest, .inside r (texts r).1⟩, task.done, horder, task.returned⟩ rfl
  refine ⟨_, hthreads, hprograms, hsame rfl, nofun, fun _ => ?_⟩
  refine ⟨i, ⟨rest, .inside r (texts r).1⟩, r, [], ?_, alone_set rfl fun j u hu hc => ?_,
    .inl ⟨_, rfl, rfl⟩, by simpa using hcerr⟩
  · exact List.getElem?_set_self (List.getElem?_eq_some_iff.mp ht).1
  · exact absurd (hout u (List.mem_of_getElem? hu)) hc

section
variable {programs : List (List Request)} {err : Str} {s : State} {tasks : List Task}
  {rs : List Request} {i : ℕ} {t : Thread} {r : Request} {left : List Str}

theorem Serial.inside (h : Serial programs err s tasks rs) (ht : s.threads[i]? = some t)
    (hp : t.phase = .inside r left) :
    s.locked = true ∧ Alone s i ∧ ∃ written, written ++ left = (texts r).1 ∧
      s.cerr = err ++ (rs.map Request.line).flatten ++ written.flatten := by
  obtain ⟨hlocked, halone, r', written, hw, hcerr⟩ := h.holder ht (by simp [Thread.current, hp])
  refine ⟨hlocked, halone, written, ?_, hcerr⟩
  rcases hw with ⟨left', hp', hleft⟩ | ⟨hp', -⟩
  · rw [hp] at hp'
    cases hp'
    exact hleft
  · rw [hp] at hp'
    cases hp'

theorem Serial.advance (h : Serial programs err s tasks rs) (ht : s.threads[i]? = some t)
    (hp : t.phase = .inside r left) {phase : Phase} {cerr : Str} {written : List Str}
    (hw : Written ⟨t.todo, phase⟩ r written)
    (hcerr : cerr = err ++ (rs.map Request.line).flatten ++ written.flatten) :
    ∃ tasks', Serial programs err
      { s with cerr := cerr, threads := s.threads.set i ⟨t.todo, phase⟩ } tasks' rs := by
  obtain ⟨hlocked, halone, -⟩ := h.inside ht hp
  obtain ⟨task, htask, rfl⟩ := h.task ht
  have hc : task.thread.current = some r := by simp [Thread.current, hp]
  have horder : task.program =
      task.done ++ (Thread.mk task.thread.todo phase).current.toList ++ task.thread.todo := by
    rw [current_of_written hw, task.order, hc]
  obtain ⟨hthreads, hprograms, hsame, -⟩ := tasks_set h htask
    ⟨task.program, ⟨task.thread.todo, phase⟩, task.done, horder, task.returned⟩ rfl
  refine ⟨_, hthreads, hprograms, hsame rfl, fun hl => ?_, fun _ => ?_⟩
  · rw [hlocked] at hl
    cases hl
  · refine ⟨i, _, r, written, ?_, alone_set rfl halone, hw, hcerr⟩
    exact List.getElem?_set_self (List.getElem?_eq_some_iff.mp ht).1

theorem write_serial (h : Serial programs err s tasks rs) (ht : s.threads[i]? = some t)
    {text : Str} (hp : t.phase = .inside r (text :: left)) :
    ∃ tasks', Serial programs err
      { s with cerr := s.cerr ++ text, threads := s.threads.set i ⟨t.todo, .inside r left⟩ }
      tasks' rs := by
  obtain ⟨-, -, written, hleft, hcerr⟩ := h.inside ht hp
  refine h.advance ht hp (.inl ⟨left, rfl, ?_⟩ : Written _ r (written ++ [text])) ?_
  · simpa using hleft
  · simp [hcerr]

theorem throw_serial (h : Serial programs err s tasks rs) (ht : s.threads[i]? = some t)
    (hp : t.phase = .inside r []) :
    ∃ tasks', Serial programs err { s with threads := s.threads.set i ⟨t.todo, .thrown r⟩ }
      tasks' rs := by
  obtain ⟨-, -, written, hleft, hcerr⟩ := h.inside ht hp
  exact h.advance ht hp (.inr ⟨rfl, by simpa using hleft⟩) hcerr

theorem leave_serial (h : Serial programs err s tasks rs) (ht : s.threads[i]? = some t)
    (hp : t.phase = .inside r []) (hr : (texts r).2 = true) :
    ∃ tasks', Serial programs err
      { s with locked := false, threads := s.threads.set i ⟨t.todo, .outside⟩ }
      tasks' (rs ++ [r]) := by
  obtain ⟨-, halone, written, hleft, hcerr⟩ := h.inside ht hp
  obtain ⟨task, htask, rfl⟩ := h.task ht
  have hc : task.thread.current = some r := by simp [Thread.current, hp]
  have horder : task.program = task.done ++ [r] ++ ([] : List Request) ++ task.thread.todo := by
    rw [task.order, hc]
    simp
  have hreturned : ∀ x ∈ task.done ++ [r], (texts x).2 = true := by
    intro x hx
    rcases List.mem_append.mp hx with hx | hx
    · exact task.returned x hx
    · rw [List.mem_singleton.mp hx]
      exact hr
  obtain ⟨hthreads, hprograms, -, hsnoc⟩ := tasks_set h htask
    ⟨task.program, ⟨task.thread.todo, .outside⟩, task.done ++ [r], horder, hreturned⟩ rfl
  refine ⟨_, hthreads, hprograms, hsnoc r rfl, fun _ => ⟨fun u hu => ?_, ?_⟩, nofun⟩
  · obtain ⟨j, hj⟩ := List.mem_iff_getElem?.mp hu
    by_contra hne
    obtain rfl := alone_set rfl halone j u hj hne
    rw [List.getElem?_set_self (List.getElem?_eq_some_iff.mp ht).1] at hj
    cases hj
    exact hne rfl
  · rw [List.append_nil] at hleft
    rw [hcerr, hleft, (texts_returns r hr).2]
    simp

end

theorem step_serial {programs : List (List Request)} {err : Str} (s : State) (a : Act) (s' : State)
    (h : ∃ tasks rs, Serial programs err s tasks rs) (hs : step s a = some s') :
    ∃ tasks rs, Serial programs err s' tasks rs := by
  obtain ⟨tasks, rs, h⟩ := h
  cases a with
  | lock i =>
    obtain ⟨t, ht, hs⟩ := Option.bind_eq_some_iff.mp hs
    split at hs
    next r rest hfree _ htodo =>
      cases hs
      obtain ⟨tasks', h'⟩ := lock_serial h ht hfree htodo
      exact ⟨tasks', rs, h'⟩
    next => cases hs
  | write i =>
    obtain ⟨t, ht, hs⟩ := Option.bind_eq_some_iff.mp hs
    split at hs
    next r text left hp =>
      cases hs
      obtain ⟨tasks', h'⟩ := write_serial h ht hp
      exact ⟨tasks', rs, h'⟩
    next => cases hs
  | leave i =>
    obtain ⟨t, ht, hs⟩ := Option.bind_eq_some_iff.mp hs
    split at hs
    next r hp =>
      split at hs
      next hr =>
        cases hs
        obtain ⟨tasks', h'⟩ := leave_serial h ht hp hr
        exact ⟨tasks', rs ++ [r], h'⟩
      next =>
        cases hs
        obtain ⟨tasks', h'⟩ := throw_serial h ht hp
        exact ⟨tasks', rs, h'⟩
    next => cases hs

theorem start_serial (programs : List (List Request)) (err : Str) :
    Serial programs err (start programs err)
      (programs.map fun p => ⟨p, ⟨p, .outside⟩, [], rfl, nofun⟩) [] where
  threads := by simp [start]
  programs := by
    rw [List.map_map]
    exact List.map_id programs
  merged := .nil _ (by simp)
  free := by
    intro _
    refine ⟨fun t ht => ?_, by simp [start]⟩
    obtain ⟨p, -, rfl⟩ := List.mem_map.mp ht
    rfl
  held := nofun

/-- In every schedule the calls have an order in which, one by one, they give what is on
`std::cerr`: each thread's calls in the order the thread makes them, and after their lines only
the beginning of the line of the one call that has the mutex. -/
theorem calls_serialised (programs : List (List Request)) (err : Str) (acts : List Act) (s : State)
    (h : run step (start programs err) acts = some s) :
    ∃ done rs part, List.Forall₂ (· <+: ·) done programs ∧ Interleaves done rs ∧
      run request ⟨false, err⟩ rs = some ⟨false, err ++ (rs.map Request.line).flatten⟩ ∧
      s.cerr = err ++ (rs.map Request.line).flatten ++ part ∧
      (s.locked = false → part = []) ∧
      (s.locked = true → ∃ i t r, s.threads[i]? = some t ∧ t.current = some r ∧
        part <+: r.line ∧ Alone s i) := by
  obtain ⟨tasks, rs, hs⟩ := run_invariant _ step_serial h ⟨_, _, start_serial programs err⟩
  have hmatch : ∀ r ∈ rs, r.Matches := by
    intro r hr
    obtain ⟨p, hp, hrp⟩ := hs.merged.mem r hr
    obtain ⟨task, -, rfl⟩ := List.mem_map.mp hp
    exact (texts_returns r (task.returned r hrp)).1
  have hprefix : List.Forall₂ (· <+: ·) (tasks.map Task.done) programs := by
    rw [← hs.programs, List.forall₂_map_left_iff, List.forall₂_map_right_iff, List.forall₂_same]
    intro task _
    rw [task.order, List.append_assoc]
    exact List.prefix_append _ _
  have hrun := (run_requests err rs).2 hmatch
  cases hl : s.locked with
  | false =>
    exact ⟨_, rs, [], hprefix, hs.merged, hrun, by simp [(hs.free hl).2], fun _ => rfl, nofun⟩
  | true =>
    obtain ⟨i, t, r, written, ht, halone, hw, hcerr⟩ := hs.held hl
    refine ⟨_, rs, written.flatten, hprefix, hs.merged, hrun, hcerr, nofun, fun _ =>
      ⟨i, t, r, ht, current_of_written hw, ?_, halone⟩⟩
    refine List.IsPrefix.trans ?_ (texts_first r)
    rcases hw with ⟨left, -, hleft⟩ | ⟨-, hall⟩
    · rw [← hleft, List.flatten_append]
      exact List.prefix_append _ _
    · rw [hall]

/-- The second thread gets the mutex first, and the first one is in the middle of its line. -/
def secondFirst : List Act :=
  [.lock 1, .write 1, .write 1, .write 1, .write 1, .write 1, .leave 1, .lock 0, .write 0, .write 0]

theorem second_first_serialised :
    ∃ s, run step (start [[.text [10] [97]], [.text [10] [98]]] []) secondFirst = some s ∧
      s.locked = true ∧ s.cerr = ascii "[] b" ++ [newline] ++ ascii "[" ∧
      ∃ done rs part, List.Forall₂ (· <+: ·) done [[Request.text [10] [97]], [.text [10] [98]]] ∧
        Interleaves done rs ∧ s.cerr = (rs.map Request.line).flatten ++ part := by
  obtain ⟨s, hs, hlocked, hcerr⟩ : ∃ s,
      run step (start [[.text [10] [97]], [.text [10] [98]]] []) secondFirst = some s ∧
      s.locked = true ∧ s.cerr = ascii "[] b" ++ [newline] ++ ascii "[" :=
    ⟨_, rfl, rfl, by decide⟩
  obtain ⟨done, rs, part, hprefix, hmerged, -, hlines, -, -⟩ :=
    calls_serialised [[.text [10] [97]], [.text [10] [98]]] [] secondFirst s hs
  exact ⟨s, hs, hlocked, hcerr, done, rs, part, hprefix, hmerged, hlines⟩

end Wissbi.LoggerThreads
