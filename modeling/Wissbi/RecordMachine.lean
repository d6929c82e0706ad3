import Wissbi.LinePolicy
import Wissbi.Runs

set_option autoImplicit false

/-!
# `record.cpp`

The recorder's filter loop on the main thread, the thread of `gc`, and the exit that runs
`dump_mq_and_exit` on one of them, in a signal handler or when `main` returns. An exit keeps
the thread it runs on from going on. `gc` reads the clock anew for every message.
-/
namespace Wissbi.RecordMachine
open Buffers LinePolicy Runs

/-- One element of `mq`: the text and when it was recorded, in milliseconds. -/
structure Entry where
  msg : Msg
  time : ℕ
  deriving DecidableEq, Repr

inductive Thread where
  | recorder
  | gc
  deriving DecidableEq, Repr

inductive RecorderPc where
  | get
  | lock (msg : Msg)
  | test (msg : Msg)
  | push (msg : Msg)
  | unlock (msg : Msg)
  | put (msg : Msg)
  | returned
  deriving DecidableEq, Repr

inductive GcPc where
  | lock
  | test
  | pop
  | unlock
  | sleep
  | ended
  deriving DecidableEq, Repr

inductive ExitPc where
  | openFile
  | lock
  | write (k : ℕ)
  | unlock
  | finished
  deriving DecidableEq, Repr

/-- `recorded` are all messages that were pushed, and `compared` is the last value of the
clock that `gc` compared a time with. -/
structure State where
  mq : List Entry
  mtx : Option Thread
  clock : ℕ
  running : Bool
  recorder : RecorderPc
  gc : GcPc
  exit : Option (Thread × ExitPc)
  file : List UInt8
  recorded : List Entry
  compared : Option ℕ
  deriving DecidableEq, Repr

/-- The clock may go on at any time. A message, or the end of the input, comes from outside;
everything else that a thread does follows from where it is. -/
inductive Act where
  | tick (d : ℕ)
  | get (msg : Option Msg)
  | record
  | gc
  | signal (w : Thread)
  | exit
  deriving DecidableEq, Repr

def State.Interrupted (s : State) (w : Thread) : Prop := s.exit.map Prod.fst = some w

instance (s : State) (w : Thread) : Decidable (s.Interrupted w) :=
  inferInstanceAs (Decidable (_ = _))

/-- The filter loop has ended and `main` returns. The function that `atexit` was given runs
once, so this starts no second dump. -/
def State.mainReturns (s : State) : State :=
  { s with recorder := .returned, exit := s.exit.or (some (.recorder, .openFile)) }

/-- The filter function, and `Put`, which fails on an empty message. -/
def recorderStep (maxNum : ℕ) (s : State) : Option State :=
  match s.recorder with
  | .lock msg =>
    if s.mtx = none then some { s with mtx := some .recorder, recorder := .test msg } else none
  | .test msg =>
    some { s with
      mq := if maxNum ≠ 0 ∧ s.mq.length = maxNum then s.mq.tail else s.mq
      recorder := .push msg }
  | .push msg =>
    some { s with
      mq := s.mq ++ [⟨msg, s.clock⟩]
      recorded := s.recorded ++ [⟨msg, s.clock⟩]
      recorder := .unlock msg }
  | .unlock msg => some { s with mtx := none, recorder := .put msg }
  | .put msg => some (if msg = [] then s.mainReturns else { s with recorder := .get })
  | _ => none

def gcStep (ttl : ℕ) (s : State) : Option State :=
  match s.gc with
  | .lock => if s.mtx = none then some { s with mtx := some .gc, gc := .test } else none
  | .test =>
    match s.mq with
    | [] => some { s with gc := .unlock }
    | e :: _ =>
      some { s with
        compared := some s.clock
        gc := if (ttl : ℤ) < (s.clock : ℤ) - e.time then .pop else .unlock }
  | .pop => some { s with mq := s.mq.tail, gc := .test }
  | .unlock => some { s with mtx := none, gc := .sleep }
  | .sleep => some { s with gc := if s.running then .lock else .ended }
  | .ended => none

def exitStep (s : State) : Option State :=
  match s.exit with
  | some (w, .openFile) => some { s with file := [], exit := some (w, .lock) }
  | some (w, .lock) =>
    if s.mtx = none then some { s with mtx := some w, exit := some (w, .write 0) } else none
  | some (w, .write k) =>
    match s.mq[k]? with
    | some e => some { s with file := s.file ++ enc e.msg, exit := some (w, .write (k + 1)) }
    | none => some { s with exit := some (w, .unlock) }
  | some (w, .unlock) => some { s with mtx := none, exit := some (w, .finished) }
  | _ => none

def step (maxNum ttl : ℕ) (s : State) : Act → Option State
  | .tick d => some { s with clock := s.clock + d }
  | .get msg =>
    if s.Interrupted .recorder ∨ s.recorder ≠ .get then none
    else
      match msg with
      | some msg => some { s with recorder := .lock msg }
      | none => some s.mainReturns
  | .record => if s.Interrupted .recorder then none else recorderStep maxNum s
  | .gc => if s.Interrupted .gc then none else gcStep ttl s
  | .signal w =>
    -- `exit_signal_handler`; a second call of `exit` has no defined meaning
    if s.exit = none then some { s with running := false, exit := some (w, .openFile) } else none
  | .exit => exitStep s

def start (clock : ℕ) : State :=
  ⟨[], none, clock, true, .get, .lock, none, [], [], none⟩

def dump (entries : List Entry) : List UInt8 := entries.flatMap fun e => enc e.msg

inductive Moves (maxNum ttl : ℕ) (s : State) : Act → State → Prop where
  | ticked (d : ℕ) : Moves maxNum ttl s (.tick d) { s with clock := s.clock + d }
  | got (msg : Msg) (hi : ¬ s.Interrupted .recorder) (hp : s.recorder = .get) :
      Moves maxNum ttl s (.get (some msg)) { s with recorder := .lock msg }
  | returned (a : Act) (hi : ¬ s.Interrupted .recorder)
      (hp : s.recorder = .get ∨ s.recorder = .put []) (ha : ∀ w, a ≠ .signal w) :
      Moves maxNum ttl s a s.mainReturns
  | recorderLocked (msg : Msg) (hi : ¬ s.Interrupted .recorder) (hp : s.recorder = .lock msg)
      (hm : s.mtx = none) :
      Moves maxNum ttl s .record { s with mtx := some .recorder, recorder := .test msg }
  | tested (msg : Msg) (hi : ¬ s.Interrupted .recorder) (hp : s.recorder = .test msg) :
      Moves maxNum ttl s .record
        { s with
          mq := if maxNum ≠ 0 ∧ s.mq.length = maxNum then s.mq.tail else s.mq
          recorder := .push msg }
  | pushed (msg : Msg) (hi : ¬ s.Interrupted .recorder) (hp : s.recorder = .push msg) :
      Moves maxNum ttl s .record
        { s with
          mq := s.mq ++ [⟨msg, s.clock⟩]
          recorded := s.recorded ++ [⟨msg, s.clock⟩]
          recorder := .unlock msg }
  | recorderUnlocked (msg : Msg) (hi : ¬ s.Interrupted .recorder) (hp : s.recorder = .unlock msg) :
      Moves maxNum ttl s .record { s with mtx := none, recorder := .put msg }
  | passed (msg : Msg) (hi : ¬ s.Interrupted .recorder) (hp : s.recorder = .put msg) :
      Moves maxNum ttl s .record { s with recorder := .get }
  | gcLocked (hi : ¬ s.Interrupted .gc) (hp : s.gc = .lock) (hm : s.mtx = none) :
      Moves maxNum ttl s .gc { s with mtx := some .gc, gc := .test }
  | emptied (hi : ¬ s.Interrupted .gc) (hp : s.gc = .test) (hq : s.mq = []) :
      Moves maxNum ttl s .gc { s with gc := .unlock }
  | foundOld (e : Entry) (rest : List Entry) (hi : ¬ s.Interrupted .gc) (hp : s.gc = .test)
      (hq : s.mq = e :: rest) (hold : (ttl : ℤ) < (s.clock : ℤ) - e.time) :
      Moves maxNum ttl s .gc { s with compared := some s.clock, gc := .pop }
  | foundYoung (e : Entry) (rest : List Entry) (hi : ¬ s.Interrupted .gc) (hp : s.gc = .test)
      (hq : s.mq = e :: rest) (hyoung : ¬ (ttl : ℤ) < (s.clock : ℤ) - e.time) :
      Moves maxNum ttl s .gc { s with compared := some s.clock, gc := .unlock }
  | popped (hi : ¬ s.Interrupted .gc) (hp : s.gc = .pop) :
      Moves maxNum ttl s .gc { s with mq := s.mq.tail, gc := .test }
  | gcUnlocked (hi : ¬ s.Interrupted .gc) (hp : s.gc = .unlock) :
      Moves maxNum ttl s .gc { s with mtx := none, gc := .sleep }
  | woke (hi : ¬ s.Interrupted .gc) (hp : s.gc = .sleep) :
      Moves maxNum ttl s .gc { s with gc := if s.running then .lock else .ended }
  | signalled (w : Thread) (he : s.exit = none) :
      Moves maxNum ttl s (.signal w) { s with running := false, exit := some (w, .openFile) }
  | opened (w : Thread) (he : s.exit = some (w, .openFile)) :
      Moves maxNum ttl s .exit { s with file := [], exit := some (w, .lock) }
  | exitLocked (w : Thread) (he : s.exit = some (w, .lock)) (hm : s.mtx = none) :
      Moves maxNum ttl s .exit { s with mtx := some w, exit := some (w, .write 0) }
  | wrote (w : Thread) (k : ℕ) (e : Entry) (he : s.exit = some (w, .write k))
      (hk : s.mq[k]? = some e) :
      Moves maxNum ttl s .exit
        { s with file := s.file ++ enc e.msg, exit := some (w, .write (k + 1)) }
  | wroteAll (w : Thread) (k : ℕ) (he : s.exit = some (w, .write k)) (hk : s.mq[k]? = none) :
      Moves maxNum ttl s .exit { s with exit := some (w, .unlock) }
  | exitUnlocked (w : Thread) (he : s.exit = some (w, .unlock)) :
      Moves maxNum ttl s .exit { s with mtx := none, exit := some (w, .finished) }

theorem step_moves {maxNum ttl : ℕ} {s t : State} {a : Act} (h : step maxNum ttl s a = some t) :
    Moves maxNum ttl s a t := by
  cases a with
  | tick d =>
    cases h
    exact .ticked d
  | get msg =>
    simp only [step] at h
    split_ifs at h with hc
    rw [not_or, not_not] at hc
    cases msg with
    | none =>
      cases h
      exact .returned _ hc.1 (.inl hc.2) (by simp)
    | some msg =>
      cases h
      exact .got msg hc.1 hc.2
  | record =>
    simp only [step] at h
    split_ifs at h with hi
    unfold recorderStep at h
    split at h
    next msg hp =>
      split_ifs at h with hm
      cases h
      exact .recorderLocked msg hi hp hm
    next msg hp => cases h; exact .tested msg hi hp
    next msg hp => cases h; exact .pushed msg hi hp
    next msg hp => cases h; exact .recorderUnlocked msg hi hp
    next msg hp =>
      cases h
      split_ifs with he
      · exact .returned _ hi (.inr (he ▸ hp)) (by simp)
      · exact .passed msg hi hp
    next => cases h
  | gc =>
    simp only [step] at h
    split_ifs at h with hi
    unfold gcStep at h
    split at h
    next hp =>
      split_ifs at h with hm
      cases h
      exact .gcLocked hi hp hm
    next hp =>
      split at h
      next hq => cases h; exact .emptied hi hp hq
      next e rest hq =>
        cases h
        split_ifs with hold
        · exact .foundOld e rest hi hp hq hold
        · exact .foundYoung e rest hi hp hq hold
    next hp => cases h; exact .popped hi hp
    next hp => cases h; exact .gcUnlocked hi hp
    next hp => cases h; exact .woke hi hp
    next => cases h
  | signal w =>
    simp only [step] at h
    split_ifs at h with he
    cases h
    exact .signalled w he
  | exit =>
    simp only [step, exitStep] at h
    split at h
    next w he => cases h; exact .opened w he
    next w he =>
      split_ifs at h with hm
      cases h
      exact .exitLocked w he hm
    next w k he =>
      split at h
      next e hk => cases h; exact .wrote w k e he hk
      next hk => cases h; exact .wroteAll w k he hk
    next w he => cases h; exact .exitUnlocked w he
    next => cases h

def RecorderPc.holds : RecorderPc → List Thread
  | .test _ | .push _ | .unlock _ => [.recorder]
  | _ => []

def GcPc.holds : GcPc → List Thread
  | .test | .pop | .unlock => [.gc]
  | _ => []

def exitHolds : Option (Thread × ExitPc) → List Thread
  | some (w, .write _) | some (w, .unlock) => [w]
  | _ => []

def State.holders (s : State) : List Thread :=
  s.recorder.holds ++ s.gc.holds ++ exitHolds s.exit

/-- Nobody is in a critical section, or the owner of the mutex is, and nobody else. -/
def Excludes (s : State) : Prop := s.holders = s.mtx.toList

theorem Excludes.alone {s : State} (h : Excludes s) {w : Thread} {xs ys : List Thread}
    (hw : s.holders = xs ++ w :: ys) : xs = [] ∧ ys = [] ∧ s.mtx = some w := by
  unfold Excludes at h
  rw [hw] at h
  cases hm : s.mtx with
  | none => simp [hm] at h
  | some v =>
    rw [hm] at h
    obtain ⟨rfl, rfl, rfl⟩ : xs = [] ∧ w = v ∧ ys = [] := by
      simpa [List.append_eq_cons_iff] using h
    exact ⟨rfl, rfl, rfl⟩

theorem Excludes.recorder {s : State} (h : Excludes s) (hr : s.recorder.holds = [.recorder]) :
    s.gc.holds = [] ∧ exitHolds s.exit = [] ∧ s.mtx = some .recorder := by
  have hw : s.holders = [] ++ .recorder :: (s.gc.holds ++ exitHolds s.exit) := by
    simp [State.holders, hr]
  obtain ⟨-, hrest, hm⟩ := h.alone hw
  exact ⟨(List.append_eq_nil_iff.mp hrest).1, (List.append_eq_nil_iff.mp hrest).2, hm⟩

theorem Excludes.gc {s : State} (h : Excludes s) (hg : s.gc.holds = [.gc]) :
    s.recorder.holds = [] ∧ exitHolds s.exit = [] ∧ s.mtx = some .gc := by
  have hw : s.holders = s.recorder.holds ++ .gc :: exitHolds s.exit := by
    simp [State.holders, hg]
  exact h.alone hw

theorem Excludes.exit {s : State} (h : Excludes s) {w : Thread} (he : exitHolds s.exit = [w]) :
    s.recorder.holds = [] ∧ s.gc.holds = [] ∧ s.mtx = some w := by
  have hw : s.holders = (s.recorder.holds ++ s.gc.holds) ++ w :: [] := by
    simp [State.holders, he]
  obtain ⟨hrest, -, hm⟩ := h.alone hw
  exact ⟨(List.append_eq_nil_iff.mp hrest).1, (List.append_eq_nil_iff.mp hrest).2, hm⟩

theorem Excludes.free {s : State} (h : Excludes s) (hm : s.mtx = none) :
    s.recorder.holds = [] ∧ s.gc.holds = [] ∧ exitHolds s.exit = [] := by
  unfold Excludes State.holders at h
  simpa [hm, and_assoc] using h

theorem exitHolds_mainReturns (s : State) : exitHolds s.mainReturns.exit = exitHolds s.exit := by
  cases he : s.exit with
  | none => simp [State.mainReturns, he, exitHolds]
  | some x => simp [State.mainReturns, he]

theorem moves_excludes {maxNum ttl : ℕ} {s t : State} {a : Act} (hs : Excludes s)
    (h : Moves maxNum ttl s a t) : Excludes t := by
  cases h with
  | ticked d => exact hs
  | got _ _ hp | tested _ _ hp | pushed _ _ hp | passed _ _ hp =>
    simpa [Excludes, State.holders, hp, RecorderPc.holds] using hs
  | returned _ _ hp =>
    have hr : s.recorder.holds = [] := by rcases hp with hp | hp <;> rw [hp] <;> rfl
    unfold Excludes State.holders at hs ⊢
    rw [exitHolds_mainReturns]
    rw [hr] at hs
    exact hs
  | recorderLocked msg _ _ hm =>
    obtain ⟨-, hg, he⟩ := hs.free hm
    simp [Excludes, State.holders, RecorderPc.holds, hg, he]
  | recorderUnlocked msg _ hp =>
    obtain ⟨hg, he, -⟩ := hs.recorder (by rw [hp]; rfl)
    simp [Excludes, State.holders, RecorderPc.holds, hg, he]
  | gcLocked _ _ hm =>
    obtain ⟨hr, -, he⟩ := hs.free hm
    simp [Excludes, State.holders, GcPc.holds, hr, he]
  | emptied _ hp | foundOld _ _ _ hp | foundYoung _ _ _ hp | popped _ hp =>
    simpa [Excludes, State.holders, hp, GcPc.holds] using hs
  | gcUnlocked _ hp =>
    obtain ⟨hr, he, -⟩ := hs.gc (by rw [hp]; rfl)
    simp [Excludes, State.holders, GcPc.holds, hr, he]
  | woke _ hp => cases hrun : s.running <;> simpa [Excludes, State.holders, hp, GcPc.holds] using hs
  | signalled _ he | opened _ he | wrote _ _ _ he | wroteAll _ _ he =>
    simpa [Excludes, State.holders, he, exitHolds] using hs
  | exitLocked w _ hm =>
    obtain ⟨hr, hg, -⟩ := hs.free hm
    simp [Excludes, State.holders, exitHolds, hr, hg]
  | exitUnlocked w he =>
    obtain ⟨hr, hg, -⟩ := hs.exit (w := w) (by rw [he]; rfl)
    simp [Excludes, State.holders, exitHolds, hr, hg]

theorem start_excludes (clock : ℕ) : Excludes (start clock) := rfl

theorem run_excludes {maxNum ttl clock : ℕ} {acts : List Act} {s : State}
    (h : run (step maxNum ttl) (start clock) acts = some s) : Excludes s :=
  run_invariant Excludes (fun _ _ _ hs ht => moves_excludes hs (step_moves ht)) h
    (start_excludes clock)

end Wissbi.RecordMachine
