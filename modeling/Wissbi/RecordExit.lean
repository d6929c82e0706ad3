import Wissbi.RecordWindow

set_option autoImplicit false

namespace Wissbi.RecordExit
open RecordMachine RecordWindow Runs

def SelfBlocked (s : State) : Prop := ∃ w, s.exit = some (w, .lock) ∧ s.mtx = some w

/-- A signal is only delivered to a thread that does not have the mutex. -/
def Unheld (s : State) : Act → Prop
  | .signal w => s.mtx ≠ some w
  | _ => True

instance (s : State) (a : Act) : Decidable (Unheld s a) :=
  match a with
  | .signal w => inferInstanceAs (Decidable (s.mtx ≠ some w))
  | .tick _ | .get _ | .record | .gc | .exit => isTrue trivial

/-- Whether a thread was in its critical section when it was last at work itself. -/
def ownHolds (s : State) : Thread → List Thread
  | .recorder => s.recorder.holds
  | .gc => s.gc.holds

def Outside (s : State) : Prop := ∀ x ∈ s.exit, ownHolds s x.1 = []

/-- The exit runs on a thread that was inside, and has not got past its `lock`. -/
def Stuck (s : State) : Prop :=
  ∃ w pc, s.exit = some (w, pc) ∧ (pc = .openFile ∨ pc = .lock) ∧ ownHolds s w = [w]

variable {maxNum ttl clock : ℕ} {s t u : State} {a : Act} {acts : List Act} {w : Thread} {pc : ExitPc}

theorem own_eq (s : State) (w : Thread) : ownHolds s w = [] ∨ ownHolds s w = [w] := by
  cases w with
  | recorder => cases hp : s.recorder <;> simp [ownHolds, hp, RecorderPc.holds]
  | gc => cases hp : s.gc <;> simp [ownHolds, hp, GcPc.holds]

theorem mtx_of_own (hx : Excludes s) (h : ownHolds s w = [w]) : s.mtx = some w := by
  cases w with
  | recorder => exact (hx.recorder h).2.2
  | gc => exact (hx.gc h).2.2

theorem own_of_mtx (hx : Excludes s) (h : s.mtx = some w) (he : exitHolds s.exit = []) :
    ownHolds s w = [w] := by
  rcases own_eq s w with hw | hw
  · have hall : s.recorder.holds ++ s.gc.holds = [w] := by
      unfold Excludes State.holders at hx
      simpa [he, h] using hx
    cases w with
    | recorder =>
      cases hp : s.gc <;> simp [ownHolds] at hw <;> simp [hw, hp, GcPc.holds] at hall
    | gc =>
      cases hp : s.recorder <;> simp [ownHolds] at hw <;> simp [hw, hp, RecorderPc.holds] at hall
  · exact hw

theorem moves_frozen (h : Moves maxNum ttl s a t) (he : s.exit = some (w, pc)) :
    (∃ pc', t.exit = some (w, pc')) ∧ ownHolds t w = ownHolds s w := by
  have hi : s.Interrupted w := by simp [State.Interrupted, he]
  cases h with
  | got _ hni | recorderLocked _ hni | tested _ hni | pushed _ hni | recorderUnlocked _ hni
  | passed _ hni =>
    cases w with
    | recorder => exact absurd hi hni
    | gc => exact ⟨⟨pc, he⟩, rfl⟩
  | returned _ hni =>
    cases w with
    | recorder => exact absurd hi hni
    | gc => exact ⟨⟨pc, by simp [State.mainReturns, he]⟩, rfl⟩
  | gcLocked hni | emptied hni | foundOld _ _ hni | foundYoung _ _ hni | popped hni
  | gcUnlocked hni | woke hni =>
    cases w with
    | recorder => exact ⟨⟨pc, he⟩, rfl⟩
    | gc => exact absurd hi hni
  | ticked => exact ⟨⟨pc, he⟩, by cases w <;> rfl⟩
  | signalled v hv =>
    rw [hv] at he
    cases he
  | opened v hv | exitLocked v hv | wrote v _ _ hv | wroteAll v _ hv | exitUnlocked v hv =>
    rw [hv] at he
    cases he
    exact ⟨⟨_, rfl⟩, by cases w <;> rfl⟩

theorem moves_begin (h : Moves maxNum ttl s a t) (hn : s.exit = none) (he : t.exit = some (w, pc)) :
    (a = .signal w ∧ ownHolds t w = ownHolds s w) ∨ ownHolds t w = [] := by
  cases h with
  | returned _ _ _ ha =>
    simp only [State.mainReturns, hn, Option.none_or, Option.some.injEq, Prod.mk.injEq] at he
    obtain ⟨rfl, rfl⟩ := he
    exact .inr rfl
  | signalled v =>
    cases he
    exact .inl ⟨rfl, by cases w <;> rfl⟩
  | opened v hv | exitLocked v hv | wrote v _ _ hv | wroteAll v _ hv | exitUnlocked v hv =>
    rw [hn] at hv
    cases hv
  | _ =>
    rw [hn] at he
    cases he

theorem moves_outside (hx : Excludes s) (hs : Outside s) (hu : Unheld s a)
    (h : Moves maxNum ttl s a t) : Outside t := by
  rintro ⟨w, pc⟩ hw
  cases he : s.exit with
  | none =>
    obtain ⟨rfl, hown⟩ | hown := moves_begin h he hw
    · rw [hown]
      exact (own_eq s w).resolve_right fun hin => hu (mtx_of_own hx hin)
    · exact hown
  | some x =>
    obtain ⟨v, pc'⟩ := x
    obtain ⟨⟨pc'', hv⟩, hown⟩ := moves_frozen h he
    obtain rfl : v = w := by
      rw [hv] at hw
      cases hw
      rfl
    rw [hown]
    exact hs (v, pc') he

theorem moves_stuck (hx : Excludes s) (hs : Stuck s) (h : Moves maxNum ttl s a t) : Stuck t := by
  obtain ⟨w, pc, he, hpc, hown⟩ := hs
  have hmtx := mtx_of_own hx hown
  obtain ⟨⟨pc', he'⟩, hown'⟩ := moves_frozen h he
  refine ⟨w, pc', he', ?_, hown'.trans hown⟩
  cases h with
  | opened v hv =>
    cases he'
    exact .inr rfl
  | signalled v hv =>
    rw [hv] at he
    cases he
  | exitLocked v hv hm =>
    rw [hm] at hmtx
    cases hmtx
  | wrote v _ _ hv | wroteAll v _ hv | exitUnlocked v hv =>
    rw [hv] at he
    cases he
    simp at hpc
  | returned =>
    simp only [State.mainReturns, he, Option.some_or, Option.some.injEq, Prod.mk.injEq,
      true_and] at he'
    exact he' ▸ hpc
  | _ =>
    rw [he] at he'
    cases he'
    exact hpc

theorem run_outside_or_stuck (h : run (step maxNum ttl) (start clock) acts = some s) :
    (Along (step maxNum ttl) Unheld (start clock) acts ∧ Outside s) ∨
    (¬ Along (step maxNum ttl) Unheld (start clock) acts ∧ Stuck s) := by
  refine run_history (fun as t => (Along (step maxNum ttl) Unheld (start clock) as ∧ Outside t) ∨
    (¬ Along (step maxNum ttl) Unheld (start clock) as ∧ Stuck t)) h
    (.inl ⟨trivial, by simp [Outside, start]⟩) fun as t a v ht ih hstep => ?_
  have hx := run_excludes ht
  have hm := step_moves hstep
  rw [along_snoc Unheld ht]
  rcases ih with ⟨halong, hout⟩ | ⟨hnot, hstuck⟩
  · by_cases hu : Unheld t a
    · exact .inl ⟨⟨halong, hu⟩, moves_outside hx hout hu hm⟩
    · refine .inr ⟨fun hc => hu hc.2, ?_⟩
      cases hm with
      | signalled w he =>
        -- before the signal no exit was under way, so the owner is in its own code
        have hheld : t.mtx = some w := not_not.mp hu
        refine ⟨w, .openFile, rfl, .inl rfl, ?_⟩
        have hown := own_of_mtx hx hheld (by rw [he]; rfl)
        cases w <;> exact hown
      | returned _ _ _ ha =>
        cases a with
        | signal w => exact absurd rfl (ha w)
        | _ => exact absurd trivial hu
      | _ => exact absurd trivial hu
  · exact .inr ⟨fun hc => hnot hc.1, moves_stuck hx hstuck hm⟩

theorem stuck_unfinished (hx : Excludes s) (hs : Stuck s)
    (h : run (step maxNum ttl) s acts = some t) : t.exit ≠ some (w, .finished) := by
  obtain ⟨-, v, pc, hv, hpc, -⟩ := run_invariant (fun t => Excludes t ∧ Stuck t)
    (fun _ _ _ ht hstep => ⟨moves_excludes ht.1 (step_moves hstep),
      moves_stuck ht.1 ht.2 (step_moves hstep)⟩) h ⟨hx, hs⟩
  intro hfin
  rw [hfin] at hv
  cases hv
  simp at hpc

theorem not_selfBlocked (hx : Excludes s) (hs : Outside s) : ¬ SelfBlocked s := by
  rintro ⟨w, he, hm⟩
  have hown := own_of_mtx hx hm (by rw [he]; rfl)
  rw [hs (w, .lock) he] at hown
  cases hown

theorem not_interrupted {v : Thread} (he : s.exit = some (w, pc)) (hne : v ≠ w) :
    ¬ s.Interrupted v := by
  simpa [State.Interrupted, he] using hne.symm

/-- The mutex can become free while the exit waits. -/
def Releases (maxNum ttl : ℕ) (s : State) : Prop :=
  ∃ t, Reaches (step maxNum ttl) s t ∧ t.mtx = none ∧ t.exit = s.exit

theorem Releases.now (h : s.mtx = none) : Releases maxNum ttl s := ⟨s, .refl s, h, rfl⟩

theorem Releases.later (h : step maxNum ttl s a = some t) (he : t.exit = s.exit)
    (ht : Releases maxNum ttl t) : Releases maxNum ttl s := by
  obtain ⟨u, hu, hm, heu⟩ := ht
  exact ⟨u, (Reaches.single h).trans hu, hm, heu.trans he⟩

theorem recorder_releases (hi : ¬ s.Interrupted .recorder) (hr : s.recorder.holds = [.recorder]) :
    Releases maxNum ttl s := by
  have hunlock (s : State) (msg : Buffers.Msg) (hi : ¬ s.Interrupted .recorder)
      (hp : s.recorder = .unlock msg) : Releases maxNum ttl s := by
    have hone : step maxNum ttl s .record = some { s with mtx := none, recorder := .put msg } := by
      simp only [step, hi, ↓reduceIte, recorderStep, hp]
    exact .later hone rfl (.now rfl)
  have hpush (s : State) (msg : Buffers.Msg) (hi : ¬ s.Interrupted .recorder)
      (hp : s.recorder = .push msg) : Releases maxNum ttl s := by
    have hone : step maxNum ttl s .record = some
        { s with
          mq := s.mq ++ [⟨msg, s.clock⟩]
          recorded := s.recorded ++ [⟨msg, s.clock⟩]
          recorder := .unlock msg } := by
      simp only [step, hi, ↓reduceIte, recorderStep, hp]
    exact .later hone rfl (hunlock _ msg hi rfl)
  cases hp : s.recorder with
  | test msg =>
    have hone : step maxNum ttl s .record = some
        { s with
          mq := if maxNum ≠ 0 ∧ s.mq.length = maxNum then s.mq.tail else s.mq
          recorder := .push msg } := by
      simp only [step, hi, ↓reduceIte, recorderStep, hp]
    exact .later hone rfl (hpush _ msg hi rfl)
  | push msg => exact hpush s msg hi hp
  | unlock msg => exact hunlock s msg hi hp
  | _ =>
    rw [hp] at hr
    cases hr

theorem gc_releases (hi : ¬ s.Interrupted .gc) (hg : s.gc.holds = [.gc]) :
    Releases maxNum ttl s := by
  have hunlock (s : State) (hi : ¬ s.Interrupted .gc) (hp : s.gc = .unlock) :
      Releases maxNum ttl s := by
    have hone : step maxNum ttl s .gc = some { s with mtx := none, gc := .sleep } := by
      simp only [step, hi, ↓reduceIte, gcStep, hp]
    exact .later hone rfl (.now rfl)
  have hpop (s : State) (hi : ¬ s.Interrupted .gc) (hp : s.gc = .pop) :
      step maxNum ttl s .gc = some { s with mq := s.mq.tail, gc := .test } := by
    simp only [step, hi, ↓reduceIte, gcStep, hp]
  have htest (mq : List Entry) (s : State) (hi : ¬ s.Interrupted .gc) (hp : s.gc = .test)
      (hq : s.mq = mq) : Releases maxNum ttl s := by
    induction mq generalizing s with
    | nil =>
      have hone : step maxNum ttl s .gc = some { s with gc := .unlock } := by
        simp only [step, hi, ↓reduceIte, gcStep, hp, hq]
      exact .later hone rfl (hunlock _ hi rfl)
    | cons e rest ih =>
      have hone : step maxNum ttl s .gc = some
          { s with
            compared := some s.clock
            gc := if (ttl : ℤ) < (s.clock : ℤ) - e.time then .pop else .unlock } := by
        simp only [step, hi, ↓reduceIte, gcStep, hp, hq]
      refine .later hone rfl ?_
      split_ifs
      · -- the next turn of the loop finds one message less
        exact .later (hpop _ hi rfl) rfl (ih _ hi rfl (congrArg List.tail hq))
      · exact hunlock _ hi rfl
  cases hp : s.gc with
  | test => exact htest _ s hi hp rfl
  | pop => exact .later (hpop s hi hp) rfl (htest _ _ hi rfl rfl)
  | unlock => exact hunlock s hi hp
  | _ =>
    rw [hp] at hg
    cases hg

theorem waiting_releases (hx : Excludes s) (hs : Outside s) (he : s.exit = some (w, .lock)) :
    Releases maxNum ttl s := by
  cases hm : s.mtx with
  | none => exact .now hm
  | some v =>
    have hown := own_of_mtx hx hm (by rw [he]; rfl)
    have hne : v ≠ w := by
      rintro rfl
      rw [hs (v, .lock) he] at hown
      cases hown
    have hi := not_interrupted he hne
    cases v with
    | recorder => exact recorder_releases hi hown
    | gc => exact gc_releases hi hown

theorem writes_all (maxNum ttl : ℕ) {k : ℕ} (he : s.exit = some (w, .write k)) :
    ∃ t, Reaches (step maxNum ttl) s t ∧ t.exit = some (w, .unlock) := by
  induction hn : s.mq.length - k generalizing s k with
  | zero =>
    have hk : s.mq[k]? = none := List.getElem?_eq_none (by omega)
    have hone : step maxNum ttl s .exit = some { s with exit := some (w, .unlock) } := by
      simp only [step, exitStep, he, hk]
    exact ⟨_, .single hone, rfl⟩
  | succ n ih =>
    obtain ⟨e, hk⟩ : ∃ e, s.mq[k]? = some e := ⟨_, List.getElem?_eq_getElem (by omega)⟩
    have hone : step maxNum ttl s .exit =
        some { s with file := s.file ++ LinePolicy.enc e.msg, exit := some (w, .write (k + 1)) } := by
      simp only [step, exitStep, he, hk]
    obtain ⟨t, ht, hunlock⟩ := ih (s := { s with
      file := s.file ++ LinePolicy.enc e.msg
      exit := some (w, .write (k + 1)) }) rfl (by simp only; omega)
    exact ⟨t, (Reaches.single hone).trans ht, hunlock⟩

theorem reaches_unlock (maxNum ttl : ℕ) (hx : Excludes s) (hs : Outside s) (he : s.exit = some (w, pc))
    (hpc : pc ≠ .finished) : ∃ t, Reaches (step maxNum ttl) s t ∧ t.exit = some (w, .unlock) := by
  have hlock (s : State) (hx : Excludes s) (hs : Outside s) (he : s.exit = some (w, .lock)) :
      ∃ t, Reaches (step maxNum ttl) s t ∧ t.exit = some (w, .unlock) := by
    obtain ⟨t, ht, hm, het⟩ := waiting_releases hx hs he
    rw [he] at het
    have hone : step maxNum ttl t .exit =
        some { t with mtx := some w, exit := some (w, .write 0) } := by
      simp only [step, exitStep, het, hm, ↓reduceIte]
    obtain ⟨u, hu, hunlock⟩ := writes_all maxNum ttl
      (s := { t with mtx := some w, exit := some (w, .write 0) }) rfl
    exact ⟨u, (ht.trans (.single hone)).trans hu, hunlock⟩
  cases pc with
  | openFile =>
    have hone : step maxNum ttl s .exit = some { s with file := [], exit := some (w, .lock) } := by
      simp only [step, exitStep, he]
    have hm := step_moves hone
    have hout := moves_outside (a := .exit) hx hs trivial hm
    obtain ⟨u, hu, hunlock⟩ := hlock _ (moves_excludes hx hm) hout rfl
    exact ⟨u, (Reaches.single hone).trans hu, hunlock⟩
  | lock => exact hlock s hx hs he
  | write k => exact writes_all maxNum ttl he
  | unlock => exact ⟨s, .refl s, he⟩
  | finished => exact absurd rfl hpc

theorem reaches_finished (hx : Excludes s) (hs : Outside s) (hw : Written s)
    (he : s.exit = some (w, pc)) (hpc : pc ≠ .finished) :
    ∃ t, Reaches (step maxNum ttl) s t ∧ t.exit = some (w, .finished) ∧ t.file = dump t.mq := by
  obtain ⟨u, ⟨as, hrun⟩, hunlock⟩ := reaches_unlock maxNum ttl hx hs he hpc
  have hu := run_written hx hw hrun
  have hone : step maxNum ttl u .exit =
      some { u with mtx := none, exit := some (w, .finished) } := by
    simp only [step, exitStep, hunlock]
  exact ⟨_, Reaches.trans ⟨as, hrun⟩ (.single hone), rfl, hu.all w hunlock⟩

/-- When no signal is delivered to a thread that has the mutex, no exit waits for itself, and
these are the runs in which an exit that is under way can finish its dump. -/
theorem exit_dumps_iff (maxNum ttl clock : ℕ) (acts : List Act) (s : State)
    (h : run (step maxNum ttl) (start clock) acts = some s) :
    (Along (step maxNum ttl) Unheld (start clock) acts → ¬ SelfBlocked s) ∧
    ∀ w pc, s.exit = some (w, pc) → pc ≠ .finished →
      (Along (step maxNum ttl) Unheld (start clock) acts ↔
        ∃ t, Reaches (step maxNum ttl) s t ∧ t.exit = some (w, .finished) ∧ t.file = dump t.mq) := by
  have hx := run_excludes h
  have hw := run_written (start_excludes clock) (start_written clock) h
  rcases run_outside_or_stuck h with ⟨halong, hout⟩ | ⟨hnot, hstuck⟩
  · refine ⟨fun _ => not_selfBlocked hx hout, fun w pc he hpc => iff_of_true halong ?_⟩
    exact reaches_finished hx hout hw he hpc
  · refine ⟨fun hc => absurd hc hnot, fun w pc he hpc => iff_of_false hnot ?_⟩
    rintro ⟨t, ⟨as, hrun⟩, hfin, -⟩
    exact stuck_unfinished hx hstuck hrun hfin

theorem other_thread_dumps :
    ∃ s, run (step 50 1000) (start 0) [.get (some [97]), .record, .signal .gc, .exit] = some s ∧
      s.exit = some (.gc, .lock) ∧ s.mtx = some .recorder ∧ ¬ SelfBlocked s ∧
      ∃ t, Reaches (step 50 1000) s t ∧ t.exit = some (.gc, .finished) ∧ t.file = dump t.mq := by
  have h : run (step 50 1000) (start 0) [.get (some [97]), .record, .signal .gc, .exit] = some
      ⟨[], some .recorder, 0, false, .test [97], .lock, some (.gc, .lock), [], [], none⟩ := by decide
  have halong : Along (step 50 1000) Unheld (start 0)
      [.get (some [97]), .record, .signal .gc, .exit] := by decide
  obtain ⟨hself, hdump⟩ := exit_dumps_iff 50 1000 0 _ _ h
  exact ⟨_, h, rfl, rfl, hself halong, (hdump .gc .lock rfl (by decide)).mp halong⟩

/-- A signal for the recorder between its `lock` and its `unlock`. The dump waits for the
thread that it runs on, and whatever happens then, it is never finished. -/
theorem recorder_blocks_itself :
    ∃ acts s, run (step 50 1000) (start 0) acts = some s ∧ SelfBlocked s ∧
      ∀ t, Reaches (step 50 1000) s t → t.exit ≠ some (.recorder, .finished) := by
  have h : run (step 50 1000) (start 0) [.get (some [97]), .record, .signal .recorder, .exit] = some
      ⟨[], some .recorder, 0, false, .test [97], .lock, some (.recorder, .lock), [], [], none⟩ := by
    decide
  refine ⟨_, _, h, ⟨.recorder, rfl, rfl⟩, ?_⟩
  rintro t ⟨as, hrun⟩ hfin
  exact stuck_unfinished (run_excludes h) ⟨.recorder, .lock, rfl, .inr rfl, rfl⟩ hrun hfin

end Wissbi.RecordExit
