import Mathlib.Data.List.DropRight
import Wissbi.RecordMachine

set_option autoImplicit false

namespace Wissbi.RecordWindow
open RecordMachine Runs

def old (ttl : ℕ) (compared : Option ℕ) (e : Entry) : Bool :=
  match compared with
  | none => false
  | some c => decide ((ttl : ℤ) < (c : ℤ) - e.time)

/-- Of the last `maxNum` messages those that were not too old when `gc` looked last. -/
def kept (maxNum ttl : ℕ) (s : State) : List Entry :=
  (s.recorded.rtake maxNum).filter fun e => !old ttl s.compared e

/-- Neither a recording nor a pass of `gc` is half done. -/
def Settled (s : State) : Prop := (∀ msg, s.recorder ≠ .push msg) ∧ s.gc ≠ .test ∧ s.gc ≠ .pop

structure Clocked (s : State) : Prop where
  sorted : s.recorded.Pairwise fun e e' => e.time ≤ e'.time
  past : ∀ e ∈ s.recorded, e.time ≤ s.clock
  compared : ∀ c ∈ s.compared, c ≤ s.clock

def room : RecorderPc → ℕ
  | .push _ => 1
  | _ => 0

structure Evicts (maxNum ttl : ℕ) (s : State) : Prop where
  bound : s.mq.length + room s.recorder ≤ maxNum
  gone : ∃ gone, s.recorded = gone ++ s.mq ∧
    (s.mq.length + room s.recorder = maxNum ∨ ∀ e ∈ gone, old ttl s.compared e = true)
  young : s.gc = .test ∨ s.gc = .pop ∨ ∀ e ∈ s.mq, old ttl s.compared e = false
  front : s.gc = .pop → ∃ e rest, s.mq = e :: rest ∧ old ttl s.compared e = true

variable {maxNum ttl clock : ℕ} {s t u : State} {a : Act} {acts : List Act}

theorem old_of_le {compared : Option ℕ} {e e' : Entry} (hle : e.time ≤ e'.time)
    (h : old ttl compared e' = true) : old ttl compared e = true := by
  cases compared with
  | none => cases h
  | some c =>
    simp only [old, decide_eq_true_eq] at h ⊢
    omega

theorem old_later {compared : Option ℕ} {c : ℕ} {e : Entry} (hle : ∀ b ∈ compared, b ≤ c)
    (h : old ttl compared e = true) : old ttl (some c) e = true := by
  cases compared with
  | none => cases h
  | some b =>
    have := hle b rfl
    simp only [old, decide_eq_true_eq] at h ⊢
    omega

theorem old_eq_false {compared : Option ℕ} {e : Entry} (hle : ∀ c ∈ compared, c ≤ e.time) :
    old ttl compared e = false := by
  cases compared with
  | none => rfl
  | some c =>
    have := hle c rfl
    simp only [old, decide_eq_false_iff_not]
    omega

theorem moves_clocked (hs : Clocked s) (h : Moves maxNum ttl s a t) : Clocked t := by
  cases h with
  | ticked d =>
    refine ⟨hs.sorted, fun e he => ?_, fun c hc => ?_⟩
    · exact Nat.le_add_right_of_le (hs.past e he)
    · exact Nat.le_add_right_of_le (hs.compared c hc)
  | pushed msg _ _ =>
    refine ⟨?_, ?_, hs.compared⟩
    · rw [List.pairwise_append]
      refine ⟨hs.sorted, List.pairwise_singleton .., fun e he e' he' => ?_⟩
      rw [List.mem_singleton.mp he']
      exact hs.past e he
    · intro e he
      rcases List.mem_append.mp he with he | he
      · exact hs.past e he
      · rw [List.mem_singleton.mp he]
  | foundOld | foundYoung => exact ⟨hs.sorted, hs.past, fun c hc => (Option.some.inj hc).ge⟩
  | _ => exact ⟨hs.sorted, hs.past, hs.compared⟩

theorem Evicts.congr (hs : Evicts maxNum ttl s) (hq : t.mq = s.mq) (hr : t.recorded = s.recorded)
    (hc : t.compared = s.compared) (hroom : room t.recorder = room s.recorder)
    (hgc : t.gc = s.gc) : Evicts maxNum ttl t := by
  refine ⟨?_, ?_, ?_, ?_⟩
  · rw [hq, hroom]
    exact hs.bound
  · rw [hq, hr, hc, hroom]
    exact hs.gone
  · rw [hq, hc, hgc]
    exact hs.young
  · rw [hq, hc, hgc]
    exact hs.front

theorem Evicts.all_young (hs : Evicts maxNum ttl s) (ht : s.gc ≠ .test) (hp : s.gc ≠ .pop) :
    ∀ e ∈ s.mq, old ttl s.compared e = false :=
  (hs.young.resolve_left ht).resolve_left hp

theorem holds_eq_nil_ne {pc : GcPc} (h : pc.holds = []) : pc ≠ .test ∧ pc ≠ .pop := by
  constructor <;> rintro rfl <;> cases h

theorem tested_evicts (hmax : 1 ≤ maxNum) (hx : Excludes s) (hs : Evicts maxNum ttl s)
    {msg : Buffers.Msg} (hp : s.recorder = .test msg) :
    Evicts maxNum ttl { s with
      mq := if maxNum ≠ 0 ∧ s.mq.length = maxNum then s.mq.tail else s.mq
      recorder := .push msg } := by
  obtain ⟨hg, -, -⟩ := hx.recorder (by rw [hp]; rfl)
  obtain ⟨hnt, hnp⟩ := holds_eq_nil_ne hg
  have hyoung := hs.all_young hnt hnp
  obtain ⟨gone, hrec, hgone⟩ := hs.gone
  have hb := hs.bound
  simp only [hp, room, Nat.add_zero] at hb hgone
  split_ifs with hfull
  · obtain ⟨e, rest, hq⟩ : ∃ e rest, s.mq = e :: rest :=
      List.exists_cons_of_length_pos (by omega)
    rw [hq, List.length_cons] at hfull
    refine ⟨?_, ⟨gone ++ [e], ?_, .inl ?_⟩, .inr (.inr ?_), fun h => absurd h hnp⟩
    · simp only [hq, List.tail_cons, room]
      omega
    · simp [hrec, hq]
    · simp only [hq, List.tail_cons, room]
      omega
    · exact fun e he => hyoung e (List.mem_of_mem_tail he)
  · refine ⟨?_, ⟨gone, hrec, .inr (hgone.resolve_left ?_)⟩, .inr (.inr hyoung),
      fun h => absurd h hnp⟩
    · simp only [room]
      omega
    · omega

theorem pushed_evicts (hx : Excludes s) (hc : Clocked s) (hs : Evicts maxNum ttl s)
    {msg : Buffers.Msg} (hp : s.recorder = .push msg) :
    Evicts maxNum ttl { s with
      mq := s.mq ++ [⟨msg, s.clock⟩]
      recorded := s.recorded ++ [⟨msg, s.clock⟩]
      recorder := .unlock msg } := by
  obtain ⟨hg, -, -⟩ := hx.recorder (by rw [hp]; rfl)
  obtain ⟨hnt, hnp⟩ := holds_eq_nil_ne hg
  obtain ⟨gone, hrec, hgone⟩ := hs.gone
  have hb := hs.bound
  simp only [hp, room] at hb hgone
  refine ⟨?_, ⟨gone, by simp [hrec], ?_⟩, .inr (.inr ?_), fun h => absurd h hnp⟩
  · simpa [room] using hb
  · simpa [room] using hgone
  · intro e he
    rcases List.mem_append.mp he with he | he
    · exact hs.all_young hnt hnp e he
    · rw [List.mem_singleton.mp he]
      exact old_eq_false hc.compared

/-- A message that `gc` found to be old goes, and whatever was in front of it is older. -/
theorem popped_evicts (hx : Excludes s) (hc : Clocked s) (hs : Evicts maxNum ttl s)
    (hp : s.gc = .pop) : Evicts maxNum ttl { s with mq := s.mq.tail, gc := .test } := by
  obtain ⟨hr, -, -⟩ := hx.gc (by rw [hp]; rfl)
  obtain ⟨e, rest, hq, hold⟩ := hs.front hp
  obtain ⟨gone, hrec, -⟩ := hs.gone
  have hb := hs.bound
  have hsorted := hc.sorted
  rw [hrec, hq, List.pairwise_append] at hsorted
  refine ⟨?_, ⟨gone ++ [e], by simp [hrec, hq], .inr ?_⟩, .inl rfl, fun h => by cases h⟩
  · simp only [hq, List.tail_cons, List.length_cons] at hb ⊢
    omega
  · intro x hmem
    rcases List.mem_append.mp hmem with hmem | hmem
    · -- it was recorded before `e`
      exact old_of_le (hsorted.2.2 x hmem e (by simp)) hold
    · rw [List.mem_singleton.mp hmem]
      exact hold

/-- The first message of `mq` is looked at. If it is old it is taken off next, and if not, no
other one is old. -/
theorem compared_evicts (hc : Clocked s) (hs : Evicts maxNum ttl s) {e : Entry}
    {rest : List Entry} (hq : s.mq = e :: rest) {pc : GcPc}
    (hpc : (pc = .pop ∧ (ttl : ℤ) < (s.clock : ℤ) - e.time) ∨
      (pc = .unlock ∧ ¬ (ttl : ℤ) < (s.clock : ℤ) - e.time)) :
    Evicts maxNum ttl { s with compared := some s.clock, gc := pc } := by
  obtain ⟨gone, hrec, hgone⟩ := hs.gone
  have hsorted := hc.sorted
  rw [hrec, hq, List.pairwise_append, List.pairwise_cons] at hsorted
  refine ⟨hs.bound, ⟨gone, hrec, hgone.imp_right fun h x hx => old_later hc.compared (h x hx)⟩,
    ?_, ?_⟩
  · rcases hpc with ⟨rfl, -⟩ | ⟨-, hyoung⟩
    · exact .inr (.inl rfl)
    · refine .inr (.inr fun x hx => ?_)
      change x ∈ s.mq at hx
      rw [hq] at hx
      have hle : e.time ≤ x.time := by
        rcases List.mem_cons.mp hx with rfl | hx
        · exact le_rfl
        · exact hsorted.2.1.1 x hx
      simp only [old, decide_eq_false_iff_not]
      omega
  · intro hpop
    rcases hpc with ⟨-, hold⟩ | ⟨rfl, -⟩
    · exact ⟨e, rest, hq, decide_eq_true hold⟩
    · cases hpop

theorem moves_evicts (hmax : 1 ≤ maxNum) (hx : Excludes s) (hc : Clocked s)
    (hs : Evicts maxNum ttl s) (h : Moves maxNum ttl s a t) : Evicts maxNum ttl t := by
  cases h with
  | got _ _ hp | recorderLocked _ _ hp | recorderUnlocked _ _ hp | passed _ _ hp =>
    exact hs.congr rfl rfl rfl (by rw [hp]; rfl) rfl
  | returned _ _ hp =>
    exact hs.congr rfl rfl rfl (by rcases hp with hp | hp <;> rw [hp] <;> rfl) rfl
  | tested msg _ hp => exact tested_evicts hmax hx hs hp
  | pushed msg _ hp => exact pushed_evicts hx hc hs hp
  | gcLocked => exact ⟨hs.bound, hs.gone, .inl rfl, fun h => by cases h⟩
  | emptied _ _ hq => exact ⟨hs.bound, hs.gone, .inr (.inr (by simp [hq])), fun h => by cases h⟩
  | foundOld e rest _ _ hq hold => exact compared_evicts hc hs hq (.inl ⟨rfl, hold⟩)
  | foundYoung e rest _ _ hq hyoung => exact compared_evicts hc hs hq (.inr ⟨rfl, hyoung⟩)
  | popped _ hp => exact popped_evicts hx hc hs hp
  | gcUnlocked _ hp =>
    exact ⟨hs.bound, hs.gone, .inr (.inr (hs.all_young (by simp [hp]) (by simp [hp]))),
      fun h => by cases h⟩
  | woke _ hp =>
    refine ⟨hs.bound, hs.gone, .inr (.inr (hs.all_young (by simp [hp]) (by simp [hp]))), ?_⟩
    intro h
    change (if s.running then GcPc.lock else GcPc.ended) = .pop at h
    split_ifs at h
  | ticked | signalled | opened | exitLocked | wrote | wroteAll | exitUnlocked =>
    exact hs.congr rfl rfl rfl rfl rfl

theorem rtake_append {α : Type} {gone rest : List α} {n : ℕ} (h : rest.length ≤ n) :
    (gone ++ rest).rtake n = gone.rtake (n - rest.length) ++ rest := by
  unfold List.rtake
  have hdrop : (gone ++ rest).length - n = gone.length - (n - rest.length) := by
    rw [List.length_append]
    omega
  rw [hdrop, List.drop_append_of_le_length (Nat.sub_le _ _)]

theorem mq_eq_kept (hs : Evicts maxNum ttl s) (h : Settled s) : s.mq = kept maxNum ttl s := by
  have hroom : room s.recorder = 0 := by
    cases hp : s.recorder with
    | push msg => exact absurd hp (h.1 msg)
    | _ => rfl
  have hyoung := hs.all_young h.2.1 h.2.2
  obtain ⟨gone, hrec, hgone⟩ := hs.gone
  have hb := hs.bound
  rw [hroom, Nat.add_zero] at hb hgone
  have hnone : (gone.rtake (maxNum - s.mq.length)).filter (fun e => !old ttl s.compared e) = [] := by
    rcases hgone with hfull | hold
    · rw [hfull, Nat.sub_self, List.rtake_zero, List.filter_nil]
    · rw [List.filter_eq_nil_iff]
      intro e he
      simp [hold e (List.mem_of_mem_drop he)]
  have hall : s.mq.filter (fun e => !old ttl s.compared e) = s.mq := by
    rw [List.filter_eq_self]
    intro e he
    simp [hyoung e he]
  rw [kept, hrec, rtake_append hb, List.filter_append, hnone, hall, List.nil_append]

theorem settled_of_holds (hr : s.recorder.holds = []) (hg : s.gc.holds = []) : Settled s := by
  refine ⟨fun msg hp => ?_, holds_eq_nil_ne hg⟩
  rw [hp] at hr
  cases hr

structure Written (s : State) : Prop where
  opened : ∀ w, s.exit = some (w, .lock) → s.file = []
  part : ∀ w k, s.exit = some (w, .write k) → s.file = dump (s.mq.take k)
  all : ∀ w, s.exit = some (w, .unlock) → s.file = dump s.mq

theorem Written.of_unheld (hs : Written s) (hfile : t.file = s.file) (hexit : t.exit = s.exit)
    (hun : exitHolds s.exit = []) : Written t := by
  refine ⟨fun w h => ?_, fun w k h => ?_, fun w h => ?_⟩
  · rw [hfile]
    exact hs.opened w (hexit ▸ h)
  · rw [hexit] at h
    rw [h] at hun
    cases hun
  · rw [hexit] at h
    rw [h] at hun
    cases hun

theorem moves_written (hx : Excludes s) (hs : Written s) (h : Moves maxNum ttl s a t) :
    Written t := by
  cases h with
  | tested _ _ hp | pushed _ _ hp =>
    exact hs.of_unheld rfl rfl (hx.recorder (by rw [hp]; rfl)).2.1
  | popped _ hp => exact hs.of_unheld rfl rfl (hx.gc (by rw [hp]; rfl)).2.1
  | returned _ hi =>
    cases he : s.exit with
    | none => constructor <;> simp [State.mainReturns, he]
    | some x =>
      have hexit : s.mainReturns.exit = s.exit := by simp [State.mainReturns, he]
      exact ⟨fun w h => hs.opened w (hexit ▸ h), fun w k h => hs.part w k (hexit ▸ h),
        fun w h => hs.all w (hexit ▸ h)⟩
  | signalled | opened | exitUnlocked => constructor <;> simp
  | exitLocked w he hm =>
    constructor
    · simp
    · rintro v k h
      cases h
      exact hs.opened w he
    · simp
  | wrote w k e he hk =>
    constructor
    · simp
    · rintro v j h
      cases h
      change s.file ++ _ = dump (s.mq.take (k + 1))
      rw [hs.part w k he, List.take_add_one, hk]
      simp [dump]
    · simp
  | wroteAll w k he hk =>
    constructor
    · simp
    · simp
    · rintro v h
      cases h
      change s.file = dump s.mq
      rw [hs.part w k he, List.take_of_length_le (List.getElem?_eq_none_iff.mp hk)]
  | _ => exact ⟨hs.opened, hs.part, hs.all⟩

theorem run_written (hx : Excludes s) (hs : Written s)
    (h : run (step maxNum ttl) s acts = some t) : Written t :=
  (run_invariant (fun t => Excludes t ∧ Written t)
    (fun _ _ _ ht hstep => ⟨moves_excludes ht.1 (step_moves hstep),
      moves_written ht.1 ht.2 (step_moves hstep)⟩) h ⟨hx, hs⟩).2

theorem start_written (clock : ℕ) : Written (start clock) := by
  constructor <;> simp [start]

structure Records (maxNum ttl : ℕ) (s : State) : Prop where
  excludes : Excludes s
  clocked : Clocked s
  evicts : Evicts maxNum ttl s
  written : Written s

theorem start_records (maxNum ttl clock : ℕ) : Records maxNum ttl (start clock) := by
  refine ⟨start_excludes clock, ⟨List.Pairwise.nil, by simp [start], by simp [start]⟩, ?_,
    start_written clock⟩
  exact ⟨Nat.zero_le _, ⟨[], rfl, .inr (by simp)⟩, .inr (.inr (by simp [start])), by simp [start]⟩

theorem run_records (hmax : 1 ≤ maxNum)
    (h : run (step maxNum ttl) (start clock) acts = some s) : Records maxNum ttl s := by
  refine run_invariant (Records maxNum ttl) (fun s a t hs ht => ?_) h (start_records ..)
  have hm := step_moves ht
  exact ⟨moves_excludes hs.excludes hm, moves_clocked hs.clocked hm,
    moves_evicts hmax hs.excludes hs.clocked hs.evicts hm, moves_written hs.excludes hs.written hm⟩

theorem moves_finished {w : Thread} (h : Moves maxNum ttl s a t)
    (ht : t.exit = some (w, .finished)) :
    (s.exit = some (w, .unlock) ∨ s.exit = some (w, .finished)) ∧ t.file = s.file := by
  cases h with
  | returned =>
    refine ⟨.inr ?_, rfl⟩
    cases he : s.exit with
    | none => simp [State.mainReturns, he] at ht
    | some x => simpa [State.mainReturns, he] using ht
  | signalled | opened | exitLocked | wrote | wroteAll => cases ht
  | exitUnlocked v he =>
    cases ht
    exact ⟨.inl he, rfl⟩
  | _ => exact ⟨.inr ht, rfl⟩

/-- What a finished dump has written is what was to be kept when it had written it all. -/
theorem run_dumped (hmax : 1 ≤ maxNum) (h : run (step maxNum ttl) (start clock) acts = some s)
    {w : Thread} (hw : s.exit = some (w, .finished)) :
    ∃ before after u, acts = before ++ after ∧
      run (step maxNum ttl) (start clock) before = some u ∧ u.exit = some (w, .unlock) ∧
      Settled u ∧ s.file = dump (kept maxNum ttl u) := by
  refine run_history (fun as t => ∀ w, t.exit = some (w, .finished) →
    ∃ before after u, as = before ++ after ∧
      run (step maxNum ttl) (start clock) before = some u ∧ u.exit = some (w, .unlock) ∧
      Settled u ∧ t.file = dump (kept maxNum ttl u)) h (by simp [start]) ?_ w hw
  intro as t a v ht ih hstep w hw
  obtain ⟨he | he, hfile⟩ := moves_finished (step_moves hstep) hw
  · have hrec := run_records hmax ht
    obtain ⟨hr, hg, -⟩ := hrec.excludes.exit (w := w) (by rw [he]; rfl)
    have hsettled := settled_of_holds hr hg
    refine ⟨as, [a], t, rfl, ht, he, hsettled, ?_⟩
    rw [hfile, hrec.written.all w he, mq_eq_kept hrec.evicts hsettled]
  · obtain ⟨before, after, u, rfl, hu⟩ := ih w he
    rw [hfile]
    exact ⟨before, after ++ [a], u, by rw [List.append_assoc], hu⟩

theorem run_later (h : run (step maxNum ttl) u acts = some s) :
    u.clock ≤ s.clock ∧ ∃ new, s.recorded = u.recorded ++ new ∧ ∀ e ∈ new, u.clock ≤ e.time := by
  refine run_invariant (fun t => u.clock ≤ t.clock ∧
    ∃ new, t.recorded = u.recorded ++ new ∧ ∀ e ∈ new, u.clock ≤ e.time)
    (fun t a v ht hstep => ?_) h ⟨le_rfl, [], by simp, by simp⟩
  obtain ⟨hle, new, hnew, htime⟩ := ht
  cases step_moves hstep with
  | ticked d => exact ⟨Nat.le_add_right_of_le hle, new, hnew, htime⟩
  | pushed msg =>
    refine ⟨hle, new ++ [⟨msg, t.clock⟩], ?_, ?_⟩
    · change t.recorded ++ _ = _
      rw [hnew, List.append_assoc]
    · intro e he
      rcases List.mem_append.mp he with he | he
      · exact htime e he
      · rw [List.mem_singleton.mp he]
        exact hle
  | _ => exact ⟨hle, new, hnew, htime⟩

theorem rtake_suffix_append {α : Type} (xs ys : List α) (n : ℕ) :
    ys.rtake n <:+ (xs ++ ys).rtake n := by
  have hk : xs.length + ys.length - n - xs.length = ys.length - n := by omega
  unfold List.rtake
  rw [List.length_append, List.drop_append, hk]
  exact List.suffix_append _ _

theorem recorded_since (hs : Records maxNum ttl s) (hu : Clocked u) (h : Settled s)
    (hrun : run (step maxNum ttl) u acts = some s) (hsame : s.compared = u.compared)
    {new : List Entry} (hnew : s.recorded = u.recorded ++ new) :
    new.rtake maxNum <:+ s.mq := by
  obtain ⟨-, new', hnew', htime⟩ := run_later hrun
  obtain rfl : new' = new := List.append_cancel_left (hnew'.symm.trans hnew)
  have hyoung : (new'.rtake maxNum).filter (fun e => !old ttl s.compared e) =
      new'.rtake maxNum := by
    rw [List.filter_eq_self]
    intro e he
    rw [hsame, old_eq_false fun c hc => (hu.compared c hc).trans (htime e (List.mem_of_mem_drop he))]
    rfl
  rw [mq_eq_kept hs.evicts h, kept, hnew, ← hyoung]
  exact (rtake_suffix_append _ _ _).filter _

/-- `mq` is a suffix of all that was recorded and never too long. Whenever no thread is at
work on it, it has exactly those of the last `maxNum` messages that were not too old when
`gc` looked last, all later ones among them, and these are what a dump writes. -/
theorem keeps_recent (maxNum ttl clock : ℕ) (hmax : 1 ≤ maxNum) (acts : List Act) (s : State)
    (h : run (step maxNum ttl) (start clock) acts = some s) :
    s.mq <:+ s.recorded ∧ s.mq.length ≤ maxNum ∧
    (s.mtx = none → Settled s) ∧ (Settled s → s.mq = kept maxNum ttl s) ∧
    (∀ before after u new, acts = before ++ after →
      run (step maxNum ttl) (start clock) before = some u → s.compared = u.compared →
      s.recorded = u.recorded ++ new → Settled s → new.rtake maxNum <:+ s.mq) ∧
    (∀ w, s.exit = some (w, .finished) →
      ∃ before after u, acts = before ++ after ∧
        run (step maxNum ttl) (start clock) before = some u ∧ u.exit = some (w, .unlock) ∧
        Settled u ∧ s.file = dump (kept maxNum ttl u)) := by
  have hs := run_records hmax h
  refine ⟨?_, ?_, fun hm => ?_, mq_eq_kept hs.evicts, ?_, fun w hw => run_dumped hmax h hw⟩
  · obtain ⟨gone, hrec, -⟩ := hs.evicts.gone
    exact ⟨gone, hrec.symm⟩
  · exact Nat.le_of_add_right_le hs.evicts.bound
  · obtain ⟨hr, hg, -⟩ := hs.excludes.free hm
    exact settled_of_holds hr hg
  · rintro before after u new rfl hu hsame hnew hsettled
    rw [run_append, hu, Option.bind_some] at h
    exact recorded_since hs (run_records hmax hu).clocked hsettled h hsame hnew

def recording (msg : Buffers.Msg) : List Act :=
  [.get (some msg), .record, .record, .record, .record, .record]

def oldMessage : List Act :=
  recording [97] ++ [.tick 10] ++ recording [98] ++ [.gc, .gc, .gc, .gc, .gc] ++ recording [99] ++
    [.signal .gc, .exit, .exit, .exit, .exit, .exit, .exit]

theorem old_message_dropped :
    ∃ s, run (step 2 5) (start 0) oldMessage = some s ∧
      s.recorded = [⟨[97], 0⟩, ⟨[98], 10⟩, ⟨[99], 10⟩] ∧ s.mq = [⟨[98], 10⟩, ⟨[99], 10⟩] ∧
      s.exit = some (.gc, .finished) ∧ s.file = [98, 10, 99, 10] ∧ s.mq = kept 2 5 s := by
  have h : run (step 2 5) (start 0) oldMessage = some
      ⟨[⟨[98], 10⟩, ⟨[99], 10⟩], none, 10, false, .get, .sleep, some (.gc, .finished),
        [98, 10, 99, 10], [⟨[97], 0⟩, ⟨[98], 10⟩, ⟨[99], 10⟩], some 10⟩ := by decide
  obtain ⟨-, -, hsettled, hkept, -⟩ := keeps_recent 2 5 0 (by decide) oldMessage _ h
  exact ⟨_, h, rfl, rfl, rfl, rfl, hkept (hsettled rfl)⟩

end Wissbi.RecordWindow
