import Wissbi.ConnectorMachine

set_option autoImplicit false

namespace Wissbi.ConnectorInvariants
open ConnectorMachine Runs ThreadPool

section
variable {Conn Dest : Type} [DecidableEq Conn] [DecidableEq Dest]

def entry : Pc Conn Dest → Option (Conn × Dest)
  | .existsBranch e _ => some e
  | .addBranch e _ => some e
  | .findMetric e _ => some e
  | .pushFront e _ => some e
  | .spawn e _ => some e
  | .insert e _ => some e
  | _ => none

def inserting : Pc Conn Dest → Option Conn
  | .insert e _ => some e.1
  | _ => none

omit [DecidableEq Conn] [DecidableEq Dest] in
theorem entry_of_inserting {pc : Pc Conn Dest} {c : Conn} (h : inserting pc = some c) :
    ∃ e, entry pc = some e ∧ e.1 = c := by
  cases pc
  case insert e rest => exact ⟨e, rfl, Option.some.inj h⟩
  all_goals cases h

def branched : Pc Conn Dest → Option Dest
  | .findMetric e _ => some e.2
  | .pushFront e _ => some e.2
  | .spawn e _ => some e.2
  | .insert e _ => some e.2
  | _ => none

def unmetered : Pc Conn Dest → Option Dest
  | .findMetric e _ => some e.2
  | .pushFront e _ => some e.2
  | _ => none

/-- The producer threads of a connect string that have not executed their erase. -/
def alive (c : Conn) (threads : List (Thread Conn Dest)) : ℕ :=
  threads.countP fun t => t.conn = c ∧ t.status ≠ .erased

structure Threads (s : State Conn Dest) : Prop where
  unique : ∀ c, alive c s.threads ≤ 1
  marked : ∀ t ∈ s.threads, t.status ≠ .erased →
    t.conn ∈ s.producerSet ∨ inserting s.pc = some t.conn
  absent : ∀ e, entry s.pc = some e → e.1 ∉ s.producerSet

structure Tables (s : State Conn Dest) : Prop where
  threads : ∀ t ∈ s.threads, (s.branchMap t.dest).isSome
  inHand : ∀ d, branched s.pc = some d → (s.branchMap d).isSome
  sound : ∀ d ∈ s.metricList, (s.branchMap d).isSome
  complete : ∀ d, (s.branchMap d).isSome → d ∈ s.metricList ∨ unmetered s.pc = some d
  unadded : ∀ e rest, s.pc = .addBranch e rest → s.branchMap e.2 = none
  missing : ∀ e rest, s.pc = .pushFront e rest → e.2 ∉ s.metricList
  nodup : s.metricList.Nodup

omit [DecidableEq Dest] in
theorem alive_pos {c : Conn} {threads : List (Thread Conn Dest)} :
    0 < alive c threads ↔ ∃ t ∈ threads, t.conn = c ∧ t.status ≠ .erased := by
  simp [alive, List.countP_pos_iff]

omit [DecidableEq Dest] in
theorem alive_set (c : Conn) {threads : List (Thread Conn Dest)} {i : ℕ} {t : Thread Conn Dest}
    (h : threads[i]? = some t) (u : Thread Conn Dest) :
    alive c (threads.set i u) + alive c [t] = alive c threads + alive c [u] := by
  obtain ⟨before, after, rfl, hset⟩ := split_at h
  rw [hset]
  unfold alive
  rw [← List.singleton_append, ← List.singleton_append (l := after), List.countP_append,
    List.countP_append, List.countP_append, List.countP_append]
  omega

omit [DecidableEq Dest] in
theorem alive_append (c : Conn) (a b : List (Thread Conn Dest)) :
    alive c (a ++ b) = alive c a + alive c b := List.countP_append

omit [DecidableEq Dest] in
theorem alive_advance (c : Conn) {threads : List (Thread Conn Dest)} {i : ℕ}
    {t : Thread Conn Dest} {b : Status} (h : threads[i]? = some t) (ht : t.status ≠ .erased)
    (hb : b ≠ .erased) : alive c (threads.set i { t with status := b }) = alive c threads := by
  have hset := alive_set c h { t with status := b }
  have hsame : alive c [{ t with status := b }] = alive c [t] := by simp [alive, ht, hb]
  omega

omit [DecidableEq Dest] in
theorem alive_erase_ne (c : Conn) {threads : List (Thread Conn Dest)} {i : ℕ}
    {t : Thread Conn Dest} (h : threads[i]? = some t) (hc : c ≠ t.conn) :
    alive c (threads.set i { t with status := .erased }) = alive c threads := by
  have hset := alive_set c h { t with status := .erased }
  have hold : alive c [t] = 0 := by simp [alive, Ne.symm hc]
  have hnew : alive c [{ t with status := .erased }] = 0 := by simp [alive]
  omega

omit [DecidableEq Dest] in
theorem alive_erase {s : State Conn Dest} (hs : Threads s) {i : ℕ} {t : Thread Conn Dest}
    (h : s.threads[i]? = some t) (ht : t.status = .ending) :
    alive t.conn (s.threads.set i { t with status := .erased }) = 0 := by
  have hset := alive_set t.conn h { t with status := .erased }
  have hone : alive t.conn [t] = 1 := by simp [alive, ht]
  have hzero : alive t.conn [{ t with status := .erased }] = 0 := by simp [alive]
  have hle := hs.unique t.conn
  omega

omit [DecidableEq Dest] in
theorem Threads.goto {s : State Conn Dest} (hs : Threads s) (pc : Pc Conn Dest)
    (hin : inserting s.pc = none) (habs : ∀ e, entry pc = some e → e.1 ∉ s.producerSet)
    {branchMap : Dest → Option ℕ} {fresh : ℕ} {metricList : List Dest} :
    Threads { s with pc, branchMap, fresh, metricList } := by
  refine ⟨hs.unique, fun t ht ha => ?_, habs⟩
  rcases hs.marked t ht ha with h | h
  · exact .inl h
  · rw [hin] at h
    cases h

omit [DecidableEq Dest] in
theorem Threads.carry {s : State Conn Dest} (hs : Threads s) {pc : Pc Conn Dest} (e : Conn × Dest)
    (hin : inserting s.pc = none) (hs' : entry s.pc = some e) (hpc : entry pc = some e)
    {branchMap : Dest → Option ℕ} {fresh : ℕ} {metricList : List Dest} :
    Threads { s with pc, branchMap, fresh, metricList } := by
  refine hs.goto pc hin fun x hx => hs.absent x ?_
  rw [hs', ← hpc, hx]

omit [DecidableEq Dest] in
/-- The connect string of a thread that is started has no other thread: it is not marked, and
every running thread is. -/
theorem Threads.spawn {s : State Conn Dest} (hs : Threads s) (e : Conn × Dest)
    (rest : List (Conn × Dest)) (hp : s.pc = .spawn e rest) :
    Threads { s with
      pc := .insert e rest
      threads := s.threads ++ [⟨e.1, e.2, .connecting⟩] } := by
  have habs : ∀ x, some e = some x → x.1 ∉ s.producerSet :=
    fun x hx => hs.absent x (by rw [hp]; exact hx)
  have hmarked : ∀ t ∈ s.threads, t.status ≠ .erased → t.conn ∈ s.producerSet := by
    intro t ht ha
    simpa [hp, inserting] using hs.marked t ht ha
  refine ⟨fun c => ?_, fun t ht ha => ?_, habs⟩
  · have happ : alive c (s.threads ++ [⟨e.1, e.2, .connecting⟩]) =
        alive c s.threads + alive c [⟨e.1, e.2, .connecting⟩] := alive_append _ _ _
    by_cases hc : e.1 = c
    · have hnone : alive c s.threads = 0 := by
        refine Nat.eq_zero_of_not_pos fun hpos => ?_
        obtain ⟨t, ht, hconn, ha⟩ := alive_pos.mp hpos
        exact habs e rfl (hc ▸ hconn ▸ hmarked t ht ha)
      rw [happ, hnone]
      exact Nat.le_trans (Nat.le_of_eq (Nat.zero_add _)) List.countP_le_length
    · have hzero : alive c [⟨e.1, e.2, .connecting⟩] = 0 := by simp [alive, hc]
      rw [happ, hzero]
      exact hs.unique c
  · rcases List.mem_append.mp ht with ht | ht
    · exact .inl (hmarked t ht ha)
    · rw [List.mem_singleton.mp ht]
      exact .inr rfl

theorem loop_threads {s t : State Conn Dest} (hs : Threads s) (h : LoopMoves s t) : Threads t := by
  cases h with
  | passed hp => exact hs.goto _ (by rw [hp]; rfl) (by simp [entry])
  | known e rest hp hc => exact hs.goto _ (by rw [hp]; rfl) (by simp [entry])
  | unknown e rest hp hc => exact hs.goto _ (by rw [hp]; rfl) (by simpa [entry] using hc)
  | branched e rest hp hb =>
    exact hs.carry e (by rw [hp]; rfl) (by rw [hp]; rfl) rfl
  | unbranched e rest hp hb =>
    exact hs.carry e (by rw [hp]; rfl) (by rw [hp]; rfl) rfl
  | added e rest hp =>
    exact hs.carry e (by rw [hp]; rfl) (by rw [hp]; rfl) rfl
  | metered e rest hp hm =>
    exact hs.carry e (by rw [hp]; rfl) (by rw [hp]; rfl) rfl
  | unmetered e rest hp hm =>
    exact hs.carry e (by rw [hp]; rfl) (by rw [hp]; rfl) rfl
  | pushed e rest hp =>
    exact hs.carry e (by rw [hp]; rfl) (by rw [hp]; rfl) rfl
  | spawned e rest hp => exact hs.spawn e rest hp
  | inserted e rest hp =>
    refine ⟨hs.unique, fun t ht ha => ?_, by simp [entry]⟩
    rcases hs.marked t ht ha with h | h
    · exact .inl (Finset.mem_insert_of_mem h)
    · rw [hp] at h
      rw [← Option.some.inj h]
      exact .inl (Finset.mem_insert_self _ _)

theorem step_threads (s : State Conn Dest) (a : Act Conn Dest) (t : State Conn Dest)
    (hs : Threads s) (h : step s a = some t) : Threads t := by
  obtain ⟨entries, -, hp, rfl⟩ | ⟨-, hp, rfl⟩ | ⟨-, hm⟩ | ⟨i, th, b, -, hth, ha, hb, rfl⟩ |
    ⟨i, th, -, hth, ha, rfl⟩ := step_cases h
  · exact hs.goto _ (by rw [hp]; rfl) (by simp [entry])
  · exact hs.goto _ (by rw [hp]; rfl) (by simp [entry])
  · exact loop_threads hs hm
  · refine ⟨fun c => ?_, ?_, hs.absent⟩
    · rw [alive_advance c hth ha hb]
      exact hs.unique c
    · exact forall_set hs.marked fun _ => hs.marked th (List.mem_of_getElem? hth) ha
  · have hzero := alive_erase hs hth ha
    refine ⟨fun c => ?_, fun t ht hal => ?_, fun e he hmem => ?_⟩
    · by_cases hc : c = th.conn
      · rw [hc, hzero]
        exact Nat.zero_le 1
      · rw [alive_erase_ne c hth hc]
        exact hs.unique c
    · have hne : t.conn ≠ th.conn := by
        intro hc
        exact absurd hzero (Nat.ne_of_gt (alive_pos.mpr ⟨t, ht, hc, hal⟩))
      rcases List.mem_or_eq_of_mem_set ht with ht | rfl
      · rcases hs.marked t ht hal with h | h
        · exact .inl (Finset.mem_erase_of_ne_of_mem hne h)
        · exact .inr h
      · exact absurd rfl hal
    · exact hs.absent e he (Finset.mem_of_mem_erase hmem)

omit [DecidableEq Dest] in
theorem start_threads : Threads (start Conn Dest) := by
  refine ⟨?_, ?_, ?_⟩ <;> simp [start, alive, entry]

theorem run_threads {acts : List (Act Conn Dest)} {s : State Conn Dest}
    (h : run step (start Conn Dest) acts = some s) : Threads s :=
  run_invariant Threads step_threads h start_threads

omit [DecidableEq Conn] in
theorem update_isSome (m : Dest → Option ℕ) (d x : Dest) (p : ℕ) :
    (Function.update m d (some p) x).isSome ↔ x = d ∨ (m x).isSome := by
  by_cases h : x = d <;> simp [Function.update, h]

omit [DecidableEq Conn] [DecidableEq Dest] in
theorem Tables.goto {s : State Conn Dest} (hs : Tables s) (pc : Pc Conn Dest)
    (hb : ∀ d, branched pc = some d → (s.branchMap d).isSome)
    (hu : ∀ d, unmetered s.pc = some d → d ∈ s.metricList ∨ unmetered pc = some d)
    (ha : ∀ e rest, pc = .addBranch e rest → s.branchMap e.2 = none)
    (hm : ∀ e rest, pc = .pushFront e rest → e.2 ∉ s.metricList) {producerSet : Finset Conn} :
    Tables { s with pc, producerSet } := by
  refine ⟨hs.threads, hb, hs.sound, fun d hd => ?_, ha, hm, hs.nodup⟩
  rcases hs.complete d hd with h | h
  · exact .inl h
  · exact hu d h

omit [DecidableEq Conn] [DecidableEq Dest] in
theorem Tables.drop {s : State Conn Dest} (hs : Tables s) (pc : Pc Conn Dest)
    (hpc : entry pc = none) (hu : unmetered s.pc = none) {producerSet : Finset Conn} :
    Tables { s with pc, producerSet } := by
  apply hs.goto pc
  · intro d hd
    cases pc <;> cases hpc <;> cases hd
  · intro d hd
    rw [hu] at hd
    cases hd
  · rintro e rest rfl
    cases hpc
  · rintro e rest rfl
    cases hpc

theorem loop_tables {s t : State Conn Dest} (hs : Tables s) (h : LoopMoves s t) : Tables t := by
  cases h with
  | passed hp => exact hs.drop _ rfl (by rw [hp]; rfl)
  | known e rest hp => exact hs.drop _ rfl (by rw [hp]; rfl)
  | unknown e rest hp =>
    exact hs.goto _ (by simp [branched]) (by simp [hp, unmetered]) (by simp) (by simp)
  | branched e rest hp hb =>
    exact hs.goto _ (by simpa [branched] using hb) (by simp [hp, unmetered]) (by simp) (by simp)
  | unbranched e rest hp hb =>
    refine hs.goto _ (by simp [branched]) (by simp [hp, unmetered]) ?_ (by simp)
    rintro x r ⟨⟩
    exact hb
  | added e rest hp =>
    refine ⟨?_, ?_, ?_, ?_, by simp, by simp, hs.nodup⟩
    · exact fun t ht => (update_isSome _ _ _ _).mpr (.inr (hs.threads t ht))
    · intro d hd
      exact (update_isSome _ _ _ _).mpr (.inl (Option.some.inj hd).symm)
    · exact fun d hd => (update_isSome _ _ _ _).mpr (.inr (hs.sound d hd))
    · intro d hd
      rcases (update_isSome _ _ _ _).mp hd with rfl | hd
      · exact .inr rfl
      · exact .inl (by simpa [hp, unmetered] using hs.complete d hd)
  | metered e rest hp hm =>
    have hb := hs.inHand e.2 (by rw [hp]; rfl)
    exact hs.goto _ (by simpa [branched] using hb) (by simpa [hp, unmetered] using hm)
      (by simp) (by simp)
  | unmetered e rest hp hm =>
    have hb := hs.inHand e.2 (by rw [hp]; rfl)
    apply hs.goto _ (by simpa [branched] using hb) (by simp [hp, unmetered]) (by simp)
    rintro x r ⟨⟩
    exact hm
  | pushed e rest hp =>
    have hb := hs.inHand e.2 (by rw [hp]; rfl)
    refine ⟨hs.threads, by simpa [branched] using hb, ?_, ?_, by simp, by simp, ?_⟩
    · exact List.forall_mem_cons.mpr ⟨hb, hs.sound⟩
    · intro d hd
      rcases hs.complete d hd with h | h
      · exact .inl (List.mem_cons_of_mem _ h)
      · rw [hp] at h
        rw [← Option.some.inj h]
        exact .inl List.mem_cons_self
    · exact List.nodup_cons.mpr ⟨hs.missing e rest hp, hs.nodup⟩
  | spawned e rest hp =>
    have hb := hs.inHand e.2 (by rw [hp]; rfl)
    refine ⟨?_, by simpa [branched] using hb, hs.sound, ?_, by simp, by simp, hs.nodup⟩
    · intro t ht
      rcases List.mem_append.mp ht with ht | ht
      · exact hs.threads t ht
      · rw [List.mem_singleton.mp ht]
        exact hb
    · intro d hd
      simpa [hp, unmetered] using hs.complete d hd
  | inserted e rest hp => exact hs.drop _ rfl (by rw [hp]; rfl)

theorem step_tables (s : State Conn Dest) (a : Act Conn Dest) (t : State Conn Dest)
    (hs : Tables s) (h : step s a = some t) : Tables t := by
  obtain ⟨entries, -, hp, rfl⟩ | ⟨-, hp, rfl⟩ | ⟨-, hm⟩ | ⟨i, th, b, -, hth, -, -, rfl⟩ |
    ⟨i, th, -, hth, -, rfl⟩ := step_cases h
  · exact hs.drop _ rfl (by rw [hp]; rfl)
  · exact hs.drop _ rfl (by rw [hp]; rfl)
  · exact loop_tables hs hm
  · exact ⟨forall_set hs.threads (hs.threads th (List.mem_of_getElem? hth)), hs.inHand, hs.sound,
      hs.complete, hs.unadded, hs.missing, hs.nodup⟩
  · exact ⟨forall_set hs.threads (hs.threads th (List.mem_of_getElem? hth)), hs.inHand, hs.sound,
      hs.complete, hs.unadded, hs.missing, hs.nodup⟩

theorem run_tables {acts : List (Act Conn Dest)} {s : State Conn Dest}
    (h : run step (start Conn Dest) acts = some s) : Tables s := by
  refine run_invariant Tables step_tables h ⟨?_, ?_, ?_, ?_, ?_, ?_, ?_⟩ <;> simp [start, branched]

def Extends (m m' : Dest → Option ℕ) : Prop := ∀ d p, m d = some p → m' d = some p

theorem step_extends {s t : State Conn Dest} {a : Act Conn Dest} (hs : Tables s)
    (h : step s a = some t) : Extends s.branchMap t.branchMap := by
  obtain ⟨entries, -, hp, rfl⟩ | ⟨-, hp, rfl⟩ | ⟨-, hm⟩ | ⟨i, th, b, -, hth, -, -, rfl⟩ |
    ⟨i, th, -, hth, -, rfl⟩ := step_cases h
  · exact fun _ _ h => h
  · exact fun _ _ h => h
  · cases hm
    case added e rest hp =>
      intro d p hd
      have hne : d ≠ e.2 := by
        rintro rfl
        rw [hs.unadded e rest hp] at hd
        cases hd
      exact (Function.update_of_ne hne _ _).trans hd
    all_goals exact fun _ _ h => h
  · exact fun _ _ h => h
  · exact fun _ _ h => h

theorem run_extends {s u : State Conn Dest} {acts : List (Act Conn Dest)} (hs : Tables s)
    (h : run step s acts = some u) : Extends s.branchMap u.branchMap := by
  refine (run_invariant (fun t => Tables t ∧ Extends s.branchMap t.branchMap) ?_ h
    ⟨hs, fun _ _ h => h⟩).2
  rintro t a v ⟨ht, he⟩ hv
  exact ⟨step_tables t a v ht hv, fun d p hd => step_extends ht hv d p (he d p hd)⟩

/-- Over every run: one producer at most for a connect string, none without its branch,
branches stay, and at the end of a pass the metrics are those of the branches. -/
theorem connector_invariant (acts : List (Act Conn Dest)) (s : State Conn Dest)
    (h : run step (start Conn Dest) acts = some s) :
    (∀ c, alive c s.threads ≤ 1) ∧
    (∀ t ∈ s.threads, (s.branchMap t.dest).isSome) ∧
    (∀ more u, run step s more = some u →
      ∀ d p, s.branchMap d = some p → u.branchMap d = some p) ∧
    (s.pc = .find [] ∨ s.pc = .sleeping →
      (∀ d, (s.branchMap d).isSome ↔ d ∈ s.metricList) ∧ s.metricList.Nodup) := by
  have ht := run_tables h
  refine ⟨(run_threads h).unique, ht.threads, fun more u hu => run_extends ht hu, fun hp => ?_⟩
  refine ⟨fun d => ⟨fun hd => ?_, ht.sound d⟩, ht.nodup⟩
  rcases ht.complete d hd with hm | hm
  · exact hm
  · rcases hp with hp | hp <;> simp [hp, unmetered] at hm

/-- A destination with two subscribers, listed twice, the first of which dies. -/
def twoSubscribers : List (Act ℕ ℕ) :=
  [.list [(1, 7), (1, 7), (2, 7)], .loop, .loop, .loop, .loop, .loop, .loop, .loop, .loop,
    .connectOk 0, .loop, .loop, .loop, .loop, .loop, .loopEnd 0, .loop, .erase 0]

theorem two_subscribers_kept :
    ∃ s, run step (start ℕ ℕ) twoSubscribers = some s ∧ s.pc = .sleeping ∧
      s.threads = [⟨1, 7, .erased⟩, ⟨2, 7, .connecting⟩] ∧ (∀ c, alive c s.threads ≤ 1) ∧
      (∀ d, (s.branchMap d).isSome ↔ d ∈ s.metricList) ∧ s.metricList.Nodup := by
  refine ⟨_, rfl, rfl, rfl, ?_⟩
  have h := connector_invariant twoSubscribers _ rfl
  exact ⟨h.1, h.2.2.2 (.inr rfl)⟩

end

end Wissbi.ConnectorInvariants
