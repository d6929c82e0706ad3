import Wissbi.ConnectorInvariants

set_option autoImplicit false

namespace Wissbi.ConnectorLockout
open ConnectorInvariants ConnectorMachine Runs ThreadPool

section
variable {Conn Dest : Type} [DecidableEq Conn] [DecidableEq Dest]

/-- A thread only executes its erase when the loop has inserted its connect string. -/
def InsertedFirst (s : State Conn Dest) : Act Conn Dest → Prop
  | .erase i => ∀ t, s.threads[i]? = some t → t.conn ∈ s.producerSet
  | _ => True

structure Live (s : State Conn Dest) : Prop where
  threads : Threads s
  running : ∀ c ∈ s.producerSet, 0 < alive c s.threads
  started : ∀ c, inserting s.pc = some c → 0 < alive c s.threads

/-- A connect string that is marked, or about to be, with no thread left to erase it. -/
def Stuck (c : Conn) (s : State Conn Dest) : Prop :=
  alive c s.threads = 0 ∧ (c ∈ s.producerSet ∨ inserting s.pc = some c)

theorem loop_live {s t : State Conn Dest} (hs : Live s) (h : LoopMoves s t) : Live t := by
  refine ⟨loop_threads hs.threads h, ?_, ?_⟩
  · cases h
    case spawned e rest hp =>
      intro c hc
      simp only [alive_append]
      have := hs.running c hc
      omega
    case inserted e rest hp =>
      intro c hc
      rcases Finset.mem_insert.mp hc with rfl | hc
      · exact hs.started _ (by rw [hp]; rfl)
      · exact hs.running c hc
    all_goals exact hs.running
  · cases h
    case spawned e rest hp =>
      intro c hc
      rw [← Option.some.inj hc]
      exact alive_pos.mpr ⟨⟨e.1, e.2, .connecting⟩, by simp, rfl, by simp⟩
    all_goals simp [inserting]

theorem step_live (s : State Conn Dest) (a : Act Conn Dest) (t : State Conn Dest)
    (hs : Live s) (hfirst : InsertedFirst s a) (h : step s a = some t) : Live t := by
  have threads := step_threads s a t hs.threads h
  obtain ⟨entries, -, hp, rfl⟩ | ⟨-, hp, rfl⟩ | ⟨-, hm⟩ | ⟨i, th, b, -, hth, ha, hb, rfl⟩ |
    ⟨i, th, rfl, hth, ha, rfl⟩ := step_cases h
  · exact ⟨threads, hs.running, by simp [inserting]⟩
  · exact ⟨threads, hs.running, by simp [inserting]⟩
  · exact loop_live hs hm
  · refine ⟨threads, fun c hc => ?_, fun c hc => ?_⟩
    · rw [alive_advance c hth ha hb]
      exact hs.running c hc
    · rw [alive_advance c hth ha hb]
      exact hs.started c hc
  · have hmem : th.conn ∈ s.producerSet := hfirst th hth
    refine ⟨threads, fun c hc => ?_, fun c hc => ?_⟩
    · rw [alive_erase_ne c hth (Finset.ne_of_mem_erase hc)]
      exact hs.running c (Finset.mem_of_mem_erase hc)
    · rw [alive_erase_ne c hth ?_]
      · exact hs.started c hc
      · rintro rfl
        obtain ⟨e, he, hconn⟩ := entry_of_inserting hc
        exact hs.threads.absent e he (hconn ▸ hmem)

theorem run_live {acts : List (Act Conn Dest)} {s : State Conn Dest}
    (h : run step (start Conn Dest) acts = some s)
    (along : Along step InsertedFirst (start Conn Dest) acts) : Live s := by
  refine run_invariant_along InsertedFirst Live step_live h along
    ⟨start_threads, ?_, ?_⟩
  · simp [start]
  · simp [start, inserting]

omit [DecidableEq Dest] in
theorem Stuck.goto {c : Conn} {s : State Conn Dest} (hc : Stuck c s) (pc : Pc Conn Dest)
    (hin : inserting s.pc = none) {branchMap : Dest → Option ℕ} {fresh : ℕ}
    {metricList : List Dest} : Stuck c { s with pc, branchMap, fresh, metricList } := by
  refine ⟨hc.1, .inl (hc.2.resolve_right ?_)⟩
  rw [hin]
  exact nofun

theorem loop_stuck {c : Conn} {s t : State Conn Dest} (hs : Threads s) (hc : Stuck c s)
    (h : LoopMoves s t) : Stuck c t := by
  cases h with
  | passed hp => exact hc.goto _ (by rw [hp]; rfl)
  | known e rest hp => exact hc.goto _ (by rw [hp]; rfl)
  | unknown e rest hp => exact hc.goto _ (by rw [hp]; rfl)
  | branched e rest hp => exact hc.goto _ (by rw [hp]; rfl)
  | unbranched e rest hp => exact hc.goto _ (by rw [hp]; rfl)
  | added e rest hp => exact hc.goto _ (by rw [hp]; rfl)
  | metered e rest hp => exact hc.goto _ (by rw [hp]; rfl)
  | unmetered e rest hp => exact hc.goto _ (by rw [hp]; rfl)
  | pushed e rest hp => exact hc.goto _ (by rw [hp]; rfl)
  | spawned e rest hp =>
    have hmem : c ∈ s.producerSet := by simpa [hp, inserting] using hc.2
    have hne : e.1 ≠ c := by
      rintro rfl
      exact hs.absent e (by rw [hp]; rfl) hmem
    refine ⟨?_, .inl hmem⟩
    rw [alive_append, hc.1]
    simp [alive, hne]
  | inserted e rest hp =>
    refine ⟨hc.1, .inl (Finset.mem_insert.mpr ?_)⟩
    rcases hc.2 with h | h
    · exact .inr h
    · rw [hp] at h
      exact .inl (Option.some.inj h).symm

theorem step_stuck {c : Conn} {s t : State Conn Dest} {a : Act Conn Dest} (hs : Threads s)
    (hc : Stuck c s) (h : step s a = some t) : Stuck c t := by
  obtain ⟨entries, -, hp, rfl⟩ | ⟨-, hp, rfl⟩ | ⟨-, hm⟩ | ⟨i, th, b, -, hth, ha, hb, rfl⟩ |
    ⟨i, th, -, hth, ha, rfl⟩ := step_cases h
  · exact hc.goto _ (by rw [hp]; rfl)
  · exact hc.goto _ (by rw [hp]; rfl)
  · exact loop_stuck hs hc hm
  · exact ⟨(alive_advance c hth ha hb).trans hc.1, hc.2⟩
  · have hne : c ≠ th.conn := by
      rintro rfl
      have hpos := alive_pos.mpr ⟨th, List.mem_of_getElem? hth, rfl, by simp [ha]⟩
      exact absurd hc.1 (Nat.ne_of_gt hpos)
    refine ⟨(alive_erase_ne c hth hne).trans hc.1, ?_⟩
    exact hc.2.imp (Finset.mem_erase_of_ne_of_mem hne) id

theorem early_erase_stuck {s t : State Conn Dest} {a : Act Conn Dest} (hs : Threads s)
    (h : step s a = some t) (hfirst : ¬ InsertedFirst s a) : ∃ c, Stuck c t := by
  obtain ⟨entries, rfl, -, -⟩ | ⟨rfl, -, -⟩ | ⟨rfl, -⟩ | ⟨-, -, -, hne, -⟩ |
    ⟨i, th, rfl, hth, ha, rfl⟩ := step_cases h
  · exact absurd trivial hfirst
  · exact absurd trivial hfirst
  · exact absurd trivial hfirst
  · cases a
    case erase i => exact absurd rfl (hne i)
    all_goals exact absurd trivial hfirst
  · have hout : th.conn ∉ s.producerSet := by
      intro hmem
      refine hfirst fun x hx => ?_
      rw [hth] at hx
      exact Option.some.inj hx ▸ hmem
    refine ⟨th.conn, alive_erase hs hth ha, .inr ?_⟩
    exact (hs.marked th (List.mem_of_getElem? hth) (by simp [ha])).resolve_left hout

theorem run_stuck {c : Conn} {s u : State Conn Dest} {acts : List (Act Conn Dest)}
    (hs : Threads s) (hc : Stuck c s) (h : run step s acts = some u) : Stuck c u := by
  refine (run_invariant (fun s => Threads s ∧ Stuck c s) ?_ h ⟨hs, hc⟩).2
  rintro s a t ⟨hs, hc⟩ h
  exact ⟨step_threads s a t hs h, step_stuck hs hc h⟩

theorem run_stuck_of_early_erase {s u : State Conn Dest} {acts : List (Act Conn Dest)}
    (hs : Threads s) (h : run step s acts = some u) (hn : ¬ Along step InsertedFirst s acts) :
    ∃ c, Stuck c u := by
  induction acts generalizing s with
  | nil => exact absurd trivial hn
  | cons a acts ih =>
    obtain ⟨t, ht, hu⟩ := run_cons h
    have hthreads := step_threads s a t hs ht
    by_cases hfirst : InsertedFirst s a
    · refine ih hthreads hu fun halong => hn ⟨hfirst, fun v hv => ?_⟩
      rw [ht] at hv
      exact Option.some.inj hv ▸ halong
    · obtain ⟨c, hc⟩ := early_erase_stuck hs ht hfirst
      exact ⟨c, run_stuck hthreads hc hu⟩

def Waiting (c : Conn) : Pc Conn Dest → Prop
  | .getSubList => True
  | .find rest => c ∈ rest.map Prod.fst
  | .existsBranch e rest => c ∈ (e :: rest).map Prod.fst
  | .addBranch e rest => c ∈ (e :: rest).map Prod.fst
  | .findMetric e rest => c ∈ (e :: rest).map Prod.fst
  | .pushFront e rest => c ∈ (e :: rest).map Prod.fst
  | .spawn e rest => c ∈ (e :: rest).map Prod.fst
  | .insert e rest => e.1 ≠ c ∧ c ∈ rest.map Prod.fst
  | .sleeping => False

def Tried (n : ℕ) (c : Conn) (threads : List (Thread Conn Dest)) : Prop :=
  ∃ j t, n ≤ j ∧ threads[j]? = some t ∧ t.conn = c

def Due (n : ℕ) (c : Conn) (s : State Conn Dest) : Prop :=
  n ≤ s.threads.length ∧ (Tried n c s.threads ∨ c ∉ s.producerSet ∧ Waiting c s.pc)

omit [DecidableEq Conn] [DecidableEq Dest] in
theorem tried_set {n i : ℕ} {c : Conn} {threads : List (Thread Conn Dest)} {t : Thread Conn Dest}
    (h : threads[i]? = some t) (b : Status) (htried : Tried n c threads) :
    Tried n c (threads.set i { t with status := b }) := by
  obtain ⟨j, x, hj, hx, hc⟩ := htried
  by_cases hij : i = j
  · subst hij
    rw [h] at hx
    cases hx
    obtain ⟨hi, -⟩ := List.getElem?_eq_some_iff.mp h
    exact ⟨i, _, hj, List.getElem?_set_self hi, hc⟩
  · exact ⟨j, x, hj, (List.getElem?_set_ne hij).trans hx, hc⟩

omit [DecidableEq Conn] [DecidableEq Dest] in
theorem Due.goto {n : ℕ} {c : Conn} {s : State Conn Dest} (hd : Due n c s) (pc : Pc Conn Dest)
    (hw : c ∉ s.producerSet → Waiting c s.pc → Waiting c pc)
    {branchMap : Dest → Option ℕ} {fresh : ℕ} {metricList : List Dest} :
    Due n c { s with pc, branchMap, fresh, metricList } :=
  ⟨hd.1, hd.2.imp id fun h => ⟨h.1, hw h.1 h.2⟩⟩

theorem loop_due {n : ℕ} {c : Conn} {s t : State Conn Dest} (hd : Due n c s)
    (h : LoopMoves s t) : Due n c t := by
  cases h with
  | passed hp => exact hd.goto _ fun _ hw => by simp [hp, Waiting] at hw
  | known e rest hp hc =>
    refine hd.goto _ fun hout hw => ?_
    rw [hp] at hw
    rcases List.mem_cons.mp hw with rfl | hw
    · exact absurd hc hout
    · exact hw
  | unknown e rest hp => exact hd.goto _ fun _ hw => by rwa [hp] at hw
  | branched e rest hp => exact hd.goto _ fun _ hw => by rwa [hp] at hw
  | unbranched e rest hp => exact hd.goto _ fun _ hw => by rwa [hp] at hw
  | added e rest hp => exact hd.goto _ fun _ hw => by rwa [hp] at hw
  | metered e rest hp => exact hd.goto _ fun _ hw => by rwa [hp] at hw
  | unmetered e rest hp => exact hd.goto _ fun _ hw => by rwa [hp] at hw
  | pushed e rest hp => exact hd.goto _ fun _ hw => by rwa [hp] at hw
  | spawned e rest hp =>
    obtain ⟨hle, htried | ⟨hout, hw⟩⟩ := hd
    · obtain ⟨j, x, hj, hx, hc⟩ := htried
      obtain ⟨hlt, -⟩ := List.getElem?_eq_some_iff.mp hx
      refine ⟨by simp; omega, .inl ⟨j, x, hj, ?_, hc⟩⟩
      exact (List.getElem?_append_left hlt).trans hx
    · refine ⟨by simp; omega, ?_⟩
      by_cases hc : e.1 = c
      · refine .inl ⟨s.threads.length, ⟨e.1, e.2, .connecting⟩, hle, ?_, hc⟩
        exact List.getElem?_concat_length
      · rw [hp] at hw
        exact .inr ⟨hout, hc, (List.mem_cons.mp hw).resolve_left (Ne.symm hc)⟩
  | inserted e rest hp =>
    refine ⟨hd.1, hd.2.imp id fun h => ?_⟩
    obtain ⟨hout, hw⟩ := h
    rw [hp] at hw
    exact ⟨fun hm => (Finset.mem_insert.mp hm).elim (Ne.symm hw.1) hout, hw.2⟩

theorem run_due {n : ℕ} {c : Conn} {s u : State Conn Dest} {acts : List (Act Conn Dest)}
    (hlist : ∀ es, .list es ∈ acts → c ∈ es.map Prod.fst) (hd : Due n c s)
    (h : run step s acts = some u) : Due n c u := by
  induction acts generalizing s with
  | nil =>
    cases h
    exact hd
  | cons a acts ih =>
    obtain ⟨t, ht, hu⟩ := run_cons h
    refine ih (fun es hes => hlist es (List.mem_cons_of_mem _ hes)) ?_ hu
    obtain ⟨entries, rfl, hp, rfl⟩ | ⟨-, hp, rfl⟩ | ⟨-, hm⟩ | ⟨i, th, b, -, hth, -, -, rfl⟩ |
      ⟨i, th, -, hth, -, rfl⟩ := step_cases ht
    · exact hd.goto (.find entries) fun _ _ => hlist entries List.mem_cons_self
    · exact hd.goto _ fun _ hw => by simp [hp, Waiting] at hw
    · exact loop_due hd hm
    · exact ⟨by simpa using hd.1, hd.2.imp (tried_set hth b) id⟩
    · refine ⟨by simpa using hd.1, hd.2.imp (tried_set hth .erased) fun h => ⟨fun hm => ?_, h.2⟩⟩
      exact h.1 (Finset.mem_of_mem_erase hm)

/-- In every state in which the loop sleeps, each marked connect string has a running
thread exactly when no thread so far erased its string before the loop inserted it;
and then a string without one is tried again in the next pass that lists it. -/
theorem no_lockout_iff_inserted_first (acts : List (Act Conn Dest)) (s : State Conn Dest)
    (h : run step (start Conn Dest) acts = some s) (hsleep : s.pc = .sleeping) :
    ((∀ c ∈ s.producerSet, ∃ t ∈ s.threads, t.conn = c ∧ t.status ≠ .erased) ↔
      Along step InsertedFirst (start Conn Dest) acts) ∧
    (Along step InsertedFirst (start Conn Dest) acts →
      ∀ c, (∀ t ∈ s.threads, t.conn = c → t.status = .erased) →
      ∀ pass u, (∀ es, .list es ∈ pass → c ∈ es.map Prod.fst) →
      run step s (.wake :: pass) = some u → u.pc = .sleeping →
      Tried s.threads.length c u.threads) := by
  refine ⟨⟨fun hrun => ?_, fun halong c hc => ?_⟩, fun halong c hdead pass u hlist hu hpc => ?_⟩
  · by_contra hn
    obtain ⟨c, hzero, hmark⟩ := run_stuck_of_early_erase start_threads h hn
    have hmem : c ∈ s.producerSet := by simpa [hsleep, inserting] using hmark
    exact absurd hzero (Nat.ne_of_gt (alive_pos.mpr (hrun c hmem)))
  · exact alive_pos.mp ((run_live h halong).running c hc)
  · have hout : c ∉ s.producerSet := by
      intro hc
      obtain ⟨t, ht, hconn, ha⟩ := alive_pos.mp ((run_live h halong).running c hc)
      exact ha (hdead t ht hconn)
    obtain ⟨t, ht, hu⟩ := run_cons hu
    simp only [step, hsleep, Option.some.injEq] at ht
    subst ht
    have hs : Due s.threads.length c { s with pc := .getSubList } :=
      ⟨Nat.le_refl _, .inr ⟨hout, trivial⟩⟩
    have hd := run_due hlist hs hu
    exact hd.2.resolve_right fun hw => by simp [hpc, Waiting] at hw

def insertFirst : List (Act ℕ ℕ) :=
  [.list [(1, 7)], .loop, .loop, .loop, .loop, .loop, .loop, .connectFail 0, .loop, .erase 0,
    .loop]

theorem insert_first_tries_again :
    ∃ s, run step (start ℕ ℕ) insertFirst = some s ∧
      (∀ c ∈ s.producerSet, ∃ t ∈ s.threads, t.conn = c ∧ t.status ≠ .erased) ∧
      ∀ pass u, (∀ es, .list es ∈ pass → 1 ∈ es.map Prod.fst) →
        run step s (.wake :: pass) = some u → u.pc = .sleeping → Tried 1 1 u.threads := by
  refine ⟨_, rfl, ?_⟩
  have h := no_lockout_iff_inserted_first insertFirst _ rfl rfl
  have halong : Along step InsertedFirst (start ℕ ℕ) insertFirst := by
    simp [insertFirst, Along, InsertedFirst, step, start, loopStep, advance]
  exact ⟨h.1.mpr halong, h.2 halong 1 (by decide)⟩

/-- The connection fails and the thread erases its string before the loop inserts it. -/
def eraseFirst : List (Act ℕ ℕ) :=
  [.list [(1, 7)], .loop, .loop, .loop, .loop, .loop, .loop, .connectFail 0, .erase 0, .loop,
    .loop]

theorem erase_first_locks_out :
    (∃ s, run step (start ℕ ℕ) eraseFirst = some s ∧ s.pc = .sleeping ∧ s.producerSet = {1} ∧
      s.threads = [⟨1, 7, .erased⟩]) ∧
    ¬ ∀ (acts : List (Act ℕ ℕ)) (s : State ℕ ℕ), run step (start ℕ ℕ) acts = some s →
      s.pc = .sleeping →
      ∀ c ∈ s.producerSet, ∃ t ∈ s.threads, t.conn = c ∧ t.status ≠ .erased := by
  refine ⟨⟨_, rfl, rfl, rfl, rfl⟩, fun h => ?_⟩
  have hc := h eraseFirst _ rfl rfl 1 (by decide)
  exact absurd hc (by decide)

end

end Wissbi.ConnectorLockout
