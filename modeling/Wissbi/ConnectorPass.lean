import Wissbi.ConnectorInvariants

set_option autoImplicit false

namespace Wissbi.ConnectorPass
open ConnectorInvariants ConnectorMachine Runs ThreadPool

section
variable {Conn Dest : Type} [DecidableEq Conn] [DecidableEq Dest]

/-- The entries for which the pass has not started a thread yet. -/
def ahead : Pc Conn Dest → List (Conn × Dest)
  | .find rest => rest
  | .existsBranch e rest => e :: rest
  | .addBranch e rest => e :: rest
  | .findMetric e rest => e :: rest
  | .pushFront e rest => e :: rest
  | .spawn e rest => e :: rest
  | .insert _ rest => rest
  | _ => []

def subscriber (t : Thread Conn Dest) : Conn × Dest := (t.conn, t.dest)

structure Pass (entries : List (Conn × Dest)) (s : State Conn Dest) : Prop where
  begun : s.pc ≠ .getSubList
  order : s.threads.map subscriber ++ ahead s.pc = entries
  marked : ∀ c ∈ s.producerSet, ∃ d, (c, d) ∈ s.threads.map subscriber
  inserted : ∀ e rest, s.pc = .insert e rest → e ∈ s.threads.map subscriber
  branches : ∀ d, (s.branchMap d).isSome → d ∈ entries.map Prod.snd

omit [DecidableEq Conn] [DecidableEq Dest] in
theorem Pass.goto {entries : List (Conn × Dest)} {s : State Conn Dest} (hs : Pass entries s)
    (pc : Pc Conn Dest) (hbegun : pc ≠ .getSubList) (hahead : ahead pc = ahead s.pc)
    (hins : ∀ e rest, pc ≠ .insert e rest) {metricList : List Dest} :
    Pass entries { s with pc, metricList } :=
  ⟨hbegun, by rw [← hs.order, ← hahead], hs.marked, fun e rest h => absurd h (hins e rest),
    hs.branches⟩

theorem step_listed {listed : Dest → Prop} (s : State Conn Dest) (a : Act Conn Dest)
    (t : State Conn Dest)
    (hs : (∀ d, (s.branchMap d).isSome → listed d) ∧ ∀ e ∈ ahead s.pc, listed e.2)
    (ha : ∀ es, a = .list es → ∀ e ∈ es, listed e.2) (h : step s a = some t) :
    (∀ d, (t.branchMap d).isSome → listed d) ∧ ∀ e ∈ ahead t.pc, listed e.2 := by
  obtain ⟨hb, hahead⟩ := hs
  obtain ⟨es, rfl, -, rfl⟩ | ⟨-, -, rfl⟩ | ⟨-, hm⟩ | ⟨i, th, b, -, -, -, -, rfl⟩ |
    ⟨i, th, -, -, -, rfl⟩ := step_cases h
  · exact ⟨hb, ha es rfl⟩
  · exact ⟨hb, by simp [ahead]⟩
  · cases hm
    case passed hp => exact ⟨hb, by simp [ahead]⟩
    case known e rest hp _ =>
      rw [hp] at hahead
      exact ⟨hb, fun x hx => hahead x (List.mem_cons_of_mem _ hx)⟩
    case added e rest hp =>
      rw [hp] at hahead
      refine ⟨fun d hd => ?_, hahead⟩
      rcases (update_isSome _ _ _ _).mp hd with rfl | hd
      · exact hahead e (by simp [ahead])
      · exact hb d hd
    case spawned e rest hp =>
      rw [hp] at hahead
      exact ⟨hb, fun x hx => hahead x (List.mem_cons_of_mem _ hx)⟩
    all_goals
      rw [‹s.pc = _›] at hahead
      exact ⟨hb, hahead⟩
  · exact ⟨hb, hahead⟩
  · exact ⟨hb, hahead⟩

theorem run_listed (listed : Dest → Prop) {acts : List (Act Conn Dest)} {s : State Conn Dest}
    (h : run step (start Conn Dest) acts = some s)
    (hlist : ∀ es, .list es ∈ acts → ∀ e ∈ es, listed e.2) (d : Dest)
    (hd : (s.branchMap d).isSome) : listed d := by
  refine (run_invariant_along
    (fun _ (a : Act Conn Dest) => ∀ es, a = .list es → ∀ e ∈ es, listed e.2)
    (fun s => (∀ d, (s.branchMap d).isSome → listed d) ∧ ∀ e ∈ ahead s.pc, listed e.2)
    step_listed h (along_of_forall _ _ _ ?_) ⟨?_, ?_⟩).1 d hd
  · rintro a ha es rfl
    exact hlist es ha
  · simp [start]
  · simp [start, ahead]

theorem branch_ready (s : State Conn Dest) (e : Conn × Dest) (rest : List (Conn × Dest))
    (hp : s.pc = .existsBranch e rest) :
    ∃ k branchMap fresh, run step s (List.replicate k .loop) =
        some { s with pc := .findMetric e rest, branchMap, fresh } ∧
      (branchMap e.2).isSome ∧ ∀ d, (s.branchMap d).isSome → (branchMap d).isSome := by
  by_cases hb : (s.branchMap e.2).isSome
  · refine ⟨1, s.branchMap, s.fresh, ?_, hb, fun _ hd => hd⟩
    simp [run, step, loopStep, hp, hb]
  · refine ⟨2, Function.update s.branchMap e.2 (some s.fresh), s.fresh + 1, ?_, ?_, ?_⟩
    · simp [List.replicate, run, step, loopStep, hp, hb]
    · exact (update_isSome _ _ _ _).mpr (.inl rfl)
    · exact fun d hd => (update_isSome _ _ _ _).mpr (.inr hd)

theorem metric_ready (s : State Conn Dest) (e : Conn × Dest) (rest : List (Conn × Dest))
    (hp : s.pc = .findMetric e rest) :
    ∃ k metricList, run step s (List.replicate k .loop) =
      some { s with pc := .spawn e rest, metricList } := by
  by_cases hm : e.2 ∈ s.metricList
  · refine ⟨1, s.metricList, ?_⟩
    simp [run, step, loopStep, hp, hm]
  · refine ⟨2, e.2 :: s.metricList, ?_⟩
    simp [List.replicate, run, step, loopStep, hp, hm]

theorem spawn_failing (s : State Conn Dest) (e : Conn × Dest) (rest : List (Conn × Dest))
    (hp : s.pc = .spawn e rest) (hset : s.producerSet = ∅) :
    ∃ threads, run step s
        [.loop, .loop, .connectFail s.threads.length, .erase s.threads.length] =
      some { s with pc := .find rest, threads } := by
  refine ⟨s.threads ++ [⟨e.1, e.2, .erased⟩], ?_⟩
  simp [run, step, loopStep, advance, hp, hset]

theorem entry_failing (s : State Conn Dest) (e : Conn × Dest) (rest : List (Conn × Dest))
    (hp : s.pc = .find (e :: rest)) (hset : s.producerSet = ∅) :
    ∃ acts u, run step s acts = some u ∧ (∀ es, .list es ∉ acts) ∧ u.pc = .find rest ∧
      u.producerSet = ∅ ∧ (u.branchMap e.2).isSome ∧
      ∀ d, (s.branchMap d).isSome → (u.branchMap d).isSome := by
  have hfind : run step s [.loop] = some { s with pc := .existsBranch e rest } := by
    simp [run, step, loopStep, hp, hset]
  obtain ⟨j, branchMap, fresh, hbranch, hadded, hkeep⟩ :=
    branch_ready { s with pc := .existsBranch e rest } e rest rfl
  obtain ⟨k, metricList, hmetric⟩ :=
    metric_ready { s with pc := .findMetric e rest, branchMap, fresh } e rest rfl
  obtain ⟨threads, hspawn⟩ :=
    spawn_failing { s with pc := .spawn e rest, branchMap, fresh, metricList } e rest rfl hset
  refine ⟨[.loop] ++ (List.replicate j .loop ++ (List.replicate k .loop ++
    [.loop, .loop, .connectFail s.threads.length, .erase s.threads.length])),
    { s with pc := .find rest, branchMap, fresh, metricList, threads }, ?_, by simp, rfl, hset,
    hadded, hkeep⟩
  rw [run_append, hfind, Option.bind_some, run_append, hbranch, Option.bind_some, run_append,
    hmetric, Option.bind_some, hspawn]

theorem entries_failing (entries : List (Conn × Dest)) (s : State Conn Dest)
    (hp : s.pc = .find entries) (hset : s.producerSet = ∅) :
    ∃ acts u, run step s acts = some u ∧ (∀ es, .list es ∉ acts) ∧
      (∀ e ∈ entries, (u.branchMap e.2).isSome) ∧
      ∀ d, (s.branchMap d).isSome → (u.branchMap d).isSome := by
  induction entries generalizing s with
  | nil => exact ⟨[], s, rfl, by simp, by simp, fun _ h => h⟩
  | cons e rest ih =>
    obtain ⟨acts, t, ht, hlist, hpt, hsett, hbranch, hkeep⟩ := entry_failing s e rest hp hset
    obtain ⟨more, u, hu, hlist', hbranches, hkeep'⟩ := ih t hpt hsett
    refine ⟨acts ++ more, u, ?_, ?_, ?_, fun d hd => hkeep' d (hkeep d hd)⟩
    · rw [run_append, ht, Option.bind_some, hu]
    · intro es hes
      rcases List.mem_append.mp hes with hes | hes
      · exact hlist es hes
      · exact hlist' es hes
    · exact List.forall_mem_cons.mpr ⟨hkeep' e.2 hbranch, hbranches⟩

theorem pass_failing (entries : List (Conn × Dest)) :
    ∃ acts s, run step (start Conn Dest) (.list entries :: acts) = some s ∧
      (∀ es, .list es ∉ acts) ∧ ∀ e ∈ entries, (s.branchMap e.2).isSome := by
  obtain ⟨acts, s, hs, hlist, hbranches, -⟩ :=
    entries_failing entries { start Conn Dest with pc := .find entries } rfl rfl
  exact ⟨acts, s, hs, hlist, hbranches⟩

end

end Wissbi.ConnectorPass
