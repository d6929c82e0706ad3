import Wissbi.MetaDaemon

set_option autoImplicit false

namespace Wissbi.ReaperPass
open MetaDaemon Runs Util

structure Named (s : State) : Prop where
  inodes : (s.entries.map Entry.inode).Nodup
  fresh : ∀ e ∈ s.entries, e.inode < s.nextInode

theorem Named.without {s : State} (h : Named s) (p : Str) : Named (s.without p) :=
  ⟨h.inodes.sublist (List.filter_sublist.map _), fun e he => h.fresh e (List.mem_filter.mp he).1⟩

theorem step_named (s : State) (a : Act) (t : State) (hs : Named s) (h : step s a = some t) :
    Named t := by
  cases step_moves h with
  | created k p hi =>
    refine ⟨?_, fun e he => ?_⟩
    · simp only [List.map_append, List.map_cons, List.map_nil]
      refine List.nodup_append_comm.mp (List.nodup_cons.mpr ⟨fun hmem => ?_, hs.inodes⟩)
      obtain ⟨e, he, hinode⟩ := List.mem_map.mp hmem
      exact Nat.ne_of_lt (hs.fresh e he) hinode
    · rcases List.mem_append.mp he with he | he
      · exact Nat.lt_succ_of_lt (hs.fresh e he)
      · rw [List.mem_singleton.mp he]
        exact Nat.lt_succ_self _
  | unlinked p => exact hs.without p
  | removed p a rest renewed hd hr => exact ⟨(hs.without p).inodes, (hs.without p).fresh⟩
  | _ => exact ⟨hs.inodes, hs.fresh⟩

theorem start_named (now : ℕ) (files : List (Str × ℕ)) : Named (start now files) := by
  have hinodes : (start now files).entries.map Entry.inode = List.range files.length := by
    refine List.ext_getElem (by simp [start]) fun i _ _ => ?_
    simp [start]
  refine ⟨hinodes ▸ List.nodup_range, fun e he => ?_⟩
  have hmem : e.inode ∈ (start now files).entries.map Entry.inode := List.mem_map_of_mem he
  rw [hinodes] at hmem
  exact List.mem_range.mp hmem

theorem inode_unique {s : State} (hs : Named s) {p q : Str} {i : ℕ} (hp : s.inodeOf p = some i)
    (hq : s.inodeOf q = some i) : p = q := by
  obtain ⟨e, he, rfl⟩ := Option.map_eq_some_iff.mp hp
  obtain ⟨f, hf, heq⟩ := Option.map_eq_some_iff.mp hq
  have hsame := List.inj_on_of_nodup_map hs.inodes (List.mem_of_find?_eq_some hf)
    (List.mem_of_find?_eq_some he) heq
  have hpe := List.find?_some he
  have hqf := List.find?_some hf
  rw [decide_eq_true_eq] at hpe hqf
  rw [← hpe, ← hqf, hsame]

theorem without_self (s : State) (p : Str) : (s.without p).inodeOf p = none := by
  unfold State.inodeOf State.without
  rw [Option.map_eq_none_iff, List.find?_eq_none]
  intro e he
  simpa using (List.mem_filter.mp he).2

theorem inodeOf_create {s t : State} {p q : Str} {i : ℕ}
    (ht : t.entries = s.entries ++ [⟨q, i⟩]) (h : q ≠ p) : t.inodeOf p = s.inodeOf p := by
  unfold State.inodeOf
  rw [ht, List.find?_append]
  simp [h]

/-- The script still comes to the entry, or has read the time that condemns it. -/
def Waits (p : Str) (a : ℕ) : Daemon → Prop
  | .statting rest => p ∈ rest
  | .comparing q b rest => p ∈ rest ∨ (q = p ∧ b = some a)
  | .removing q _ rest => p ∈ rest ∨ q = p
  | .exited => True
  | .syncing | .copying _ | .finding | .sleeping => False

/-- The entry is there, older than it may be, and nobody is about to renew it. -/
structure Dead (p : Str) (i a : ℕ) (s : State) : Prop where
  inode : s.inodeOf p = some i
  atime : s.atime i = a
  old : (s.now : ℤ) - a > 60
  closed : ∀ k, s.fds k ≠ some i

def Doomed (p : Str) (i a : ℕ) (s : State) : Prop :=
  s.inodeOf p = none ∨ Dead p i a s ∧ Waits p a s.daemon

theorem closed_update {fds : ℕ → Option ℕ} {i k : ℕ} {x : Option ℕ} (h : ∀ k, fds k ≠ some i)
    (hx : x ≠ some i) : ∀ k', Function.update fds k x k' ≠ some i := by
  intro k'
  by_cases hk : k' = k
  · rw [hk, Function.update_self]
    exact hx
  · rw [Function.update_of_ne hk]
    exact h k'

section
variable {s t : State} {a : Act} {p : Str} (h : step s a = some t)
  (hquiet : ∀ k, a ≠ .openEntry k p)
include h hquiet

theorem gone_stays (hp : s.inodeOf p = none) : t.inodeOf p = none := by
  have hwithout : ∀ q, (s.without q).inodeOf p = none := by
    intro q
    by_cases hq : p = q
    · rw [hq, without_self]
    · rw [inodeOf_without s hq, hp]
  cases step_moves h with
  | created k q hi =>
    have hq : q ≠ p := fun he => hquiet k (by rw [he])
    exact (inodeOf_create rfl hq).trans hp
  | unlinked q => exact hwithout q
  | removed q b rest renewed hd hr => exact hwithout q
  | _ => exact hp

theorem dead_stays (hs : Named s) {i b : ℕ} (hp : Dead p i b s) :
    t.inodeOf p = none ∨ Dead p i b t := by
  have hwithout : ∀ q, (s.without q).inodeOf p = none ∨ (s.without q).inodeOf p = some i := by
    intro q
    by_cases hq : p = q
    · exact .inl (by rw [hq, without_self])
    · exact .inr (by rw [inodeOf_without s hq, hp.inode])
  cases step_moves h with
  | ticked =>
    refine .inr ⟨hp.inode, hp.atime, ?_, hp.closed⟩
    have := hp.old
    push_cast
    omega
  | opened k j q hj =>
    refine .inr ⟨hp.inode, hp.atime, hp.old, closed_update hp.closed fun he => ?_⟩
    rw [Option.some.injEq] at he
    subst he
    exact hquiet k (by rw [inode_unique hs hp.inode hj])
  | created k q hi =>
    have hq : q ≠ p := fun he => hquiet k (by rw [he])
    have hne : i ≠ s.nextInode := Nat.ne_of_lt (inodeOf_lt hs.fresh hp.inode)
    refine .inr ⟨(inodeOf_create rfl hq).trans hp.inode, ?_, hp.old,
      closed_update hp.closed fun he => hne (Option.some.inj he).symm⟩
    exact (Function.update_of_ne hne ..).trans hp.atime
  | renewed k j hk =>
    have hne : i ≠ j := by
      rintro rfl
      exact hp.closed k hk
    exact .inr ⟨hp.inode, (Function.update_of_ne hne ..).trans hp.atime, hp.old,
      closed_update hp.closed (Option.some_ne_none i).symm⟩
  | unlinked q => exact (hwithout q).imp id fun hi => ⟨hi, hp.atime, hp.old, hp.closed⟩
  | removed q b rest renewed hd hr =>
    exact (hwithout q).imp id fun hi => ⟨hi, hp.atime, hp.old, hp.closed⟩
  | _ => exact .inr ⟨hp.inode, hp.atime, hp.old, hp.closed⟩

omit hquiet in
theorem waits_step {i b : ℕ} (hp : Dead p i b s) (hw : Waits p b s.daemon) :
    t.inodeOf p = none ∨ Waits p b t.daemon := by
  cases step_moves h with
  | listed order hd ho => rw [hd] at hw; cases hw
  | found order hd ho => rw [hd] at hw; cases hw
  | synced hd => rw [hd] at hw; cases hw
  | copied q rest hd hi => rw [hd] at hw; cases hw
  | vanished q rest hd hi => exact .inr trivial
  | passed hd => rw [hd] at hw; cases hw
  | statted q rest hd =>
    rw [hd] at hw
    refine .inr ((List.mem_cons.mp hw).symm.imp id fun hq => ⟨hq.symm, ?_⟩)
    rw [← hq, State.atimeOf, hp.inode, Option.map_some, hp.atime]
  | condemned q c rest hd hc =>
    rw [hd] at hw
    exact .inr (hw.imp id And.left)
  | spared q c rest hd =>
    rw [hd] at hw
    refine .inr (hw.resolve_right ?_)
    -- The time that was read is too old to be spared.
    rintro ⟨rfl, rfl⟩
    have hcond : (s.now : ℤ) - ((some b : Option ℕ).getD 0 : ℕ) > 60 := hp.old
    simp only [step, State.daemonStep, hd, if_pos hcond, Option.some.injEq] at h
    have hdaemon := congrArg State.daemon h
    cases hdaemon
  | removed q c rest renewed hd hr =>
    rw [hd] at hw
    rcases hw with hw | rfl
    · exact .inr hw
    · exact .inl (without_self s q)
  | missed q c rest hd hr => exact .inr trivial
  | woke hd => rw [hd] at hw; cases hw
  | _ => exact .inr hw

theorem doomed_step (hs : Named s) {i b : ℕ} (hp : Doomed p i b s) : Doomed p i b t := by
  rcases hp with hp | ⟨hp, hw⟩
  · exact .inl (gone_stays h hquiet hp)
  · rcases dead_stays h hquiet hs hp with hn | hp'
    · exact .inl hn
    · exact (waits_step h hp hw).imp id fun hw' => ⟨hp', hw'⟩

end

theorem run_doomed {s t : State} {acts : List Act} {p : Str} {i b : ℕ}
    (h : run step s acts = some t) (hquiet : ∀ a ∈ acts, ∀ k, a ≠ .openEntry k p) (hs : Named s)
    (hp : Doomed p i b s) : Doomed p i b t := by
  induction acts generalizing s with
  | nil =>
    cases h
    exact hp
  | cons a acts ih =>
    rw [List.forall_mem_cons] at hquiet
    obtain ⟨u, hu, h⟩ := run_cons h
    exact ih h hquiet.2 (step_named s a u hs hu) (doomed_step hu hquiet.1 hs hp)

/-- How many commands are left of the pass, at most. -/
def left : Daemon → ℕ
  | .statting rest => 3 * rest.length + 1
  | .comparing _ _ rest => 3 * rest.length + 3
  | .removing _ _ rest => 3 * rest.length + 2
  | .syncing | .copying _ | .finding | .sleeping | .exited => 0

theorem daemon_left {s : State} (h : 0 < left s.daemon) :
    ∃ t, s.daemonStep = some t ∧ left t.daemon < left s.daemon ∧
      (left t.daemon = 0 → t.daemon = .sleeping ∨ t.daemon = .exited) := by
  unfold State.daemonStep
  cases hd : s.daemon with
  | statting rest =>
    cases rest with
    | nil => exact ⟨_, rfl, by simp [left], fun _ => .inl rfl⟩
    | cons q rest =>
      refine ⟨_, rfl, ?_, by simp [left]⟩
      simp only [left, List.length_cons]
      omega
  | comparing q b rest =>
    simp only
    split_ifs
    · exact ⟨_, rfl, by simp [left], by simp [left]⟩
    · exact ⟨_, rfl, by simp [left], by simp [left]⟩
  | removing q b rest =>
    cases hr : s.atimeOf q with
    | some renewed =>
      simp only [hr]
      exact ⟨_, rfl, by simp [left], by simp [left]⟩
    | none =>
      simp only [hr]
      exact ⟨_, rfl, by simp [left], fun _ => .inr rfl⟩
  | _ =>
    rw [hd] at h
    cases h

theorem pass_ends (n : ℕ) {s : State} (hn : left s.daemon ≤ n) (h : 0 < left s.daemon) :
    ∃ k ≤ n, ∃ u, run step s (List.replicate k .daemon) = some u ∧
      (u.daemon = .sleeping ∨ u.daemon = .exited) := by
  induction n generalizing s with
  | zero => omega
  | succ n ih =>
    obtain ⟨t, ht, hlt, hend⟩ := daemon_left h
    by_cases hzero : left t.daemon = 0
    · exact ⟨1, by omega, t, by simp [run, step, ht], hend hzero⟩
    · obtain ⟨k, hk, u, hu, hdone⟩ := ih (by omega) (Nat.pos_of_ne_zero hzero)
      exact ⟨k + 1, by omega, u, by simp [List.replicate_succ, run, step, ht, hu], hdone⟩

/-- From any reachable state in which the script makes its list: an entry that is more than 60
seconds old, and that nobody opens any more, is gone when the pass has ended, however the steps
of the others fall; and wherever the script is in the pass, it ends it by itself, three commands
for each entry. -/
theorem dead_entries_reaped (now : ℕ) (files : List (Str × ℕ)) (before : List Act) (s : State)
    (hs : run step (start now files) before = some s) (p : Str) (i : ℕ) (hp : colon ∈ p)
    (hdead : Dead p i (s.atime i) s) (order : List Str) (acts : List Act) (t : State)
    (h : run step s (.find order :: acts) = some t)
    (hquiet : ∀ a ∈ acts, ∀ k, a ≠ .openEntry k p) :
    (t.daemon = .sleeping → t.inodeOf p = none) ∧
    (0 < left t.daemon → ∃ n ≤ left t.daemon, ∃ u,
      run step t (List.replicate n .daemon) = some u ∧
      (u.daemon = .exited ∨ u.daemon = .sleeping ∧ u.inodeOf p = none)) := by
  have hnamed : Named s := run_invariant Named step_named hs (start_named now files)
  obtain ⟨s', hfind, h⟩ := run_cons h
  have hdoomed : Doomed p i (s.atime i) s' := by
    cases step_moves hfind with
    | found order hd ho =>
      refine .inr ⟨⟨hdead.inode, hdead.atime, hdead.old, hdead.closed⟩, ?_⟩
      have hmem := (inodeOf_isSome s p).mp (by rw [hdead.inode]; rfl)
      exact ho.mem_iff.mpr (List.mem_filter.mpr ⟨hmem, by simpa using hp⟩)
  have hnamed' := step_named s _ s' hnamed hfind
  have hgone : ∀ {u : State}, Doomed p i (s.atime i) u → u.daemon = .sleeping →
      u.inodeOf p = none := by
    intro u hu hsleep
    refine hu.resolve_right fun hw => ?_
    have := hw.2
    rw [hsleep] at this
    cases this
  have ht := run_doomed h hquiet hnamed' hdoomed
  refine ⟨hgone ht, fun hleft => ?_⟩
  obtain ⟨n, hn, u, hu, hdone⟩ := pass_ends (left t.daemon) le_rfl hleft
  refine ⟨n, hn, u, hu, hdone.symm.imp id fun hsleep => ⟨hsleep, hgone ?_ hsleep⟩⟩
  refine run_doomed hu (fun a ha k => ?_) (run_invariant Named step_named h hnamed') ht
  rw [List.eq_of_mem_replicate ha]
  simp

def renewedMeanwhile : List Act :=
  [.daemon, .openEntry 0 live, .daemon, .futimes 0, .daemon, .daemon, .daemon, .daemon]

theorem dead_entry_reaped :
    ∃ s t, run step (start 1000 [(dead, 880), (live, 999)])
        [.list [dead, live], .daemon, .daemon, .daemon] = some s ∧
      run step s (.find [dead, live] :: renewedMeanwhile) = some t ∧
      t.daemon = .sleeping ∧ t.inodeOf dead = none := by
  have hbefore : (run step (start 1000 [(dead, 880), (live, 999)])
      [.list [dead, live], .daemon, .daemon, .daemon]).isSome = true := by decide +kernel
  obtain ⟨s, hs⟩ := Option.isSome_iff_exists.mp hbefore
  have hfacts : (run step (start 1000 [(dead, 880), (live, 999)])
      [.list [dead, live], .daemon, .daemon, .daemon]).map
        (fun s => (s.inodeOf dead, s.atime 0, s.now)) = some (some 0, 880, 1000) := by
    decide +kernel
  have hafter : ((run step (start 1000 [(dead, 880), (live, 999)])
      [.list [dead, live], .daemon, .daemon, .daemon]).bind
        (run step · (.find [dead, live] :: renewedMeanwhile))).map State.daemon =
      some .sleeping := by decide +kernel
  rw [hs, Option.map_some, Option.some.injEq, Prod.mk.injEq, Prod.mk.injEq] at hfacts
  rw [hs, Option.bind_some] at hafter
  obtain ⟨t, ht, hsleep⟩ := Option.map_eq_some_iff.mp hafter
  have hclosed : ∀ k, s.fds k ≠ some 0 := by
    have hfds : s.fds = fun _ => none := by
      have h := congrArg (Option.map State.fds) hs
      exact (Option.some.inj h).symm
    simp [hfds]
  have hdead : Dead dead 0 (s.atime 0) s :=
    ⟨hfacts.1, rfl, by rw [hfacts.2.1, hfacts.2.2]; decide, hclosed⟩
  refine ⟨s, t, hs, ht, hsleep, ?_⟩
  refine (dead_entries_reaped 1000 _ _ s hs dead 0 (by decide +kernel) hdead _ _ t ht ?_).1 hsleep
  have hne : live ≠ dead := by decide +kernel
  simp [renewedMeanwhile, hne]

end Wissbi.ReaperPass
