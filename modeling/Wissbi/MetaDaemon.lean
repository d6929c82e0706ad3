import Wissbi.Runs
import Wissbi.Util

set_option autoImplicit false

/-!
# `wsbmetad.sh`: the reaper of subscriber entries

The loop of the daemon and the subscribers that create, renew and unlink their entries, on
one directory. `find`, `stat`, the comparison and `rm` are one step each, and so are `open`
and `futimes` of a renewal, which reaches the file that was opened even when its name is
gone. Under `errexit` a command that fails ends the daemon, except where the script says
`|| true` or the command is in a condition or in the list of the `for`.
-/
namespace Wissbi.MetaDaemon
open Runs Util

structure Entry where
  path : Str
  inode : ℕ
  deriving DecidableEq, Repr

/-- Where the script is. `ATIME` is empty after a `stat` that failed. -/
inductive Daemon where
  | syncing
  | copying (rest : List Str)
  | finding
  | statting (rest : List Str)
  | comparing (entry : Str) (atime : Option ℕ) (rest : List Str)
  | removing (entry : Str) (atime : Option ℕ) (rest : List Str)
  | sleeping
  | exited
  deriving DecidableEq, Repr

structure Removal where
  path : Str
  renewed : ℕ
  time : ℕ
  deriving DecidableEq, Repr

/-- `fds` are the files that the subscribers have open in a renewal. -/
structure State where
  now : ℕ
  entries : List Entry
  atime : ℕ → ℕ
  nextInode : ℕ
  fds : ℕ → Option ℕ
  daemon : Daemon
  removed : List Removal

inductive Act where
  | tick
  | openEntry (k : ℕ) (path : Str)
  | futimes (k : ℕ)
  | unlink (path : Str)
  | list (order : List Str)
  | find (order : List Str)
  | daemon
  deriving DecidableEq, Repr

def State.inodeOf (s : State) (path : Str) : Option ℕ :=
  (s.entries.find? fun e => e.path = path).map Entry.inode

def State.atimeOf (s : State) (path : Str) : Option ℕ := (s.inodeOf path).map s.atime

def State.without (s : State) (path : Str) : State :=
  { s with entries := s.entries.filter fun e => e.path ≠ path }

def State.openEntry (s : State) (k : ℕ) (path : Str) : State :=
  match s.inodeOf path with
  | some i => { s with fds := Function.update s.fds k (some i) }
  | none =>
    { s with
      entries := s.entries ++ [⟨path, s.nextInode⟩]
      atime := Function.update s.atime s.nextInode s.now
      nextInode := s.nextInode + 1
      fds := Function.update s.fds k (some s.nextInode) }

/-- The next step of the script. `rsync` fails when a file of its list has vanished, `rm`
when there is nothing to remove; an empty `ATIME` counts as zero in the arithmetic. -/
def State.daemonStep (s : State) : Option State :=
  match s.daemon with
  | .copying [] => some { s with daemon := .finding }
  | .copying (p :: rest) =>
    if (s.inodeOf p).isSome then some { s with daemon := .copying rest }
    else some { s with daemon := .exited }
  | .statting [] => some { s with daemon := .sleeping }
  | .statting (p :: rest) => some { s with daemon := .comparing p (s.atimeOf p) rest }
  | .comparing p a rest =>
    if (s.now : ℤ) - (a.getD 0 : ℕ) > 60 then some { s with daemon := .removing p a rest }
    else some { s with daemon := .statting rest }
  | .removing p _ rest =>
    match s.atimeOf p with
    | some renewed =>
      some { s.without p with
        daemon := .statting rest
        removed := s.removed ++ [⟨p, renewed, s.now⟩] }
    | none => some { s with daemon := .exited }
  | .sleeping => some { s with daemon := .syncing }
  | .syncing | .finding | .exited => none

/-- `list` is the file list of `rsync`, `find` that of the `for`, in any order. The script splits
`$ENTRY` and what it lists into words, so no name has white space or pattern characters in it, and
no directory's name a colon. -/
def step (s : State) : Act → Option State
  | .tick => some { s with now := s.now + 1 }
  | .openEntry k p => some (s.openEntry k p)
  | .futimes k =>
    (s.fds k).map fun i =>
      { s with atime := Function.update s.atime i s.now, fds := Function.update s.fds k none }
  | .unlink p => some (s.without p)
  | .list order =>
    if s.daemon = .syncing ∧ order.isPerm (s.entries.map Entry.path) then
      some { s with daemon := .copying order }
    else none
  | .find order =>
    if s.daemon = .finding ∧
        order.isPerm ((s.entries.map Entry.path).filter fun p => colon ∈ p) then
      some { s with daemon := .statting order }
    else none
  | .daemon => s.daemonStep

def start (now : ℕ) (files : List (Str × ℕ)) : State :=
  { now := now
    entries := files.mapIdx fun i f => ⟨f.1, i⟩
    atime := fun i => ((files[i]?).map Prod.snd).getD 0
    nextInode := files.length
    fds := fun _ => none
    daemon := .syncing
    removed := [] }

def OnlyDead (s : State) : Prop := ∀ r ∈ s.removed, (r.time : ℤ) - r.renewed > 60

/-- An entry is there when `rsync` copies it, when it is looked at and when it is removed,
and between the look and the removal it was not renewed. -/
def Steady (s : State) : Act → Prop
  | .daemon =>
    match s.daemon with
    | .copying (p :: _) => (s.inodeOf p).isSome = true
    | .statting (p :: _) => (s.inodeOf p).isSome = true
    | .removing p a _ => (s.inodeOf p).isSome = true ∧ s.atimeOf p = a
    | _ => True
  | _ => True

instance (s : State) (a : Act) : Decidable (Steady s a) :=
  match a with
  | .daemon =>
    match h : s.daemon with
    | .copying (p :: _) =>
      decidable_of_iff ((s.inodeOf p).isSome = true) (by simp [Steady, h])
    | .statting (p :: _) =>
      decidable_of_iff ((s.inodeOf p).isSome = true) (by simp [Steady, h])
    | .removing p a _ =>
      decidable_of_iff ((s.inodeOf p).isSome = true ∧ s.atimeOf p = a) (by simp [Steady, h])
    | .copying [] | .statting [] | .syncing | .finding | .comparing _ _ _ | .sleeping
    | .exited => isTrue (by simp [Steady, h])
  | .tick | .openEntry _ _ | .futimes _ | .unlink _ | .list _ | .find _ => isTrue trivial

inductive Moves (s : State) : Act → State → Prop where
  | ticked : Moves s .tick { s with now := s.now + 1 }
  | opened (k i : ℕ) (p : Str) (hi : s.inodeOf p = some i) :
      Moves s (.openEntry k p) { s with fds := Function.update s.fds k (some i) }
  | created (k : ℕ) (p : Str) (hi : s.inodeOf p = none) :
      Moves s (.openEntry k p)
        { s with
          entries := s.entries ++ [⟨p, s.nextInode⟩]
          atime := Function.update s.atime s.nextInode s.now
          nextInode := s.nextInode + 1
          fds := Function.update s.fds k (some s.nextInode) }
  | renewed (k i : ℕ) (hk : s.fds k = some i) :
      Moves s (.futimes k)
        { s with atime := Function.update s.atime i s.now, fds := Function.update s.fds k none }
  | unlinked (p : Str) : Moves s (.unlink p) (s.without p)
  | listed (order : List Str) (hd : s.daemon = .syncing)
      (ho : order.Perm (s.entries.map Entry.path)) :
      Moves s (.list order) { s with daemon := .copying order }
  | found (order : List Str) (hd : s.daemon = .finding)
      (ho : order.Perm ((s.entries.map Entry.path).filter fun p => colon ∈ p)) :
      Moves s (.find order) { s with daemon := .statting order }
  | synced (hd : s.daemon = .copying []) : Moves s .daemon { s with daemon := .finding }
  | copied (p : Str) (rest : List Str) (hd : s.daemon = .copying (p :: rest))
      (hi : (s.inodeOf p).isSome = true) : Moves s .daemon { s with daemon := .copying rest }
  | vanished (p : Str) (rest : List Str) (hd : s.daemon = .copying (p :: rest))
      (hi : (s.inodeOf p).isSome = false) : Moves s .daemon { s with daemon := .exited }
  | passed (hd : s.daemon = .statting []) : Moves s .daemon { s with daemon := .sleeping }
  | statted (p : Str) (rest : List Str) (hd : s.daemon = .statting (p :: rest)) :
      Moves s .daemon { s with daemon := .comparing p (s.atimeOf p) rest }
  | condemned (p : Str) (a : Option ℕ) (rest : List Str) (hd : s.daemon = .comparing p a rest)
      (ha : (s.now : ℤ) - (a.getD 0 : ℕ) > 60) :
      Moves s .daemon { s with daemon := .removing p a rest }
  | spared (p : Str) (a : Option ℕ) (rest : List Str) (hd : s.daemon = .comparing p a rest) :
      Moves s .daemon { s with daemon := .statting rest }
  | removed (p : Str) (a : Option ℕ) (rest : List Str) (renewed : ℕ)
      (hd : s.daemon = .removing p a rest) (hr : s.atimeOf p = some renewed) :
      Moves s .daemon
        { s.without p with
          daemon := .statting rest
          removed := s.removed ++ [⟨p, renewed, s.now⟩] }
  | missed (p : Str) (a : Option ℕ) (rest : List Str) (hd : s.daemon = .removing p a rest)
      (hr : s.atimeOf p = none) : Moves s .daemon { s with daemon := .exited }
  | woke (hd : s.daemon = .sleeping) : Moves s .daemon { s with daemon := .syncing }

theorem daemon_moves {s t : State} (h : s.daemonStep = some t) : Moves s .daemon t := by
  unfold State.daemonStep at h
  split at h
  next hd => cases h; exact .synced hd
  next p rest hd =>
    split at h
    next hi => cases h; exact .copied p rest hd hi
    next hi => cases h; exact .vanished p rest hd (by simpa using hi)
  next hd => cases h; exact .passed hd
  next p rest hd => cases h; exact .statted p rest hd
  next p a rest hd =>
    split at h
    next ha => cases h; exact .condemned p a rest hd ha
    next => cases h; exact .spared p a rest hd
  next p a rest hd =>
    split at h
    next renewed hr => cases h; exact .removed p a rest renewed hd hr
    next hr => cases h; exact .missed p a rest hd hr
  next hd => cases h; exact .woke hd
  all_goals cases h

theorem step_moves {s t : State} {a : Act} (h : step s a = some t) : Moves s a t := by
  cases a with
  | tick => cases h; exact .ticked
  | openEntry k p =>
    cases h
    unfold State.openEntry
    split
    next i hi => exact .opened k i p hi
    next hi => exact .created k p hi
  | futimes k =>
    obtain ⟨i, hi, rfl⟩ := Option.map_eq_some_iff.mp h
    exact .renewed k i hi
  | unlink p => cases h; exact .unlinked p
  | list order =>
    simp only [step] at h
    split at h
    next hd => cases h; exact .listed order hd.1 (List.isPerm_iff.mp hd.2)
    next => cases h
  | find order =>
    simp only [step] at h
    split at h
    next hd => cases h; exact .found order hd.1 (List.isPerm_iff.mp hd.2)
    next => cases h
  | daemon => exact daemon_moves h

structure Alive (s : State) : Prop where
  running : s.daemon ≠ .exited
  judged : ∀ p a rest, s.daemon = .removing p a rest → (s.now : ℤ) - (a.getD 0 : ℕ) > 60
  removed : OnlyDead s

theorem step_alive (s : State) (a : Act) (t : State) (hs : Alive s) (steady : Steady s a)
    (h : step s a = some t) : Alive t := by
  cases step_moves h with
  | ticked =>
    refine ⟨hs.running, fun p a rest hd => ?_, hs.removed⟩
    have := hs.judged p a rest hd
    push_cast
    omega
  | vanished p rest hd hi =>
    simp only [Steady, hd, hi] at steady
    cases steady
  | condemned p a rest hd ha =>
    refine ⟨by simp, fun p' a' rest' hd' => ?_, hs.removed⟩
    cases hd'
    exact ha
  | removed p a rest renewed hd hr =>
    refine ⟨by simp, by simp, fun r hmem => ?_⟩
    rcases List.mem_append.mp hmem with hmem | hmem
    · exact hs.removed r hmem
    · simp only [Steady, hd, hr] at steady
      have hold := hs.judged p a rest hd
      rw [← steady.2] at hold
      rw [List.mem_singleton.mp hmem]
      exact hold
  | missed p a rest hd hr =>
    simp only [Steady, hd] at steady
    have hsome := steady.1
    rw [State.atimeOf, Option.map_eq_none_iff] at hr
    rw [hr] at hsome
    cases hsome
  | opened | created | renewed | unlinked => exact ⟨hs.running, hs.judged, hs.removed⟩
  | _ => exact ⟨by simp, by simp, hs.removed⟩

theorem run_alive {now : ℕ} {files : List (Str × ℕ)} {acts : List Act} {s : State}
    (h : run step (start now files) acts = some s)
    (steady : Along step Steady (start now files) acts) : Alive s :=
  run_invariant_along Steady Alive step_alive h steady
    ⟨by simp [start], by simp [start], by simp [OnlyDead, start]⟩

/-- In every run in which the entries are steady under the daemon's steps, it never leaves
its loop and removes dead entries only. -/
theorem reaper_safe (now : ℕ) (files : List (Str × ℕ)) (acts : List Act) (s : State)
    (h : run step (start now files) acts = some s)
    (steady : Along step Steady (start now files) acts) : s.daemon ≠ .exited ∧ OnlyDead s := by
  have hs := run_alive h steady
  exact ⟨hs.running, hs.removed⟩

def Daemon.pending : Daemon → List Str
  | .copying rest => rest
  | .statting rest => rest
  | .comparing p _ rest => p :: rest
  | .removing p _ rest => p :: rest
  | _ => []

def Daemon.judging : Daemon → Option (Str × Option ℕ)
  | .comparing p a _ => some (p, a)
  | .removing p a _ => some (p, a)
  | _ => none

/-- The subscribers leave alone what the daemon is at: none unlinks an entry of its list, and
none renews the one that it has looked at. -/
def Undisturbed (s : State) : Act → Prop
  | .unlink p => p ∉ s.daemon.pending
  | .futimes k => ∀ x ∈ s.daemon.judging, s.fds k ≠ s.inodeOf x.1
  | _ => True

structure Watched (s : State) : Prop where
  paths : (s.entries.map Entry.path).Nodup
  inodes : ∀ e ∈ s.entries, e.inode < s.nextInode
  pending : ∀ p ∈ s.daemon.pending, (s.inodeOf p).isSome = true
  once : s.daemon.pending.Nodup
  judging : ∀ x ∈ s.daemon.judging, s.atimeOf x.1 = x.2

theorem inodeOf_isSome (s : State) (p : Str) :
    (s.inodeOf p).isSome = true ↔ p ∈ s.entries.map Entry.path := by
  simp [State.inodeOf, List.find?_isSome]

theorem inodeOf_lt {s : State} (hs : ∀ e ∈ s.entries, e.inode < s.nextInode) {p : Str} {i : ℕ}
    (h : s.inodeOf p = some i) : i < s.nextInode := by
  obtain ⟨e, he, rfl⟩ := Option.map_eq_some_iff.mp h
  exact hs e (List.mem_of_find?_eq_some he)

theorem inodeOf_without (s : State) {p q : Str} (h : q ≠ p) :
    (s.without p).inodeOf q = s.inodeOf q := by
  unfold State.inodeOf State.without
  rw [List.find?_filter]
  have hp : (fun e : Entry => decide (decide (e.path ≠ p) = true ∧ decide (e.path = q) = true)) =
      fun e => decide (e.path = q) := by
    funext e
    by_cases he : e.path = q
    · simp [he, h]
    · simp [he]
  rw [hp]

theorem inodeOf_append {s t : State} {e : Entry} (ht : t.entries = s.entries ++ [e]) {p : Str}
    (h : (s.inodeOf p).isSome = true) : t.inodeOf p = s.inodeOf p := by
  unfold State.inodeOf at h ⊢
  rw [Option.isSome_map] at h
  obtain ⟨x, hx⟩ := Option.isSome_iff_exists.mp h
  rw [ht, List.find?_append, hx]
  rfl

theorem watched_steady (s : State) (a : Act) (hs : Watched s) (_ : Undisturbed s a) :
    Steady s a := by
  cases a with
  | daemon =>
    unfold Steady
    simp only
    split
    next p rest hd => exact hs.pending p (by simp [hd, Daemon.pending])
    next p rest hd => exact hs.pending p (by simp [hd, Daemon.pending])
    next p a rest hd =>
      exact ⟨hs.pending p (by simp [hd, Daemon.pending]),
        hs.judging (p, a) (by simp [hd, Daemon.judging])⟩
    next => trivial
  | _ => trivial

theorem judging_pending {d : Daemon} {x : Str × Option ℕ} (h : x ∈ d.judging) :
    x.1 ∈ d.pending := by
  cases d <;> simp_all [Daemon.judging, Daemon.pending]
  all_goals simp [← h]

theorem Watched.advance {s : State} (hs : Watched s) {d : Daemon} (removed : List Removal)
    (hp : d.pending.Sublist s.daemon.pending)
    (hj : ∀ x ∈ d.judging, s.atimeOf x.1 = x.2) :
    Watched { s with daemon := d, removed } :=
  ⟨hs.paths, hs.inodes, fun p h => hs.pending p (hp.subset h), hs.once.sublist hp, hj⟩

theorem Watched.unlink {s : State} (hs : Watched s) {p : Str} (hp : p ∉ s.daemon.pending) :
    Watched (s.without p) := by
  have hother : ∀ q ∈ s.daemon.pending, (s.without p).inodeOf q = s.inodeOf q := by
    intro q hq
    apply inodeOf_without s
    rintro rfl
    exact hp hq
  refine ⟨?_, ?_, ?_, hs.once, ?_⟩
  · exact hs.paths.sublist (List.filter_sublist.map _)
  · exact fun e he => hs.inodes e (List.mem_filter.mp he).1
  · intro q hq
    rw [hother q hq]
    exact hs.pending q hq
  · intro x hx
    rw [State.atimeOf, hother x.1 (judging_pending hx)]
    exact hs.judging x hx

theorem Watched.create {s : State} (hs : Watched s) (k : ℕ) {p : Str} (hp : s.inodeOf p = none) :
    Watched { s with
      entries := s.entries ++ [⟨p, s.nextInode⟩]
      atime := Function.update s.atime s.nextInode s.now
      nextInode := s.nextInode + 1
      fds := Function.update s.fds k (some s.nextInode) } := by
  have hnew : p ∉ s.entries.map Entry.path := by
    rw [← inodeOf_isSome, hp]
    simp
  refine ⟨?_, ?_, ?_, hs.once, ?_⟩
  · simp only [List.map_append, List.map_cons, List.map_nil]
    exact List.nodup_append_comm.mp (List.nodup_cons.mpr ⟨hnew, hs.paths⟩)
  · intro e he
    rcases List.mem_append.mp he with he | he
    · exact Nat.lt_succ_of_lt (hs.inodes e he)
    · rw [List.mem_singleton.mp he]
      exact Nat.lt_succ_self _
  · intro q hq
    rw [inodeOf_append rfl (hs.pending q hq)]
    exact hs.pending q hq
  · intro x hx
    have hsome := hs.pending x.1 (judging_pending hx)
    obtain ⟨i, hi⟩ := Option.isSome_iff_exists.mp hsome
    have hne : i ≠ s.nextInode := Nat.ne_of_lt (inodeOf_lt hs.inodes hi)
    rw [← hs.judging x hx, State.atimeOf, State.atimeOf, inodeOf_append rfl hsome, hi]
    simp [Function.update_of_ne hne]

theorem step_watched (s : State) (a : Act) (t : State) (hs : Watched s) (hu : Undisturbed s a)
    (h : step s a = some t) : Watched t := by
  cases step_moves h with
  | ticked | opened => exact ⟨hs.paths, hs.inodes, hs.pending, hs.once, hs.judging⟩
  | created k p hi => exact hs.create k hi
  | renewed k i hk =>
    refine ⟨hs.paths, hs.inodes, hs.pending, hs.once, fun x hx => ?_⟩
    have hne := hu x hx
    rw [hk] at hne
    rw [← hs.judging x hx]
    refine Option.map_congr fun j hj => ?_
    refine Function.update_of_ne (fun he => hne ?_) _ _
    rw [← he]
    exact hj.symm
  | unlinked p => exact hs.unlink hu
  | listed order hd ho =>
    refine ⟨hs.paths, hs.inodes, fun p hp => ?_, ho.nodup_iff.mpr hs.paths, by simp [Daemon.judging]⟩
    exact (inodeOf_isSome s p).mpr (ho.mem_iff.mp hp)
  | found order hd ho =>
    refine ⟨hs.paths, hs.inodes, fun p hp => ?_, ho.nodup_iff.mpr (hs.paths.filter _),
      by simp [Daemon.judging]⟩
    exact (inodeOf_isSome s p).mpr (List.mem_filter.mp (ho.mem_iff.mp hp)).1
  | statted p rest hd =>
    refine hs.advance s.removed (by simp [hd, Daemon.pending]) fun x hx => ?_
    cases hx
    rfl
  | condemned p a rest hd ha =>
    refine hs.advance s.removed (by simp [hd, Daemon.pending]) fun x hx => ?_
    exact hs.judging x (by rw [hd]; exact hx)
  | removed p a rest renewed hd hr =>
    have hlist := hs.once
    rw [hd] at hlist
    have hnext : Watched { s with
        daemon := .statting rest
        removed := s.removed ++ [⟨p, renewed, s.now⟩] } :=
      hs.advance _ (by simp [hd, Daemon.pending]) (by simp [Daemon.judging])
    exact hnext.unlink (List.nodup_cons.mp hlist).1
  | _ => exact hs.advance s.removed (by simp [Daemon.pending, *]) (by simp [Daemon.judging])

theorem start_watched (now : ℕ) (files : List (Str × ℕ)) (hf : (files.map Prod.fst).Nodup) :
    Watched (start now files) := by
  refine ⟨?_, ?_, by simp [start, Daemon.pending], by simp [start, Daemon.pending],
    by simp [start, Daemon.judging]⟩
  · have hpaths : (start now files).entries.map Entry.path = files.map Prod.fst := by
      refine List.ext_getElem (by simp [start]) fun i _ _ => ?_
      simp [start]
    rw [hpaths]
    exact hf
  · intro e he
    obtain ⟨i, hi, rfl⟩ := List.mem_mapIdx.mp he
    exact hi

/-- When the subscribers leave alone what the daemon is at, it is safe. -/
theorem undisturbed_safe (now : ℕ) (files : List (Str × ℕ)) (hf : (files.map Prod.fst).Nodup)
    (acts : List Act) (s : State) (h : run step (start now files) acts = some s)
    (hu : Along step Undisturbed (start now files) acts) : s.daemon ≠ .exited ∧ OnlyDead s := by
  have steady := along_of_invariant Undisturbed Steady Watched step_watched watched_steady
    (start_watched now files hf) hu
  have hs := run_alive h steady
  exact ⟨hs.running, hs.removed⟩

def dead : Str := ascii "/m/sub/foo/1.1.1.1:12345,dead.entry"

def live : Str := ascii "/m/sub/foo/1.1.1.1:1234,live.entry"

def listing : List Act := [.list [dead, live], .daemon, .daemon, .daemon, .find [dead, live]]

def oneRound : List Act := listing ++ [.daemon, .daemon, .daemon, .daemon, .daemon, .daemon]

def unlinkedFound : List Act := listing ++ [.unlink dead, .daemon, .daemon, .daemon]

def renewedLate : List Act :=
  listing ++ [.daemon, .daemon, .openEntry 0 dead, .futimes 0, .daemon]

theorem one_round_safe :
    ∃ s, run step (start 1000 [(dead, 880), (live, 999)]) oneRound = some s ∧
      s.removed = [⟨dead, 880, 1000⟩] ∧ s.daemon ≠ .exited ∧ OnlyDead s := by
  have hsome : (run step (start 1000 [(dead, 880), (live, 999)]) oneRound).map State.removed =
      some [⟨dead, 880, 1000⟩] := by decide +kernel
  obtain ⟨s, hs, hr⟩ := Option.map_eq_some_iff.mp hsome
  exact ⟨s, hs, hr, reaper_safe 1000 _ oneRound s hs (by decide +kernel)⟩

theorem disturbed_reaper_unsafe :
    ¬ (∀ acts s, run step (start 1000 [(dead, 880), (live, 999)]) acts = some s →
      s.daemon ≠ .exited) ∧
    ¬ ∀ acts s, run step (start 1000 [(dead, 880), (live, 999)]) acts = some s → OnlyDead s := by
  constructor
  · intro h
    have hsome : (run step (start 1000 [(dead, 880), (live, 999)]) unlinkedFound).map
        State.daemon = some .exited := by decide +kernel
    obtain ⟨s, hs, hd⟩ := Option.map_eq_some_iff.mp hsome
    exact h _ s hs hd
  · intro h
    have hsome : (run step (start 1000 [(dead, 880), (live, 999)]) renewedLate).map
        State.removed = some [⟨dead, 1000, 1000⟩] := by decide +kernel
    obtain ⟨s, hs, hr⟩ := Option.map_eq_some_iff.mp hsome
    have hold := h _ s hs ⟨dead, 1000, 1000⟩ (by rw [hr]; exact List.mem_singleton_self _)
    revert hold
    decide

end Wissbi.MetaDaemon
