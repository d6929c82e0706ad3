import Wissbi.ReaperPass

set_option autoImplicit false

namespace Wissbi.Heartbeats
open MetaDaemon ReaperPass Runs Util

/-- The directory, with the seconds since the script's last command. -/
structure Timed where
  base : State
  waited : ℕ

def waitedAfter (waited : ℕ) : Act → ℕ
  | .tick => waited + 1
  | .daemon => 0
  | _ => waited

def timedStep (t : Timed) (a : Act) : Option Timed :=
  (step t.base a).map fun s => ⟨s, waitedAfter t.waited a⟩

/-- The entry's owner lives: it does not unlink it, and no second passes in which a renewal is
overdue. From `stat` to `date` the script needs no more than `delay` seconds. -/
def Punctual (heartbeat delay : ℕ) (p : Str) (t : Timed) : Act → Prop
  | .tick =>
    (∀ a ∈ t.base.atimeOf p, t.base.now < a + heartbeat) ∧
      ∀ b rest, t.base.daemon = .comparing p b rest → t.waited < delay
  | .unlink q => q ≠ p
  | _ => True

def KeepsAlive (heartbeat delay : ℕ) : Prop :=
  ∀ (now : ℕ) (files : List (Str × ℕ)) (p : Str) (a : ℕ) (acts : List Act) (t : Timed),
    (start now files).atimeOf p = some a → now ≤ a + heartbeat →
    run timedStep ⟨start now files, 0⟩ acts = some t →
    Along timedStep (Punctual heartbeat delay p) ⟨start now files, 0⟩ acts →
    (t.base.inodeOf p).isSome = true ∧ ∀ r ∈ t.base.removed, r.path ≠ p

/-- What the script has read of the entry is no older than its own delay allows. -/
structure Kept (heartbeat delay : ℕ) (p : Str) (i : ℕ) (t : Timed) : Prop where
  inode : t.base.inodeOf p = some i
  renewed : t.base.now ≤ t.base.atime i + heartbeat
  read : ∀ b rest, t.base.daemon = .comparing p b rest →
    ∃ a, b = some a ∧ t.base.now ≤ a + heartbeat + t.waited ∧ t.waited ≤ delay
  spared : ∀ b rest, t.base.daemon ≠ .removing p b rest
  never : ∀ r ∈ t.base.removed, r.path ≠ p

section
variable {heartbeat delay : ℕ} {p : Str} {i : ℕ} {t u : Timed} {a : Act}

theorem Kept.moved (h : Kept heartbeat delay p i t) {d : Daemon} {n : ℕ}
    (hc : ∀ b rest, d ≠ .comparing p b rest) (hr : ∀ b rest, d ≠ .removing p b rest) :
    Kept heartbeat delay p i ⟨{ t.base with daemon := d }, n⟩ :=
  ⟨h.inode, h.renewed, fun b rest hd => absurd hd (hc b rest), hr, h.never⟩

theorem Kept.without (h : Kept heartbeat delay p i t) {q : Str} (hq : p ≠ q) :
    Kept heartbeat delay p i ⟨t.base.without q, t.waited⟩ :=
  ⟨(inodeOf_without t.base hq).trans h.inode, h.renewed, h.read, h.spared, h.never⟩

theorem step_kept (henough : heartbeat + delay ≤ 60) (hn : Named t.base)
    (ht : Kept heartbeat delay p i t) (hp : Punctual heartbeat delay p t a)
    (h : timedStep t a = some u) : Kept heartbeat delay p i u := by
  obtain ⟨s, hs, rfl⟩ := Option.map_eq_some_iff.mp h
  have hatime : t.base.atimeOf p = some (t.base.atime i) := by
    rw [State.atimeOf, ht.inode, Option.map_some]
  cases step_moves hs with
  | ticked =>
    refine ⟨ht.inode, ?_, fun b rest hd => ?_, ht.spared, ht.never⟩
    · exact hp.1 _ hatime
    · obtain ⟨c, hc, hnow, -⟩ := ht.read b rest hd
      have hwait := hp.2 b rest hd
      exact ⟨c, hc, by simp only [waitedAfter]; omega, hwait⟩
  | opened k j q hj => exact ⟨ht.inode, ht.renewed, ht.read, ht.spared, ht.never⟩
  | created k q hi =>
    have hq : q ≠ p := by
      rintro rfl
      rw [ht.inode] at hi
      cases hi
    have hne : i ≠ t.base.nextInode := Nat.ne_of_lt (inodeOf_lt hn.fresh ht.inode)
    refine ⟨(inodeOf_create rfl hq).trans ht.inode, ?_, ht.read, ht.spared, ht.never⟩
    simp only [Function.update_of_ne hne]
    exact ht.renewed
  | renewed k j hk =>
    refine ⟨ht.inode, ?_, ht.read, ht.spared, ht.never⟩
    by_cases hij : i = j
    · simp only [hij, Function.update_self]
      omega
    · simp only [Function.update_of_ne hij]
      exact ht.renewed
  | unlinked q => exact ht.without (Ne.symm hp)
  | statted q rest hd =>
    refine ⟨ht.inode, ht.renewed, fun b rest' hd' => ?_, by simp, ht.never⟩
    cases hd'
    exact ⟨_, hatime, ht.renewed, Nat.zero_le _⟩
  | condemned q b rest hd hold =>
    refine ⟨ht.inode, ht.renewed, by simp, fun b' rest' hd' => ?_, ht.never⟩
    -- The reading of this entry would have had to be older than the two delays allow.
    cases hd'
    obtain ⟨c, rfl, hnow, hwait⟩ := ht.read b rest hd
    simp only [Option.getD_some] at hold
    omega
  | removed q b rest renewed hd hr =>
    have hq : p ≠ q := by
      rintro rfl
      exact ht.spared b rest hd
    have hkept := (ht.without hq).moved (d := .statting rest) (n := 0) (by simp) (by simp)
    refine ⟨hkept.inode, hkept.renewed, hkept.read, hkept.spared, fun r hmem => ?_⟩
    rcases List.mem_append.mp hmem with hmem | hmem
    · exact ht.never r hmem
    · rw [List.mem_singleton.mp hmem]
      exact hq.symm
  | _ => exact ht.moved (by simp) (by simp)

end

structure At (p : Str) (now a : ℕ) (d : Daemon) (waited : ℕ) (t : Timed) : Prop where
  entries : t.base.entries = [⟨p, 0⟩]
  now : t.base.now = now
  atime : t.base.atime 0 = a
  daemon : t.base.daemon = d
  waited : t.waited = waited

section
variable (heartbeat delay : ℕ) {p : Str} {now a : ℕ} {d : Daemon} {waited : ℕ} {t : Timed}

theorem At.inode (h : At p now a d waited t) : t.base.inodeOf p = some 0 := by
  simp [State.inodeOf, h.entries]

theorem At.atimeOf (h : At p now a d waited t) : t.base.atimeOf p = some a := by
  rw [State.atimeOf, h.inode, Option.map_some, h.atime]

theorem tick_at (h : At p now a d waited t) (hnow : now < a + heartbeat)
    (hd : ∀ b rest, d = .comparing p b rest → waited < delay) :
    ∃ u, ReachesAlong timedStep (Punctual heartbeat delay p) t u ∧
      At p (now + 1) a d (waited + 1) u := by
  refine ⟨_, .single (a := .tick) rfl ⟨fun b hb => ?_, fun b rest hb => ?_⟩, ?_⟩
  · rw [h.atimeOf] at hb
    cases hb
    rw [h.now]
    exact hnow
  · rw [h.waited]
    exact hd b rest (h.daemon.symm.trans hb)
  · exact ⟨h.entries, congrArg (· + 1) h.now, h.atime, h.daemon, congrArg (· + 1) h.waited⟩

theorem ticks_at (n : ℕ) (h : At p now a d waited t) (hnow : now + n ≤ a + heartbeat)
    (hd : ∀ b rest, d ≠ .comparing p b rest) :
    ∃ u, ReachesAlong timedStep (Punctual heartbeat delay p) t u ∧
      At p (now + n) a d (waited + n) u := by
  induction n with
  | zero => exact ⟨t, .refl _ t, h⟩
  | succ n ih =>
    obtain ⟨u, hu, hat⟩ := ih (by omega)
    obtain ⟨v, hv, hat⟩ := tick_at heartbeat delay hat (by omega) fun b rest he =>
      absurd he (hd b rest)
    exact ⟨v, hu.trans hv, hat⟩

theorem renew_at (h : At p now a d waited t) :
    ∃ u, ReachesAlong timedStep (Punctual heartbeat delay p) t u ∧ At p now now d waited u := by
  have hopen : timedStep t (.openEntry 0 p) =
      some ⟨{ t.base with fds := Function.update t.base.fds 0 (some 0) }, t.waited⟩ := by
    simp [timedStep, step, State.openEntry, h.inode, waitedAfter]
  refine ⟨_, (ReachesAlong.single hopen trivial).trans
    (.single (a := .futimes 0) (by simp [timedStep, step]; rfl) trivial), ?_⟩
  exact ⟨h.entries, h.now, by simp [h.now], h.daemon, h.waited⟩

theorem beats_at (hpos : 0 < heartbeat) (n : ℕ) (h : At p now a d waited t)
    (hn : waited + n ≤ delay) :
    ∃ u b, ReachesAlong timedStep (Punctual heartbeat delay p) t u ∧
      At p (now + n) b d (waited + n) u := by
  induction n with
  | zero => exact ⟨t, a, .refl _ t, h⟩
  | succ n ih =>
    obtain ⟨u, b, hu, hat⟩ := ih (by omega)
    obtain ⟨v, hv, hat⟩ := renew_at heartbeat delay hat
    obtain ⟨w, hw, hat⟩ := tick_at heartbeat delay hat (by omega) fun _ _ _ => by omega
    exact ⟨w, _, (hu.trans hv).trans hw, hat⟩

theorem command_at (h : At p now a d waited t) {c : Act} {e : Daemon}
    (hc : Punctual heartbeat delay p t c)
    (hstep : step t.base c = some { t.base with daemon := e }) :
    ∃ u, ReachesAlong timedStep (Punctual heartbeat delay p) t u ∧
      At p now a e (waitedAfter waited c) u := by
  refine ⟨_, .single (by rw [timedStep, hstep, Option.map_some]) hc, ?_⟩
  exact ⟨h.entries, h.now, h.atime, rfl, by rw [h.waited]⟩

theorem listed_at (h : At p now a .syncing waited t) (hp : colon ∈ p) :
    ∃ u n, ReachesAlong timedStep (Punctual heartbeat delay p) t u ∧
      At p now a (.statting [p]) n u := by
  have hperm : [p].isPerm [p] = true := List.isPerm_iff.mpr (.refl _)
  obtain ⟨t₁, h₁, hat⟩ := command_at heartbeat delay h (c := .list [p]) (e := .copying [p]) trivial
    (by simp [step, h.daemon, h.entries, hperm])
  obtain ⟨t₂, h₂, hat⟩ := command_at heartbeat delay hat (c := .daemon) (e := .copying []) trivial
    (by simp [step, State.daemonStep, hat.daemon, hat.inode])
  obtain ⟨t₃, h₃, hat⟩ := command_at heartbeat delay hat (c := .daemon) (e := .finding) trivial
    (by simp [step, State.daemonStep, hat.daemon])
  obtain ⟨t₄, h₄, hat⟩ := command_at heartbeat delay hat (c := .find [p]) (e := .statting [p])
    trivial (by simp [step, hat.daemon, hat.entries, hp, hperm])
  exact ⟨t₄, _, ((h₁.trans h₂).trans h₃).trans h₄, hat⟩

theorem removed_at {b : ℕ} (h : At p now a (.comparing p (some b) []) waited t)
    (hold : 60 < (now : ℤ) - b) :
    ∃ u, ReachesAlong timedStep (Punctual heartbeat delay p) t u ∧ u.base.inodeOf p = none := by
  obtain ⟨t₁, h₁, hat⟩ := command_at heartbeat delay h (c := .daemon)
    (e := .removing p (some b) []) trivial
    (by simp [step, State.daemonStep, h.daemon, h.now, hold])
  have hrm : step t₁.base .daemon = some
      { t₁.base.without p with
        daemon := .statting []
        removed := t₁.base.removed ++ [⟨p, a, t₁.base.now⟩] } := by
    simp only [step, State.daemonStep, hat.daemon, hat.atimeOf]
  have hlast := congrArg (Option.map fun s => (⟨s, 0⟩ : Timed)) hrm
  exact ⟨_, h₁.trans (.single (a := .daemon) hlast trivial), without_self t₁.base p⟩

end

theorem late_removed {heartbeat delay : ℕ} (hpos : 0 < heartbeat) (hlate : 60 < heartbeat + delay)
    {p : Str} (hp : colon ∈ p) :
    ∃ u, ReachesAlong timedStep (Punctual heartbeat delay p) ⟨start 0 [(p, 0)], 0⟩ u ∧
      u.base.inodeOf p = none := by
  have hstart : At p 0 0 .syncing 0 ⟨start 0 [(p, 0)], 0⟩ := ⟨rfl, rfl, rfl, rfl, rfl⟩
  obtain ⟨t₁, n, h₁, hat⟩ := listed_at heartbeat delay hstart hp
  -- The whole heartbeat passes before `stat`, the whole delay after it.
  obtain ⟨t₂, h₂, hat⟩ := ticks_at heartbeat delay heartbeat hat (by omega) (by simp)
  obtain ⟨t₃, h₃, hat⟩ := command_at heartbeat delay hat (c := .daemon)
    (e := .comparing p (some 0) []) trivial
    (by simp [step, State.daemonStep, hat.daemon, hat.atimeOf])
  obtain ⟨t₄, b, h₄, hat⟩ := beats_at heartbeat delay hpos delay hat (by simp [waitedAfter])
  obtain ⟨t₅, h₅, hgone⟩ := removed_at heartbeat delay hat (by push_cast; omega)
  exact ⟨t₅, (((h₁.trans h₂).trans h₃).trans h₄).trans h₅, hgone⟩

/-- A live subscriber's entry is safe exactly when a heartbeat and the time from `stat` to
`date` together fit into the script's 60 seconds. -/
theorem kept_alive_iff (heartbeat delay : ℕ) (hpos : 0 < heartbeat) :
    KeepsAlive heartbeat delay ↔ heartbeat + delay ≤ 60 := by
  constructor
  · intro h
    by_contra hlate
    obtain ⟨u, ⟨acts, hrun, halong⟩, hgone⟩ := late_removed hpos (Nat.lt_of_not_le hlate)
      (p := live) (by decide +kernel)
    have hkept := (h 0 [(live, 0)] live 0 acts u (by decide +kernel) (Nat.zero_le _) hrun halong).1
    rw [hgone] at hkept
    cases hkept
  · intro henough now files p a acts t ha hfresh hrun halong
    obtain ⟨i, hi, rfl⟩ := Option.map_eq_some_iff.mp ha
    have hkept := run_invariant_along (Punctual heartbeat delay p)
      (fun t => Named t.base ∧ Kept heartbeat delay p i t) (fun s c u hs hc h => ?_) hrun halong
      ⟨start_named now files, hi, hfresh, by simp [start], by simp [start], by simp [start]⟩
    · exact ⟨by rw [hkept.2.inode]; rfl, hkept.2.never⟩
    · obtain ⟨v, hv, hu⟩ := Option.map_eq_some_iff.mp h
      exact ⟨hu ▸ step_named s.base c v hs.1 hv, step_kept henough hs.1 hs.2 hc h⟩

theorem default_heartbeat_short : KeepsAlive 55 5 ∧ KeepsAlive 60 0 ∧ ¬ KeepsAlive 60 1 :=
  ⟨(kept_alive_iff 55 5 (by decide)).mpr (by decide),
    (kept_alive_iff 60 0 (by decide)).mpr (by decide),
    fun h => absurd ((kept_alive_iff 60 1 (by decide)).mp h) (by decide)⟩

end Wissbi.Heartbeats
