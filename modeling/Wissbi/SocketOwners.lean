import Wissbi.Descriptors

set_option autoImplicit false

/-!
# The descriptors of `wissbi-sub` and `wissbi-pub`

The calls on descriptors of each thread, in the order of the source. What a call brings
about besides is left out: the messages are in `DeliveryMachine`, the queues, which have no
descriptors, in `QueueObjects`. Where a program ends by an exception its threads make no
further steps.
-/
namespace Wissbi.SocketOwners
open Descriptors

/-- The variables that hold descriptors; `res` is the one that the lambda of `run_sub`
captures. -/
inductive Var where
  | serv
  | fd
  | keyFile
  | dirPtr
  | res
  | sock
  deriving DecidableEq, Repr

/-- `creat`, whose result is asserted, and `close`; `ftok` and `msgget` take no descriptor. -/
def mqInit : List (Op Var) := [.requires .keyFile, .closes .keyFile]

def renew : List (Op Var) := [.requires .fd, .uses .fd, .closes .fd]

def tcpNew : List (Op Var) := [.opens .sock]

def tcpDestroy : List (Op Var) := [.closes .sock]

def connect : List (Op Var) := [.uses .sock]

def attachConnectedSock : List (Op Var) := [.closes .sock, .assigns .sock .res]

def filterLoop (n : ℕ) : List (Op Var) := List.replicate n (.uses .sock)

section
def reader (n : ℕ) : List (Op Var) :=
  tcpNew ++ mqInit ++ attachConnectedSock ++ filterLoop n ++ tcpDestroy

/-- One turn of the loop; `ready` when `poll` says so. The thread is started under `res > 0`; so
are the two calls of `fcntl` and the two of `setsockopt`, which the model makes in any case. -/
def turn (ready : Bool) : List (Op Var) :=
  renew ++ .uses .serv ::
    if ready then
      [.uses .serv, .opens .res, .uses .res, .uses .res, .uses .res, .uses .res, .spawns]
    else []

def runSub (polls : List Bool) : List (Op Var) :=
  [.requires .serv, .uses .serv, .uses .serv, .uses .serv, .uses .serv, .uses .serv] ++ renew ++
    mqInit ++ polls.flatMap turn

theorem check_reader (n : ℕ) : check (some .res) (given (some .res)) (reader n) = some ∅ := by
  rw [reader, check_append, check_append]
  have hfirst : check (some Var.res) (given (some .res)) (tcpNew ++ mqInit ++ attachConnectedSock) =
      some {.sock} := by decide
  rw [hfirst, Option.bind_some, filterLoop, check_uses (by decide), Option.bind_some]
  decide

theorem check_turn (ready : Bool) : check (some Var.res) {.serv} (turn ready) = some {.serv} := by
  cases ready <;> decide

theorem check_runSub (polls : List Bool) :
    check (some .res) ∅ (runSub polls) = some {Var.serv} := by
  rw [runSub, check_append]
  have hfirst : check (some Var.res) ∅ ([.requires .serv, .uses .serv, .uses .serv, .uses .serv,
      .uses .serv, .uses .serv] ++ renew ++ mqInit) = some {.serv} := by decide
  rw [hfirst, Option.bind_some, check_flatMap turn _ check_turn]

/-- In every state of a `wissbi-sub`, with any number of connections and whatever numbers the
kernel gives out: a thread only works on numbers that still stand for what the thread got them
for, no two threads work on the same number, and what was open before stays open. When all
readers have come to an end only the listening socket is left, and a zero that `accept`
returned. -/
theorem sub_descriptors (base : ℕ → Option ℕ) (fresh : ℕ)
    (hfresh : ∀ fd d, base fd = some d → d < fresh) (polls : List Bool)
    (acts : List (ℕ × Option ℕ × ℕ)) (s : State Var)
    (h : Runs.run (step (some .res) reader) (start base fresh (runSub polls)) acts = some s) :
    (∀ i v fd d, Next s i v fd d → s.table fd = some d) ∧
    (∀ i j v w fd d e, Next s i v fd d → Next s j w fd e → i = j) ∧
    (∀ fd d, base fd = some d → s.table fd = some d) ∧
    ((∀ t ∈ s.threads, t.code = []) → ∀ fd d, s.table fd = some d →
      base fd = some d ∨ fd = 0 ∨
        ∃ t, s.threads[0]? = some t ∧ t.vars .serv = some (fd, d)) := by
  obtain ⟨owned, hd⟩ := run_disciplined (fun i => if i = 0 then {Var.serv} else ∅)
    (fun k n hn => by rw [if_neg (Nat.ne_of_gt hn)]; exact check_reader k) hfresh
    (check_runSub polls) h
  refine ⟨fun i v fd d hn => hd.next_live hn, fun i j v w fd d e hi hj => hd.next_unique hi hj,
    fun fd d hb => (hd.kept fd d hb).1, fun hend fd d hopen => ?_⟩
  have hother : ∀ n > 0, (if n = 0 then {Var.serv} else ∅ : Finset Var) = ∅ := fun n hn =>
    if_neg (Nat.ne_of_gt hn)
  rcases hd.ended hother hend hopen with hb | h0 | ⟨t, v, ht, hv, hvar⟩
  · exact .inl hb
  · exact .inr (.inl h0.2)
  · obtain rfl : v = .serv := by simpa using hv
    exact .inr (.inr ⟨t, ht, hvar⟩)

def standard (fd : ℕ) : Option ℕ := if fd < 3 then some fd else none

theorem standard_lt (fd d : ℕ) (h : standard fd = some d) : d < 3 := by
  simp only [standard, Option.ite_none_right_eq_some, Option.some.injEq] at h
  omega

theorem code_of_replicate {s : State Var} {n : ℕ}
    (h : s.threads.map Thread.code = List.replicate n []) : ∀ t ∈ s.threads, t.code = [] := by
  intro t ht
  have hmem : t.code ∈ s.threads.map Thread.code := List.mem_map_of_mem ht
  rw [h] at hmem
  exact List.eq_of_mem_replicate hmem

def numberReused : List (ℕ × Option ℕ × ℕ) :=
  [(0, some 3, 0), (0, none, 0), (0, none, 0), (0, none, 0), (0, none, 0), (0, none, 0),
    (0, some 4, 0), (0, none, 0), (0, none, 0), (0, some 4, 0), (0, none, 0), (0, some 4, 0),
    (0, none, 0), (0, none, 0), (0, none, 0), (0, none, 0), (0, some 4, 0), (0, none, 0),
    (0, none, 0), (0, none, 0), (0, none, 0), (0, none, 1), (1, some 5, 0), (1, some 6, 0),
    (1, none, 0), (1, none, 0), (0, some 5, 0), (1, none, 0), (0, none, 0), (1, none, 0),
    (0, none, 0), (1, none, 0), (0, none, 0)]

theorem number_reused_closed :
    ∃ s, Runs.run (step (some .res) reader) (start standard 3 (runSub [true, false]))
        numberReused = some s ∧
      ∀ fd d, s.table fd = some d → standard fd = some d ∨ fd = 0 ∨
        ∃ t, s.threads[0]? = some t ∧ t.vars .serv = some (fd, d) := by
  obtain ⟨s, hs, hend⟩ : ∃ s, Runs.run (step (some .res) reader)
      (start standard 3 (runSub [true, false])) numberReused = some s ∧
      s.threads.map Thread.code = List.replicate 2 [] := ⟨_, rfl, rfl⟩
  have hall := sub_descriptors standard 3 standard_lt [true, false] numberReused s hs
  exact ⟨s, hs, hall.2.2.2 (code_of_replicate hend)⟩

end

section
inductive Outcome where
  | refused
  | connected (writes : ℕ)
  deriving DecidableEq, Repr

/-- The thread of a producer; `producerFilter` is destroyed on either path. -/
def producer : Outcome → List (Op Var)
  | .refused => tcpNew ++ connect ++ tcpDestroy
  | .connected n => tcpNew ++ connect ++ mqInit ++ filterLoop n ++ tcpDestroy

/-- One pass of `ConnectorLoop`: the calls of `readdir`, and for each entry without a producer
whether it needs a branch. A directory that cannot be opened is not closed. -/
structure Pass where
  readdirs : ℕ
  entries : List Bool
  deriving DecidableEq, Repr

def entryCalls (needsBranch : Bool) : List (Op Var) :=
  (if needsBranch then mqInit else []) ++ [.spawns]

def Pass.calls (p : Pass) : List (Op Var) :=
  [.opens .dirPtr] ++ List.replicate p.readdirs (.uses .dirPtr) ++ [.closes .dirPtr] ++
    p.entries.flatMap entryCalls

inductive PubThread where
  | connectorLoop (passes : List Pass)
  | producer (outcome : Outcome)
  deriving DecidableEq, Repr

def PubThread.calls : PubThread → List (Op Var)
  | .connectorLoop passes => passes.flatMap Pass.calls
  | .producer outcome => SocketOwners.producer outcome

def runPub : List (Op Var) := [.spawns, .spawns]

theorem check_producer (o : Outcome) : check none ∅ (producer o) = some ∅ := by
  cases o with
  | refused => decide
  | connected n =>
    rw [producer, check_append, check_append]
    have hfirst : check none ∅ (tcpNew ++ connect ++ mqInit) = some {Var.sock} := by decide
    rw [hfirst, Option.bind_some, filterLoop, check_uses (by decide), Option.bind_some]
    decide

theorem check_pass (p : Pass) : check none ∅ p.calls = some ∅ := by
  have hentries : check none ∅ (p.entries.flatMap entryCalls) = some ∅ :=
    check_flatMap entryCalls ∅ (fun b => by cases b <;> decide) _
  rw [Pass.calls, check_append, check_append, check_append]
  have hopen : check none ∅ [.opens .dirPtr] = some {Var.dirPtr} := by decide
  have hclose : check none {Var.dirPtr} [.closes .dirPtr] = some ∅ := by decide
  rw [hopen, Option.bind_some, check_uses (by decide), Option.bind_some, hclose, Option.bind_some,
    hentries]

theorem check_pubThread (t : PubThread) : check none ∅ t.calls = some ∅ := by
  cases t with
  | connectorLoop passes => exact check_flatMap Pass.calls ∅ check_pass passes
  | producer outcome => exact check_producer outcome

/-- The same of a `wissbi-pub`, with any number of passes of its two loops and of producers. When
all threads have come to an end nothing is open that was not open before. -/
theorem pub_descriptors (base : ℕ → Option ℕ) (fresh : ℕ)
    (hfresh : ∀ fd d, base fd = some d → d < fresh) (acts : List (ℕ × Option ℕ × PubThread))
    (s : State Var)
    (h : Runs.run (step none PubThread.calls) (start base fresh runPub) acts = some s) :
    (∀ i v fd d, Next s i v fd d → s.table fd = some d) ∧
    (∀ i j v w fd d e, Next s i v fd d → Next s j w fd e → i = j) ∧
    (∀ fd d, base fd = some d → s.table fd = some d) ∧
    ((∀ t ∈ s.threads, t.code = []) → s.table = base) := by
  obtain ⟨owned, hd⟩ := run_disciplined (fun _ => ∅)
    (fun k n _ => check_pubThread k) hfresh (by decide) h
  refine ⟨fun i v fd d hn => hd.next_live hn, fun i j v w fd d e hi hj => hd.next_unique hi hj,
    fun fd d hb => (hd.kept fd d hb).1, fun hend => funext fun fd => ?_⟩
  cases hopen : s.table fd with
  | none =>
    by_contra hb
    obtain ⟨d, hb⟩ := Option.ne_none_iff_exists'.mp (Ne.symm hb)
    rw [(hd.kept fd d hb).1] at hopen
    cases hopen
  | some d =>
    rcases hd.ended (fun _ _ => rfl) hend hopen with hb | h0 | ⟨t, v, ht, hv, hvar⟩
    · exact hb.symm
    · exact absurd rfl h0.1
    · simp at hv

def onePass : List (ℕ × Option ℕ × PubThread) :=
  [(0, none, .connectorLoop [⟨1, [true]⟩]), (0, none, .connectorLoop []),
    (1, some 3, .connectorLoop []), (1, none, .connectorLoop []), (1, none, .connectorLoop []),
    (1, some 3, .connectorLoop []), (1, none, .connectorLoop []),
    (1, none, .producer (.connected 1)), (3, some 3, .connectorLoop []),
    (3, none, .connectorLoop []), (3, some 4, .connectorLoop []), (3, none, .connectorLoop []),
    (3, none, .connectorLoop []), (3, none, .connectorLoop [])]

theorem one_pass_closed :
    ∃ s, Runs.run (step none PubThread.calls) (start standard 3 runPub) onePass = some s ∧
      s.table = standard := by
  obtain ⟨s, hs, hend⟩ : ∃ s, Runs.run (step none PubThread.calls) (start standard 3 runPub)
      onePass = some s ∧ s.threads.map Thread.code = List.replicate 4 [] := ⟨_, rfl, rfl⟩
  have hall := pub_descriptors standard 3 standard_lt onePass s hs
  exact ⟨s, hs, hall.2.2.2 (code_of_replicate hend)⟩

end

end Wissbi.SocketOwners
