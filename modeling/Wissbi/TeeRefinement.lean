import Wissbi.Runs
import Wissbi.TeePolicy

set_option autoImplicit false

namespace Wissbi.TeeRefinement
open Buffers FiniteMaps Runs TeePolicy

section
variable {Name β σ : Type}

structure Call (β : Type) where
  branch : β
  msg : MsgBuf
  ok : Bool

structure State (Name β σ : Type) where
  tee : Tee Name β
  world : σ
  log : List (Call β)

/-- `rehash` is what the `unordered_map` may do to the order of its entries at any time. -/
inductive Act (Name β : Type) where
  | addBranch (branchName : Name) (branch : β)
  | removeBranch (branchName : Name)
  | rehash (order : List (Name × β))
  | put (msg : MsgBuf)

def logged (branchPut : β → MsgBuf → σ → Bool × σ) (msg : MsgBuf) (b : β)
    (w : σ × List (Call β)) : Bool × (σ × List (Call β)) :=
  let r := branchPut b msg w.1
  (r.1, r.2, w.2 ++ [⟨b, msg, r.1⟩])

variable [DecidableEq Name] [DecidableEq β]

def step (branchPut : β → MsgBuf → σ → Bool × σ) (s : State Name β σ) :
    Act Name β → Option (State Name β σ)
  | .addBranch n b => some { s with tee := addBranch n b s.tee }
  | .removeBranch n => some { s with tee := removeBranch n s.tee }
  | .rehash order =>
    if order.isPerm s.tee.branchMap then some { s with tee := { s.tee with branchMap := order } }
    else none
  | .put msg =>
    let r := TeePolicy.put (logged branchPut msg) s.tee (s.world, s.log)
    some ⟨r.1, r.2.1, r.2.2⟩

/-- The constructor does not set the two counts. -/
def start (lastTeeCount lastFailedCount : ℕ) (w : σ) : State Name β σ :=
  ⟨⟨[], lastTeeCount, lastFailedCount⟩, w, []⟩

/-- What the operations mean for the map. -/
def spec (m : Name → Option β) : Act Name β → Name → Option β
  | .addBranch n b => Function.update m n (some b)
  | .removeBranch n => Function.update m n none
  | .rehash _ => m
  | .put _ => m

def branches (acts : List (Act Name β)) : Name → Option β := acts.foldl spec fun _ => none

omit [DecidableEq Name] [DecidableEq β] in
theorem putLoop_logged (branchPut : β → MsgBuf → σ → Bool × σ) (msg : MsgBuf)
    (entries : List (Name × β)) (tee failed : ℕ) (w : σ × List (Call β)) :
    ∃ calls, (putLoop (logged branchPut msg) entries tee failed w).2.2.2 = w.2 ++ calls ∧
      calls.map Call.branch = entries.map Prod.snd ∧ (∀ c ∈ calls, c.msg = msg) ∧
      (putLoop (logged branchPut msg) entries tee failed w).1 = tee + calls.length ∧
      (putLoop (logged branchPut msg) entries tee failed w).2.1 =
        failed + calls.countP fun c => !c.ok := by
  induction entries generalizing tee failed w with
  | nil => exact ⟨[], by simp [putLoop]⟩
  | cons e entries ih =>
    obtain ⟨calls, h₁, h₂, h₃, h₄, h₅⟩ := ih (tee + 1)
      (if (branchPut e.2 msg w.1).1 then failed else failed + 1)
      ((branchPut e.2 msg w.1).2, w.2 ++ [⟨e.2, msg, (branchPut e.2 msg w.1).1⟩])
    refine ⟨⟨e.2, msg, (branchPut e.2 msg w.1).1⟩ :: calls, ?_, ?_, ?_, ?_, ?_⟩
    · rw [putLoop]
      apply h₁.trans
      simp
    · rw [List.map_cons, List.map_cons, h₂]
    · exact List.forall_mem_cons.mpr ⟨rfl, h₃⟩
    · rw [putLoop]
      apply h₄.trans
      rw [List.length_cons]
      omega
    · rw [putLoop]
      apply h₅.trans
      rw [List.countP_cons]
      cases (branchPut e.2 msg w.1).1
      · simp only [Bool.not_false, ↓reduceIte, Bool.false_eq_true]
        omega
      · simp

theorem step_lists {branchPut : β → MsgBuf → σ → Bool × σ} {s t : State Name β σ}
    {a : Act Name β} {m : Name → Option β} (h : step branchPut s a = some t)
    (hs : Lists s.tee.branchMap m) : Lists t.tee.branchMap (spec m a) := by
  cases a with
  | addBranch n b =>
    cases h
    exact hs.assign n b
  | removeBranch n =>
    cases h
    exact hs.discard n
  | rehash order =>
    simp only [step] at h
    split at h
    next hp =>
      cases h
      exact hs.perm (List.isPerm_iff.mp hp)
    next => cases h
  | put msg =>
    cases h
    exact hs

theorem run_lists {branchPut : β → MsgBuf → σ → Bool × σ} {tee failed : ℕ} {w : σ}
    {acts : List (Act Name β)} {s : State Name β σ}
    (h : run (step branchPut) (start tee failed w) acts = some s) :
    Lists s.tee.branchMap (branches acts) := by
  refine run_history (fun acts s => Lists s.tee.branchMap (branches acts)) h ?_ ?_
  · exact ⟨List.nodup_nil, by simp [start, branches]⟩
  · intro acts s a t _ hs hstep
    rw [branches, List.foldl_append]
    exact step_lists hstep hs

def PutsOnce (m : Name → Option β) (msg : MsgBuf) (s t : State Name β σ) : Prop :=
  ∃ entries calls, Lists entries m ∧ t.log = s.log ++ calls ∧
    calls.map Call.branch = entries.map Prod.snd ∧ (∀ c ∈ calls, c.msg = msg) ∧
    t.tee.lastTeeCount = {n | (m n).isSome = true}.ncard ∧
    t.tee.lastFailedCount = (calls.countP fun c => !c.ok) ∧
    t.tee.lastTeeCount - t.tee.lastFailedCount = calls.countP Call.ok

theorem put_once {branchPut : β → MsgBuf → σ → Bool × σ} {s t : State Name β σ} {msg : MsgBuf}
    {m : Name → Option β} (hs : Lists s.tee.branchMap m)
    (h : step branchPut s (.put msg) = some t) : PutsOnce m msg s t := by
  obtain ⟨calls, h₁, h₂, h₃, h₄, h₅⟩ :=
    putLoop_logged branchPut msg s.tee.branchMap 0 0 (s.world, s.log)
  cases h
  have hlen : calls.length = s.tee.branchMap.length := by
    rw [← List.length_map (f := Call.branch), h₂, List.length_map]
  have htee := h₄
  rw [Nat.zero_add] at htee h₅
  have hsum : calls.length = calls.countP Call.ok + calls.countP fun c => !c.ok := by
    simpa using List.length_eq_countP_add_countP Call.ok (l := calls)
  refine ⟨s.tee.branchMap, calls, hs, h₁, h₂, h₃, ?_, h₅, ?_⟩
  · rw [← hs.length_eq, ← hlen]
    exact htee
  · change (putLoop _ _ 0 0 _).1 - (putLoop _ _ 0 0 _).2.1 = _
    rw [htee, h₅]
    omega

/-- After any sequence of operations the table is the map that they make, and the next `Put`
calls each of its branches once and counts what they answer. -/
theorem tee_refines_map (branchPut : β → MsgBuf → σ → Bool × σ) (tee failed : ℕ) (w : σ)
    (acts : List (Act Name β)) (s : State Name β σ)
    (h : run (step branchPut) (start tee failed w) acts = some s) :
    (∀ n, existsBranch n s.tee = (branches acts n).isSome) ∧
    getBranchCount s.tee = {n | (branches acts n).isSome = true}.ncard ∧
    ∀ msg t, step branchPut s (.put msg) = some t → PutsOnce (branches acts) msg s t := by
  have hs := run_lists h
  refine ⟨fun n => ?_, hs.length_eq, fun msg t ht => put_once hs ht⟩
  rw [existsBranch, Bool.eq_iff_iff, decide_eq_true_eq]
  exact hs.mem_keys n

end

def replacedAndRemoved : List (Act ℕ ℕ) :=
  [.addBranch 1 10, .addBranch 2 20, .addBranch 1 11, .addBranch 3 30, .removeBranch 2,
    .rehash [(1, 11), (3, 30)]]

theorem replaced_branch_unused :
    ∃ s t, run (step fun b _ (w : Unit) => (b != 30, w)) (start 7 7 ()) replacedAndRemoved = some s ∧
      step (fun b _ (w : Unit) => (b != 30, w)) s (.put ⟨0, fun _ => 97, 1⟩) = some t ∧
      t.log.map Call.branch = [11, 30] ∧ t.tee.lastTeeCount = 2 ∧ t.tee.lastFailedCount = 1 ∧
      PutsOnce (branches replacedAndRemoved) ⟨0, fun _ => 97, 1⟩ s t := by
  refine ⟨_, _, rfl, rfl, rfl, rfl, rfl, ?_⟩
  exact (tee_refines_map _ 7 7 () replacedAndRemoved _ rfl).2.2 _ _ rfl

end Wissbi.TeeRefinement
