import Wissbi.Buffers
import Wissbi.FiniteMaps

set_option autoImplicit false

namespace Wissbi.TeePolicy
open FiniteMaps

variable {Name β σ : Type}

/-- `branchMap` is the `unordered_map` in the order in which the loop of `Put` visits it, which can
be any. -/
structure Tee (Name β : Type) where
  branchMap : List (Name × β)
  lastTeeCount : ℕ
  lastFailedCount : ℕ

/-- The loop over the branches with its two counts; `branchPut` is the branches' `Put` of
the message. -/
def putLoop (branchPut : β → σ → Bool × σ) : List (Name × β) → ℕ → ℕ → σ → ℕ × ℕ × σ
  | [], tee, failed, w => (tee, failed, w)
  | kv :: rest, tee, failed, w =>
    let r := branchPut kv.2 w
    putLoop branchPut rest (tee + 1) (if r.1 then failed else failed + 1) r.2

def put (branchPut : β → σ → Bool × σ) (tee : Tee Name β) (w : σ) : Tee Name β × σ :=
  let r := putLoop branchPut tee.branchMap 0 0 w
  ({ tee with lastTeeCount := r.1, lastFailedCount := r.2.1 }, r.2.2)

section
variable [DecidableEq Name]

def addBranch (branchName : Name) (branch : β) (tee : Tee Name β) : Tee Name β :=
  { tee with branchMap := assign branchName branch tee.branchMap }

def removeBranch (branchName : Name) (tee : Tee Name β) : Tee Name β :=
  { tee with branchMap := discard branchName tee.branchMap }

def existsBranch (branchName : Name) (tee : Tee Name β) : Bool :=
  decide (branchName ∈ tee.branchMap.map Prod.fst)

end

def getBranchCount (tee : Tee Name β) : ℕ := tee.branchMap.length

theorem putLoop_stores {κ τ : Type} [DecidableEq κ] (one : κ → τ → Bool × τ)
    (branches : List (Name × κ)) (tee failed : ℕ) (w : κ → τ) (k : κ)
    (h : (branches.map Prod.snd).Nodup) :
    (putLoop (fun k w => ((one k (w k)).1, Function.update w k (one k (w k)).2))
        branches tee failed w).2.2 k =
      if k ∈ branches.map Prod.snd then (one k (w k)).2 else w k := by
  induction branches generalizing tee failed w with
  | nil => rfl
  | cons kv rest ih =>
    rw [List.map_cons, List.nodup_cons] at h
    rw [putLoop, ih _ _ _ h.2]
    by_cases hk : kv.2 = k
    · subst hk
      simp [h.1]
    · have hmem : k ∈ (kv :: rest).map Prod.snd ↔ k ∈ rest.map Prod.snd := by
        rw [List.map_cons, List.mem_cons]
        exact ⟨fun hm => hm.resolve_left (Ne.symm hk), .inr⟩
      simp only [hmem, Function.update_of_ne (Ne.symm hk)]

end Wissbi.TeePolicy
