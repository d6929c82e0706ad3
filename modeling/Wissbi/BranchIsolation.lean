import Wissbi.QueueTopics

set_option autoImplicit false

namespace Wissbi.BranchIsolation
open ConnectorInvariants ConnectorMachine ConnectorPass QueueKeys QueueTopics Runs SubEntries Util

inductive Owner where
  | data
  | metric
  deriving DecidableEq, Repr

abbrev Process := Owner → State Str Str

def HasBranch (p : Process) (b : Owner × Str) : Prop := ((p b.1).branchMap b.2).isSome

/-- No two branches have one kernel queue, and no producer takes from the queue of a
branch that is not its own. -/
structure Isolated (pid : ℕ) (p : Process) : Prop where
  keyFiles : ∀ b b', HasBranch p b → HasBranch p b' → keyFile pid b.2 = keyFile pid b'.2 → b = b'
  producers : ∀ o, ∀ t ∈ (p o).threads, ∀ b, HasBranch p b →
    keyFile pid t.dest = keyFile pid b.2 → b = (o, t.dest)

abbrev Entries := Owner → List (Str × Sub)

structure Reached (metaDir : Str) (entries : Entries) (p : Process) : Prop where
  schedule : ∀ o, ∃ acts, run step (start Str Str) acts = some (p o) ∧
    ∀ es, .list es ∈ acts → ∀ x ∈ es,
      x ∈ getSubList (some ((entries o).map fun e => e.2.entry metaDir e.1))

/-- No two destinations of one connector differ by a trailing slash only, and no destination
of one is, up to a trailing slash, a destination of the other. -/
def Separate (entries : Entries) : Prop :=
  ∀ o, ∀ e ∈ entries o, ∀ o', ∀ e' ∈ entries o',
    ¬ Slashed (e.2.dest e.1) (e'.2.dest e'.1) ∧ (e.2.dest e.1 = e'.2.dest e'.1 → o = o')

theorem branch_listed {metaDir : Str} {entries : Entries} {p : Process}
    (h : Reached metaDir entries p) {b : Owner × Str} (hb : HasBranch p b) :
    ∃ e ∈ entries b.1, e.2.dest e.1 = b.2 := by
  obtain ⟨acts, hrun, hlist⟩ := h.schedule b.1
  refine run_listed (fun d => ∃ e ∈ entries b.1, e.2.dest e.1 = d) hrun ?_ b.2 hb
  intro es hes x hx
  have hmem := hlist es hes x hx
  rw [getSubList_entries] at hmem
  obtain ⟨e, he, rfl⟩ := List.mem_map.mp hmem
  exact ⟨e, he, rfl⟩

theorem keyFiles_of_separate {metaDir : Str} {entries : Entries} {p : Process} (pid : ℕ)
    (hsep : Separate entries) (h : Reached metaDir entries p) {b b' : Owner × Str}
    (hb : HasBranch p b) (hb' : HasBranch p b') (hkey : keyFile pid b.2 = keyFile pid b'.2) :
    b = b' := by
  obtain ⟨e, he, hd⟩ := branch_listed h hb
  obtain ⟨e', he', hd'⟩ := branch_listed h hb'
  obtain ⟨hslash, hsame⟩ := hsep b.1 e he b'.1 e' he'
  rw [← hd, ← hd', keyFile_shared_iff _ _ _ (sharp_not_mem_dest _ _) (sharp_not_mem_dest _ _)]
    at hkey
  rcases hkey with hkey | hkey | hkey
  · exact Prod.ext (hsame hkey) (by rw [← hd, hkey, hd'])
  · exact absurd hkey hslash
  · exact absurd hkey (hsep b'.1 e' he' b.1 e he).1

theorem isolated_of_separate {metaDir : Str} {entries : Entries} {p : Process} (pid : ℕ)
    (hsep : Separate entries) (h : Reached metaDir entries p) : Isolated pid p := by
  refine ⟨fun b b' => keyFiles_of_separate pid hsep h, fun o t ht b hb hkey => ?_⟩
  obtain ⟨acts, hrun, -⟩ := h.schedule o
  have hown : HasBranch p (o, t.dest) := (run_tables hrun).threads t ht
  exact keyFiles_of_separate pid hsep h hb hown hkey.symm

theorem all_branches (metaDir : Str) (entries : Entries) :
    ∃ p, Reached metaDir entries p ∧
      ∀ o, ∀ e ∈ entries o, HasBranch p (o, e.2.dest e.1) := by
  have hpass (o : Owner) := pass_failing
    (getSubList (some ((entries o).map fun e => e.2.entry metaDir e.1)))
  choose acts p hrun hlist hbranch using hpass
  refine ⟨p, ⟨fun o => ⟨_, hrun o, fun es hes x hx => ?_⟩⟩, fun o e he => ?_⟩
  · rcases List.mem_cons.mp hes with hes | hes
    · exact Act.list.inj hes ▸ hx
    · exact absurd hes (hlist o es)
  · apply hbranch o (e.2.connStr, e.2.dest e.1)
    rw [getSubList_entries]
    exact List.mem_map_of_mem (f := fun e => (e.2.connStr, e.2.dest e.1)) he

theorem separate_of_isolated (metaDir : Str) (pid : ℕ) (entries : Entries)
    (h : ∀ p, Reached metaDir entries p → Isolated pid p) : Separate entries := by
  obtain ⟨p, hruns, hall⟩ := all_branches metaDir entries
  intro o e he o' e' he'
  have hkeys := (h p hruns).keyFiles (o, e.2.dest e.1) (o', e'.2.dest e'.1) (hall o e he)
    (hall o' e' he')
  constructor
  · intro hslash
    have heq := hkeys ((keyFile_shared_iff _ _ _ (sharp_not_mem_dest _ _)
      (sharp_not_mem_dest _ _)).mpr (.inr (.inl hslash)))
    have hl := congrArg (fun b => b.2.length) heq
    simp only [hslash.2, List.length_append, List.length_singleton] at hl
    omega
  · intro hsame
    exact congrArg Prod.fst (hkeys (by rw [hsame]))

/-- Over every run of the two connectors the branches are kept apart exactly when the
entries they may list have destinations of their own, trailing slashes aside. -/
theorem isolated_iff_separate (metaDir : Str) (pid : ℕ) (entries : Entries) :
    (∀ p, Reached metaDir entries p → Isolated pid p) ↔ Separate entries :=
  ⟨separate_of_isolated metaDir pid entries, fun hsep _ h => isolated_of_separate pid hsep h⟩

def oneSub : Sub := ⟨⟨afInet, htons 1, ⟨10, 0, 0, 1⟩⟩, false⟩
def otherSub : Sub := ⟨⟨afInet, htons 2, ⟨10, 0, 0, 1⟩⟩, false⟩

theorem shared_queues :
    (¬ ∀ p, Reached (ascii "/m") (fun
        | .data => [(ascii "foo", oneSub), (ascii "foo//", otherSub)]
        | .metric => []) p → Isolated 5 p) ∧
    ¬ ∀ p, Reached (ascii "/m") (fun _ => [(ascii "wissbi.metric", oneSub)]) p → Isolated 5 p := by
  constructor
  · intro h
    have hsep := separate_of_isolated _ _ _ h .data (ascii "foo", oneSub) (by simp) .data
      (ascii "foo//", otherSub) (by simp)
    exact hsep.1 (by unfold Slashed; decide)
  · intro h
    have hsep := separate_of_isolated _ _ _ h .data _ (List.mem_singleton.mpr rfl) .metric _
      (List.mem_singleton.mpr rfl)
    exact absurd (hsep.2 rfl) (by decide)

end Wissbi.BranchIsolation
