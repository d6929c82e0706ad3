import Wissbi.FileTree
import Wissbi.SubEntries

set_option autoImplicit false

namespace Wissbi.Registration
open FileTree SubEntries Util

def nameMax : ℕ := 255

/-- With the NUL at its end, a path has fewer bytes than this. -/
def pathMax : ℕ := 4096

abbrev Name := {s : Str // s.length ≤ nameMax}

def component (s : Str) : Option (Comp Name) :=
  if s = [dot] then some .self
  else if s = [dot, dot] then some .parent
  else if h : s.length ≤ nameMax then some (.name ⟨s, h⟩)
  else none

def components (path : Str) : Option (List (Comp Name)) :=
  if path.length < pathMax then ((path.splitOn slash).filter (· ≠ [])).mapM component else none

def base (cwd : ℕ) (path : Str) : ℕ := if path.head? = some slash then 0 else cwd

/-- Which calls succeed where the tree lets them: they may also fail for want of
permissions, space or descriptors. -/
structure Calls where
  mkdirOk : Bool
  openOk : Bool
  futimesOk : Bool

def mkdir (ok : Bool) (cwd : ℕ) (t : Files Name) (path : Str) : Option (Files Name) :=
  if ok then (components path).bind (t.mkdir (base cwd path)) else none

def openCreat (ok : Bool) (cwd : ℕ) (t : Files Name) (path : Str) : Option (Files Name) :=
  if ok then (components path).bind (t.openCreat (base cwd path)) else none

/-- `renew_`; an error is the text of the exception. The times that `futimes` sets are not
part of the tree. -/
def renew (calls : Calls) (cwd : ℕ) (metaDir queueName nodeName : Str) (t : Files Name) :
    Except Str Unit × Files Name :=
  -- the result of `mkdir` is not looked at
  let t := (mkdir calls.mkdirOk cwd t (subDirPath metaDir queueName)).getD t
  match openCreat calls.openOk cwd t nodeName with
  | none => (.error (ascii "Cannot create subscriber entry at " ++ nodeName), t)
  | some t =>
    if calls.futimesOk then (.ok (), t)
    else (.error (ascii "Cannot update subscriber entry at " ++ nodeName), t)

def subEntry (calls : Calls) (cwd : ℕ) (metaDir queueName addrStr : Str) (topicMode : Bool)
    (t : Files Name) : Except Str Unit × Files Name :=
  renew calls cwd metaDir queueName (nodeName metaDir queueName addrStr topicMode) t

def exists? (cwd : ℕ) (dir name : Str) (t : Files Name) : Bool :=
  match components dir, component name with
  | some cs, some c => (t.dirAt (base cwd dir) cs).any fun e => (t.lookup e c).isSome
  | _, _ => false

def Throws (r : Except Str Unit × Files Name) : Prop := r.1 ≠ .ok ()

/-- A constructor that throws leaves the tree as it was, and one that does not has made the
entry in the queue's directory. -/
def NoTrace (calls : Calls) (cwd : ℕ) (metaDir queueName addrStr : Str) (topicMode : Bool)
    (t : Files Name) : Prop :=
  let r := subEntry calls cwd metaDir queueName addrStr topicMode t
  (Throws r → r.2 = t) ∧
  (¬ Throws r → exists? cwd (subDirPath metaDir queueName)
    (entryName queueName addrStr topicMode) r.2 = true)

/-- A directory that is made is made for an entry that can be made and updated, and an entry
that is made where the directory was there can be updated. -/
def Completes (calls : Calls) (cwd : ℕ) (metaDir queueName addrStr : Str) (topicMode : Bool)
    (t : Files Name) : Prop :=
  let node := nodeName metaDir queueName addrStr topicMode
  ((mkdir calls.mkdirOk cwd t (subDirPath metaDir queueName)).isSome →
    (entryName queueName addrStr topicMode).length ≤ nameMax ∧ node.length < pathMax ∧
      calls.openOk = true ∧ calls.futimesOk = true) ∧
  ((∃ u, openCreat calls.openOk cwd t node = some u ∧ u ≠ t) → calls.futimesOk = true)

theorem component_entryName (queueName addrStr : Str) (topicMode : Bool) :
    component (entryName queueName addrStr topicMode) =
      if h : (entryName queueName addrStr topicMode).length ≤ nameMax
      then some (.name ⟨_, h⟩) else none := by
  have hmem : comma ∈ entryName queueName addrStr topicMode := by simp [entryName]
  have hne (s : Str) (hs : comma ∉ s) : entryName queueName addrStr topicMode ≠ s :=
    fun he => hs (he ▸ hmem)
  simp only [component, hne [dot] (by decide), hne [dot, dot] (by decide), ↓reduceIte]

theorem components_concat {dir name : Str} {cs : List (Comp Name)} (hslash : slash ∉ name)
    (hne : name ≠ []) :
    components (dir ++ slash :: name) = some cs ↔
      (dir ++ slash :: name).length < pathMax ∧
      ∃ ps c, components dir = some ps ∧ component name = some c ∧ cs = ps ++ [c] := by
  have hsplit : ((dir ++ slash :: name).splitOn slash).filter (· ≠ []) =
      (dir.splitOn slash).filter (· ≠ []) ++ [name] := by
    rw [List.splitOn_append_cons_self, List.splitOn_eq_singleton hslash]
    simp [hne]
  unfold components
  rw [hsplit, List.mapM_append]
  by_cases hlen : (dir ++ slash :: name).length < pathMax
  · have hdir : dir.length < pathMax := by
      simp only [List.length_append, List.length_cons] at hlen
      omega
    simp only [hlen, hdir, ↓reduceIte, true_and]
    cases ((dir.splitOn slash).filter (· ≠ [])).mapM component with
    | none => simp
    | some ps =>
      cases hc : component name with
      | none => simp [hc]
      | some c => simp [hc, eq_comm]
  · simp only [hlen, ↓reduceIte, reduceCtorEq, false_and]

section Node
variable {cwd : ℕ} {metaDir queueName addrStr : Str} {topicMode ok : Bool} {t u : Files Name}

theorem base_nodeName :
    base cwd (nodeName metaDir queueName addrStr topicMode) =
      base cwd (subDirPath metaDir queueName) := by
  have hne : subDirPath metaDir queueName ≠ [] := by simp [subDirPath, ascii]
  obtain ⟨c, path, hdir⟩ := List.exists_cons_of_ne_nil hne
  rw [nodeName_eq, hdir]
  rfl

theorem components_nodeName (haddr : slash ∉ addrStr) {cs : List (Comp Name)} :
    components (nodeName metaDir queueName addrStr topicMode) = some cs ↔
      (nodeName metaDir queueName addrStr topicMode).length < pathMax ∧
      ∃ ps, ∃ h : (entryName queueName addrStr topicMode).length ≤ nameMax,
        components (subDirPath metaDir queueName) = some ps ∧ cs = ps ++ [.name ⟨_, h⟩] := by
  have hne : entryName queueName addrStr topicMode ≠ [] := by simp [entryName]
  rw [nodeName_eq, components_concat (slash_not_mem_entryName _ _ _ haddr) hne,
    component_entryName]
  refine and_congr_right fun _ => ?_
  constructor
  · rintro ⟨ps, c, hps, hc, rfl⟩
    split_ifs at hc with h
    cases hc
    exact ⟨ps, h, hps, rfl⟩
  · rintro ⟨ps, h, hps, rfl⟩
    exact ⟨ps, _, hps, dif_pos h, rfl⟩

theorem mkdir_eq_some_iff {path : Str} :
    mkdir ok cwd t path = some u ↔
      ok = true ∧ ∃ cs, components path = some cs ∧ t.mkdir (base cwd path) cs = some u := by
  cases ok <;> simp [mkdir, Option.bind_eq_some_iff]

theorem openCreat_eq_some_iff {path : Str} :
    openCreat ok cwd t path = some u ↔
      ok = true ∧ ∃ cs, components path = some cs ∧ t.openCreat (base cwd path) cs = some u := by
  cases ok <;> simp [openCreat, Option.bind_eq_some_iff]

theorem mkdir_length {path : Str} (h : mkdir ok cwd t path = some u) :
    t.nodes.length < u.nodes.length := by
  obtain ⟨-, cs, -, hmk⟩ := mkdir_eq_some_iff.mp h
  obtain ⟨ps, n, e, -, -, -, hadd⟩ := mkdir_eq_some hmk
  rw [add_length hadd]
  exact Nat.lt_succ_self _

theorem openCreat_length_le {path : Str} (h : openCreat ok cwd t path = some u) :
    t.nodes.length ≤ u.nodes.length := by
  obtain ⟨-, cs, -, hopen⟩ := openCreat_eq_some_iff.mp h
  exact openCreat_length hopen

theorem open_after_mkdir (haddr : slash ∉ addrStr)
    (h : mkdir ok cwd t (subDirPath metaDir queueName) = some u) (topicMode ok' : Bool) :
    (openCreat ok' cwd u (nodeName metaDir queueName addrStr topicMode)).isSome ↔
      (entryName queueName addrStr topicMode).length ≤ nameMax ∧
      (nodeName metaDir queueName addrStr topicMode).length < pathMax ∧ ok' = true := by
  obtain ⟨-, cs, hcs, hmk⟩ := mkdir_eq_some_iff.mp h
  constructor
  · intro hopen
    obtain ⟨v, hv⟩ := Option.isSome_iff_exists.mp hopen
    obtain ⟨hok, cs', hcs', -⟩ := openCreat_eq_some_iff.mp hv
    obtain ⟨hpath, ps, hname, -⟩ := (components_nodeName haddr).mp hcs'
    exact ⟨hname, hpath, hok⟩
  · rintro ⟨hname, hpath, hok⟩
    obtain ⟨v, hv⟩ := Option.isSome_iff_exists.mp (openCreat_after_mkdir hmk ⟨_, hname⟩)
    have hpath := (components_nodeName haddr).mpr ⟨hpath, cs, hname, hcs, rfl⟩
    rw [← base_nodeName] at hv
    exact Option.isSome_iff_exists.mpr ⟨v, openCreat_eq_some_iff.mpr ⟨hok, _, hpath, hv⟩⟩

theorem exists_after_open (haddr : slash ∉ addrStr)
    (h : openCreat ok cwd t (nodeName metaDir queueName addrStr topicMode) = some u) :
    exists? cwd (subDirPath metaDir queueName) (entryName queueName addrStr topicMode) u = true := by
  obtain ⟨-, cs', hcs', hopen⟩ := openCreat_eq_some_iff.mp h
  obtain ⟨-, ps, hname, hps, rfl⟩ := (components_nodeName haddr).mp hcs'
  rw [base_nodeName] at hopen
  obtain ⟨e, hdir, hentry⟩ := openCreat_entry hopen
  simp [exists?, hps, component_entryName, hname, hdir, hentry]

end Node

theorem noTrace_iff_unchanged (calls : Calls) (cwd : ℕ) (metaDir queueName : Str) {addrStr : Str}
    (topicMode : Bool) (t : Files Name) (haddr : slash ∉ addrStr) :
    NoTrace calls cwd metaDir queueName addrStr topicMode t ↔
      let u := (mkdir calls.mkdirOk cwd t (subDirPath metaDir queueName)).getD t
      match openCreat calls.openOk cwd u (nodeName metaDir queueName addrStr topicMode) with
      | none => u = t
      | some v => calls.futimesOk = true ∨ v = t := by
  unfold NoTrace subEntry renew
  simp only
  cases hopen : openCreat calls.openOk cwd
      ((mkdir calls.mkdirOk cwd t (subDirPath metaDir queueName)).getD t)
      (nodeName metaDir queueName addrStr topicMode) with
  | none => simp [Throws]
  | some v =>
    have hv := exists_after_open haddr hopen
    cases calls.futimesOk with
    | false => simp [Throws]
    | true => simp [Throws, hv]

/-- A registration leaves no trace when it fails, and an entry when it does not, exactly
when no call is made in vain. -/
theorem no_trace_iff (calls : Calls) (cwd : ℕ) (metaDir queueName : Str) (addr : SockaddrIn)
    (topicMode : Bool) (t : Files Name) :
    NoTrace calls cwd metaDir queueName (sockaddrToConnectString addr) topicMode t ↔
      Completes calls cwd metaDir queueName (sockaddrToConnectString addr) topicMode t := by
  obtain ⟨-, -, haddr⟩ := connectString_clean addr
  rw [noTrace_iff_unchanged calls cwd metaDir queueName topicMode t haddr]
  unfold Completes
  cases hmk : mkdir calls.mkdirOk cwd t (subDirPath metaDir queueName) with
  | some u =>
    -- the tree has changed, so the constructor must not throw
    have hlt := mkdir_length hmk
    have hiff := open_after_mkdir haddr hmk topicMode calls.openOk
    simp only [Option.getD_some]
    constructor
    · intro h
      cases hopen : openCreat calls.openOk cwd u
          (nodeName metaDir queueName (sockaddrToConnectString addr) topicMode) with
      | none =>
        rw [hopen] at h
        exact absurd (congrArg (fun x => x.nodes.length) h) hlt.ne'
      | some v =>
        rw [hopen] at h hiff
        have hle := openCreat_length_le hopen
        have hf : calls.futimesOk = true := by
          apply h.resolve_right
          rintro rfl
          exact absurd hle (not_le.mpr hlt)
        obtain ⟨hname, hpath, hok⟩ := hiff.mp rfl
        exact ⟨fun _ => ⟨hname, hpath, hok, hf⟩, fun _ => hf⟩
    · rintro ⟨h, -⟩
      obtain ⟨hname, hpath, hok, hf⟩ := h rfl
      obtain ⟨v, hv⟩ := Option.isSome_iff_exists.mp (hiff.mpr ⟨hname, hpath, hok⟩)
      rw [hv]
      exact .inl hf
  | none =>
    simp only [Option.getD_none]
    constructor
    · intro h
      refine ⟨fun hc => absurd hc (by simp), ?_⟩
      rintro ⟨v, hv, hne⟩
      rw [hv] at h
      exact h.resolve_right hne
    · rintro ⟨-, h⟩
      cases hopen : openCreat calls.openOk cwd t
          (nodeName metaDir queueName (sockaddrToConnectString addr) topicMode) with
      | none => trivial
      | some v =>
        by_cases hv : v = t
        · exact .inr hv
        · exact .inl (h ⟨v, hopen, hv⟩)

def outer : Str := List.replicate 120 97
def inner : Str := List.replicate 130 98

def longQueue : Files Name :=
  ⟨[.dir 0 [(⟨ascii "m", by decide⟩, 1)], .dir 0 [(⟨ascii "sub", by decide⟩, 2)],
    .dir 1 [(⟨outer, by decide⟩, 3)], .dir 2 []]⟩

def host : SockaddrIn := ⟨afInet, htons 1, ⟨10, 0, 0, 1⟩⟩

theorem long_entry_leaves_directory :
    let r := subEntry ⟨true, true, true⟩ 0 (ascii "/m") (outer ++ slash :: inner)
      (sockaddrToConnectString host) false longQueue
    r.1 = .error (ascii "Cannot create subscriber entry at " ++
      nodeName (ascii "/m") (outer ++ slash :: inner) (sockaddrToConnectString host) false) ∧
    exists? 0 (subDirPath (ascii "/m") outer) inner longQueue = false ∧
    exists? 0 (subDirPath (ascii "/m") outer) inner r.2 = true ∧
    ¬ NoTrace ⟨true, true, true⟩ 0 (ascii "/m") (outer ++ slash :: inner)
      (sockaddrToConnectString host) false longQueue := by
  intro r
  have herror : r.1 = .error (ascii "Cannot create subscriber entry at " ++
      nodeName (ascii "/m") (outer ++ slash :: inner) (sockaddrToConnectString host) false) := by
    decide +kernel
  have hbefore : exists? 0 (subDirPath (ascii "/m") outer) inner longQueue = false := by
    decide +kernel
  have hafter : exists? 0 (subDirPath (ascii "/m") outer) inner r.2 = true := by decide +kernel
  refine ⟨herror, hbefore, hafter, fun h => ?_⟩
  have hsame : r.2 = longQueue := h.1 (by rw [Throws, herror]; simp)
  rw [hsame, hbefore] at hafter
  cases hafter

end Wissbi.Registration
