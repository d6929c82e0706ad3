import Wissbi.FiniteMaps
import Wissbi.Runs
import Wissbi.Util

set_option autoImplicit false

namespace Wissbi.FlowDump
open FiniteMaps Runs Util

variable {Name : Type}

/-- The target of a link is what `realpath` makes of it; it is below `base_dir`, but there need be
nothing. -/
inductive Kind (Name : Type) where
  | file
  | dir
  | link (target : List Name)
  deriving DecidableEq, Repr

/-- Paths are below `base_dir`; the order of the entries is that of the walk. `owner` has the names
of user and group of what a path leads to. -/
structure QueueTree (Name : Type) where
  entries : List (List Name × Kind Name)
  owner : List Name → Str × Str
  paths : (entries.map Prod.fst).Nodup
  root : ([], .dir) ∈ entries
  parents : ∀ p n k, (p ++ [n], k) ∈ entries → (p, .dir) ∈ entries

/-- A cluster has the last components of its paths, or none for `base_dir` itself. -/
structure Dump (Name : Type) where
  clusters : List (List Name × List (Option Name × Str × Str))
  links : List (List Name × List Name)

variable [DecidableEq Name]

/-- `os.stat` follows a link, and raises when that leads nowhere. -/
def QueueTree.stat (t : QueueTree Name) (path : List Name) : Option (Str × Str) :=
  match t.entries.lookup path with
  | some (.link target) =>
    match t.entries.lookup target with
    | some .file => some (t.owner path)
    | some .dir => some (t.owner path)
    | _ => none
  | some _ => some (t.owner path)
  | none => none

def addToCluster (t : QueueTree Name) (path : List Name)
    (clusters : List (List Name × List (Option Name × Str × Str))) :
    Option (List (List Name × List (Option Name × Str × Str))) :=
  (t.stat path).map fun owner =>
    let head := path.dropLast
    assign head ((clusters.lookup head).getD [] ++ [(path.getLast?, owner)]) clusters

def QueueTree.names (t : QueueTree Name) (dirname : List Name) : List (List Name × Kind Name) :=
  t.entries.filter fun e => e.1 ≠ [] ∧ e.1.dropLast = dirname

def visitChild (t : QueueTree Name) (d : Dump Name) (child : List Name × Kind Name) :
    Option (Dump Name) :=
  match child.2 with
  | .link target =>
    (addToCluster t child.1 d.clusters).map fun clusters =>
      ⟨clusters, d.links ++ [(child.1, target)]⟩
  | _ => some d

def isFinal (names : List (List Name × Kind Name)) : Bool :=
  names.isEmpty || names.any fun child => child.2 = .file

def visit (t : QueueTree Name) (d : Dump Name) (dirname : List Name) : Option (Dump Name) :=
  let names := t.names dirname
  (run (visitChild t) d names).bind fun d =>
    if isFinal names then
      (addToCluster t dirname d.clusters).map fun clusters => { d with clusters := clusters }
    else some d

def QueueTree.dirs (t : QueueTree Name) : List (List Name) :=
  (t.entries.filter fun e => e.2 = .dir).map Prod.fst

/-- The script is printed after the walk, so there is none when the walk raises. -/
def walk (t : QueueTree Name) : Option (Dump Name) := run (visit t) ⟨[], []⟩ t.dirs

inductive Place (Name : Type) where
  | here (p : List Name)
  | root (p : List Name)
  deriving DecidableEq, Repr

inductive Cmd (Name : Type) where
  | mkdirP (p : List Name)
  | chown (owner group : Str) (p : List Name)
  | rmdir (p : Place Name)
  | ln (target p : List Name)
  deriving DecidableEq, Repr

def clusterCmds (c : List Name × List (Option Name × Str × Str)) : List (Cmd Name) :=
  c.2.flatMap fun d =>
    .mkdirP (c.1 ++ d.1.toList) ::
      if d.2.1.length ≠ 0 then [.chown d.2.1 d.2.2 (c.1 ++ d.1.toList)] else []

/-- `os.path.split` has no head for a link in `base_dir` itself, and `"%s/%s"` then starts with
the slash. -/
def linkCmds (l : List Name × List Name) : List (Cmd Name) :=
  [.rmdir (if l.1.dropLast = [] then .root l.1 else .here l.1), .ln l.2 l.1]

def script (d : Dump Name) : List (Cmd Name) :=
  d.clusters.flatMap clusterCmds ++ d.links.flatMap linkCmds

/-- One directory of `mkdir -p`. Where a link would be followed, or a file is in the way, the model
has no answer. -/
def makeDir (s : List (List Name × Kind Name)) (p : List Name) :
    Option (List (List Name × Kind Name)) :=
  match s.lookup p with
  | none => some ((p, .dir) :: s)
  | some .dir => some s
  | some _ => none

def throughLink (s : List (List Name × Kind Name)) (p : List Name) : Bool :=
  p.inits.any fun q =>
    match s.lookup q with
    | some (.link _) => q ≠ p
    | _ => false

/-- `-f` takes away what is in the way, but no directory. -/
def linkAt (s : List (List Name × Kind Name)) (target p : List Name) :
    List (List Name × Kind Name) :=
  match s.lookup p with
  | some .dir => s
  | _ => (p, .link target) :: s.filter fun e => e.1 ≠ p

/-- A command that fails changes nothing, and the script goes on. -/
def exec (s : List (List Name × Kind Name)) : Cmd Name → Option (List (List Name × Kind Name))
  | .mkdirP p => run makeDir s p.inits
  | .chown _ _ _ => some s
  | .rmdir (.root _) => some s
  | .rmdir (.here p) =>
    if throughLink s p then none
    else if s.lookup p = some .dir ∧ ¬ s.any fun e => p.isPrefixOf e.1 && e.1 ≠ p then
      some (s.filter fun e => e.1 ≠ p)
    else some s
  | .ln target p =>
    if throughLink s p then none
    else
      match s.lookup p with
      | none => if s.lookup p.dropLast = some .dir then some (linkAt s target p) else some s
      | some .file => some (linkAt s target p)
      | some .dir =>
        -- in a directory the link gets the last component of its target
        some (target.getLast?.elim s fun n => linkAt s target (p ++ [n]))
      | some (.link _) => none

/-- The same directories and links, each link to the same place; the subscribers' entries are
not part of the dump. -/
def Recreates (t : QueueTree Name) (s : List (List Name × Kind Name)) : Prop :=
  ∀ p, s.lookup p =
    match t.entries.lookup p with
    | some .file => none
    | k => k

def made (clusters : List (List Name × List (Option Name × Str × Str))) : List (List Name) :=
  clusters.flatMap fun c => c.2.map fun d => c.1 ++ d.1.toList

omit [DecidableEq Name] in
theorem dropLast_getLast (path : List Name) : path.dropLast ++ path.getLast?.toList = path := by
  cases h : path.getLast? with
  | none => simp [List.getLast?_eq_none_iff.mp h]
  | some n =>
    obtain ⟨init, rfl⟩ := List.getLast?_eq_some_iff.mp h
    simp

theorem mem_made {clusters : List (List Name × List (Option Name × Str × Str))}
    (h : (clusters.map Prod.fst).Nodup) (p : List Name) :
    p ∈ made clusters ↔ ∃ head, ∃ d ∈ (clusters.lookup head).getD [], p = head ++ d.1.toList := by
  simp only [made, List.mem_flatMap, List.mem_map]
  constructor
  · rintro ⟨⟨head, tups⟩, hc, d, hd, rfl⟩
    refine ⟨head, d, ?_, rfl⟩
    rw [(lookup_iff_mem h head tups).mpr hc]
    exact hd
  · rintro ⟨head, d, hd, rfl⟩
    cases hl : clusters.lookup head with
    | none => simp [hl] at hd
    | some tups =>
      rw [hl] at hd
      exact ⟨(head, tups), (lookup_iff_mem h head tups).mp hl, d, hd, rfl⟩

theorem addToCluster_made (t : QueueTree Name) (path : List Name)
    {clusters clusters' : List (List Name × List (Option Name × Str × Str))}
    (ha : addToCluster t path clusters = some clusters') (h : (clusters.map Prod.fst).Nodup) :
    (clusters'.map Prod.fst).Nodup ∧
      ∀ p, p ∈ made clusters' ↔ p ∈ made clusters ∨ p = path := by
  obtain ⟨owner, -, rfl⟩ := Option.map_eq_some_iff.mp ha
  have hassign := lookup_assign h path.dropLast
    ((clusters.lookup path.dropLast).getD [] ++ [(path.getLast?, owner)])
  have hkeys := (hassign []).1
  refine ⟨hkeys, fun p => ?_⟩
  rw [mem_made hkeys, mem_made h]
  constructor
  · rintro ⟨head, d, hd, rfl⟩
    rw [(hassign head).2] at hd
    split_ifs at hd with he
    · subst he
      rcases List.mem_append.mp hd with hd | hd
      · exact .inl ⟨_, d, hd, rfl⟩
      · rw [List.mem_singleton.mp hd]
        exact .inr (dropLast_getLast path)
    · exact .inl ⟨head, d, hd, rfl⟩
  · rintro (⟨head, d, hd, rfl⟩ | rfl)
    · refine ⟨head, d, ?_, rfl⟩
      rw [(hassign head).2]
      split_ifs with he
      · subst he
        exact List.mem_append_left _ hd
      · exact hd
    · refine ⟨p.dropLast, (p.getLast?, owner), ?_, (dropLast_getLast p).symm⟩
      rw [(hassign _).2, if_pos rfl]
      exact List.mem_append_right _ (List.mem_singleton_self _)

def linkOf (e : List Name × Kind Name) : Option (List Name × List Name) :=
  match e.2 with
  | .link target => some (e.1, target)
  | _ => none

omit [DecidableEq Name] in
theorem linkOf_some {e : List Name × Kind Name} {p q : List Name} :
    linkOf e = some (p, q) ↔ e = (p, .link q) := by
  obtain ⟨path, kind⟩ := e
  cases kind <;> simp [linkOf]

theorem children_made (t : QueueTree Name) (names : List (List Name × Kind Name))
    {d d' : Dump Name} (hrun : run (visitChild t) d names = some d')
    (h : (d.clusters.map Prod.fst).Nodup) :
    (d'.clusters.map Prod.fst).Nodup ∧ d'.links = d.links ++ names.filterMap linkOf ∧
      ∀ p, p ∈ made d'.clusters ↔ p ∈ made d.clusters ∨ ∃ q, (p, .link q) ∈ names := by
  induction names generalizing d with
  | nil =>
    cases hrun
    simp [h]
  | cons child names ih =>
    obtain ⟨u, hu, hrun⟩ := run_cons hrun
    obtain ⟨path, kind⟩ := child
    cases kind with
    | file =>
      cases hu
      simpa [linkOf, List.filterMap_cons] using ih hrun h
    | dir =>
      cases hu
      simpa [linkOf, List.filterMap_cons] using ih hrun h
    | link target =>
      obtain ⟨clusters, hc, rfl⟩ := Option.map_eq_some_iff.mp hu
      obtain ⟨hkeys, hadd⟩ := addToCluster_made t path hc h
      obtain ⟨hk, hl, hm⟩ := ih hrun hkeys
      refine ⟨hk, ?_, fun p => ?_⟩
      · simpa [linkOf, List.filterMap_cons] using hl
      · rw [hm, hadd, or_assoc]
        simp [exists_or]

def Final (t : QueueTree Name) (p : List Name) : Prop := isFinal (t.names p) = true

theorem visit_made (t : QueueTree Name) {d d' : Dump Name} {dirname : List Name}
    (hv : visit t d dirname = some d') (h : (d.clusters.map Prod.fst).Nodup) :
    (d'.clusters.map Prod.fst).Nodup ∧
      d'.links = d.links ++ (t.names dirname).filterMap linkOf ∧
      ∀ p, p ∈ made d'.clusters ↔ p ∈ made d.clusters ∨
        (∃ q, (p, .link q) ∈ t.names dirname) ∨ (p = dirname ∧ Final t dirname) := by
  obtain ⟨u, hu, hv⟩ := Option.bind_eq_some_iff.mp hv
  obtain ⟨hkeys, hlinks, hmade⟩ := children_made t (t.names dirname) hu h
  unfold Final
  split_ifs at hv with hfinal
  · obtain ⟨clusters, hc, rfl⟩ := Option.map_eq_some_iff.mp hv
    obtain ⟨hkeys', hadd⟩ := addToCluster_made t dirname hc hkeys
    refine ⟨hkeys', hlinks, fun p => ?_⟩
    rw [hadd, hmade, or_assoc]
    simp [hfinal]
  · cases hv
    refine ⟨hkeys, hlinks, fun p => ?_⟩
    rw [hmade]
    simp [hfinal]

theorem visits_made (t : QueueTree Name) (dirs : List (List Name)) {d d' : Dump Name}
    (hrun : run (visit t) d dirs = some d') (h : (d.clusters.map Prod.fst).Nodup) :
    (d'.clusters.map Prod.fst).Nodup ∧
      d'.links = d.links ++ dirs.flatMap (fun dir => (t.names dir).filterMap linkOf) ∧
      ∀ p, p ∈ made d'.clusters ↔ p ∈ made d.clusters ∨
        ∃ dir ∈ dirs, (∃ q, (p, .link q) ∈ t.names dir) ∨ (p = dir ∧ Final t dir) := by
  induction dirs generalizing d with
  | nil =>
    cases hrun
    simp [h]
  | cons dir dirs ih =>
    obtain ⟨u, hu, hrun⟩ := run_cons hrun
    obtain ⟨hkeys, hlinks, hmade⟩ := visit_made t hu h
    obtain ⟨hk, hl, hm⟩ := ih hrun hkeys
    refine ⟨hk, ?_, fun p => ?_⟩
    · rw [hl, hlinks, List.flatMap_cons, List.append_assoc]
    · rw [hm, hmade, List.exists_mem_cons_iff, or_assoc]

theorem mem_dirs (t : QueueTree Name) (p : List Name) : p ∈ t.dirs ↔ (p, .dir) ∈ t.entries := by
  simp [QueueTree.dirs]

theorem mem_names (t : QueueTree Name) {p : List Name} {k : Kind Name} (h : (p, k) ∈ t.entries)
    (hp : p ≠ []) : p.dropLast ∈ t.dirs ∧ (p, k) ∈ t.names p.dropLast := by
  obtain ⟨init, n, rfl⟩ := (List.eq_nil_or_concat p).resolve_left hp
  rw [List.concat_eq_append] at h ⊢
  rw [List.dropLast_concat, mem_dirs]
  exact ⟨t.parents init n k h, List.mem_filter.mpr ⟨h, by simp⟩⟩

theorem link_ne_nil (t : QueueTree Name) {p q : List Name} (h : (p, .link q) ∈ t.entries) :
    p ≠ [] := by
  rintro rfl
  have hroot := (lookup_iff_mem t.paths [] .dir).mpr t.root
  rw [(lookup_iff_mem t.paths [] (.link q)).mpr h] at hroot
  cases hroot

theorem mem_walk_made {t : QueueTree Name} {d : Dump Name} (hd : walk t = some d) (p : List Name) :
    p ∈ made d.clusters ↔
      (∃ q, (p, .link q) ∈ t.entries) ∨ ((p, .dir) ∈ t.entries ∧ Final t p) := by
  obtain ⟨-, -, hmade⟩ := visits_made t t.dirs hd (by simp)
  rw [hmade]
  constructor
  · rintro (hnone | ⟨dir, hdir, ⟨q, hq⟩ | ⟨rfl, hfinal⟩⟩)
    · simp [made] at hnone
    · exact .inl ⟨q, (List.mem_filter.mp hq).1⟩
    · exact .inr ⟨(mem_dirs t p).mp hdir, hfinal⟩
  · rintro (⟨q, hq⟩ | ⟨hdir, hfinal⟩)
    · obtain ⟨hparent, hname⟩ := mem_names t hq (link_ne_nil t hq)
      exact .inr ⟨p.dropLast, hparent, .inl ⟨q, hname⟩⟩
    · exact .inr ⟨p, (mem_dirs t p).mpr hdir, .inr ⟨rfl, hfinal⟩⟩

theorem walk_links {t : QueueTree Name} {d : Dump Name} (hd : walk t = some d) :
    d.links = t.dirs.flatMap fun dir => (t.names dir).filterMap linkOf :=
  (visits_made t t.dirs hd (by simp)).2.1

theorem mem_walk_links {t : QueueTree Name} {d : Dump Name} (hd : walk t = some d)
    (p q : List Name) : (p, q) ∈ d.links ↔ (p, .link q) ∈ t.entries := by
  rw [walk_links hd]
  simp only [List.mem_flatMap, List.mem_filterMap, linkOf_some]
  constructor
  · rintro ⟨dir, -, _, he, rfl⟩
    exact (List.mem_filter.mp he).1
  · intro h
    obtain ⟨hparent, hname⟩ := mem_names t h (link_ne_nil t h)
    exact ⟨p.dropLast, hparent, _, hname, rfl⟩

/-- There is something where the link leads. -/
def Leads (t : QueueTree Name) (target : List Name) : Prop :=
  (target, .file) ∈ t.entries ∨ (target, .dir) ∈ t.entries

theorem stat_link {t : QueueTree Name} {p q : List Name} (h : (p, .link q) ∈ t.entries) :
    (t.stat p).isSome ↔ Leads t q := by
  have hmem := lookup_iff_mem t.paths q
  unfold QueueTree.stat Leads
  rw [(lookup_iff_mem t.paths p _).mpr h, ← hmem, ← hmem]
  simp only
  split <;> simp_all

theorem stat_dir {t : QueueTree Name} {p : List Name} (h : (p, .dir) ∈ t.entries) :
    (t.stat p).isSome := by
  unfold QueueTree.stat
  rw [(lookup_iff_mem t.paths p _).mpr h]
  rfl

theorem addToCluster_isSome (t : QueueTree Name) (path : List Name)
    (clusters : List (List Name × List (Option Name × Str × Str))) :
    (addToCluster t path clusters).isSome = (t.stat path).isSome := by
  rw [addToCluster, Option.isSome_map]

theorem visitChild_isSome (t : QueueTree Name) (d : Dump Name) (child : List Name × Kind Name) :
    (visitChild t d child).isSome ↔ ∀ q, child.2 = .link q → (t.stat child.1).isSome := by
  unfold visitChild
  split
  next target hk => simp [hk, addToCluster_isSome]
  next hk => simpa using fun q hq => absurd hq (hk q)

theorem links_of_names (t : QueueTree Name) (dirname : List Name) :
    (∀ child ∈ t.names dirname, ∀ q, child.2 = .link q → (t.stat child.1).isSome) ↔
      ∀ p q, (p, .link q) ∈ t.names dirname → (t.stat p).isSome := by
  constructor
  · exact fun h p q hpq => h _ hpq q rfl
  · rintro h ⟨p, k⟩ hp q rfl
    exact h p q hp

theorem visit_isSome {t : QueueTree Name} {dirname : List Name} (h : (dirname, .dir) ∈ t.entries)
    (d : Dump Name) : (visit t d dirname).isSome ↔
      ∀ p q, (p, .link q) ∈ t.names dirname → (t.stat p).isSome := by
  have hnames := (run_isSome_iff _ (fun d child _ => visitChild_isSome t d child) d).trans
    (links_of_names t dirname)
  unfold visit
  simp only
  cases hrun : run (visitChild t) d (t.names dirname) with
  | none =>
    rw [hrun] at hnames
    simpa using hnames
  | some u =>
    have hlast : (if isFinal (t.names dirname) then
        (addToCluster t dirname u.clusters).map fun clusters => { u with clusters := clusters }
      else some u).isSome := by
      split_ifs
      · rw [Option.isSome_map, addToCluster_isSome]
        exact stat_dir h
      · rfl
    rw [hrun] at hnames
    simpa [hlast] using hnames

/-- The walk comes to its end when no link dangles. -/
theorem walk_isSome (t : QueueTree Name) :
    (walk t).isSome ↔ ∀ p q, (p, .link q) ∈ t.entries → Leads t q := by
  rw [walk, run_isSome_iff _ fun d dir hdir => visit_isSome ((mem_dirs t dir).mp hdir) d]
  constructor
  · intro h p q hpq
    obtain ⟨hparent, hname⟩ := mem_names t hpq (link_ne_nil t hpq)
    exact (stat_link hpq).mp (h _ hparent p q hname)
  · intro h dir _ p q hpq
    have hentry := (List.mem_filter.mp hpq).1
    exact (stat_link hentry).mpr (h p q hentry)

omit [DecidableEq Name] in
theorem links_sublist (names : List (List Name × Kind Name)) :
    ((names.filterMap linkOf).map Prod.fst).Sublist (names.map Prod.fst) := by
  induction names with
  | nil => simp
  | cons e names ih =>
    obtain ⟨path, kind⟩ := e
    cases kind with
    | file => exact ih.cons _
    | dir => exact ih.cons _
    | link target => exact ih.cons_cons _

theorem walk_links_nodup {t : QueueTree Name} {d : Dump Name} (hd : walk t = some d) :
    (d.links.map Prod.fst).Nodup := by
  have hdirs : t.dirs.Nodup := t.paths.sublist (List.filter_sublist.map _)
  rw [walk_links hd, List.map_flatMap, List.nodup_flatMap]
  refine ⟨fun dir _ => ?_, hdirs.imp fun {a b} hne => ?_⟩
  · exact (t.paths.sublist (List.filter_sublist.map _)).sublist (links_sublist _)
  · -- a path has one parent
    intro p hpa hpb
    have hparent : ∀ dir, p ∈ ((t.names dir).filterMap linkOf).map Prod.fst → p.dropLast = dir := by
      intro dir hp
      obtain ⟨e, he, rfl⟩ := List.mem_map.mp ((links_sublist _).subset hp)
      have := (List.mem_filter.mp he).2
      simp only [decide_eq_true_eq] at this
      exact this.2
    exact hne ((hparent a hpa).symm.trans (hparent b hpb))

def OnlyDirs (D : List Name → Prop) (s : List (List Name × Kind Name)) : Prop :=
  ∀ p k, s.lookup p = some k ↔ k = .dir ∧ D p

theorem lookup_cons_iff (s : List (List Name × Kind Name)) (p q : List Name) (k : Kind Name) :
    ((p, k) :: s).lookup q = if q = p then some k else s.lookup q := by
  by_cases h : q = p
  · simp [h]
  · rw [List.lookup_cons, beq_false_of_ne h, if_neg h]

theorem makeDir_onlyDirs {D : List Name → Prop} {s : List (List Name × Kind Name)}
    (h : OnlyDirs D s) (p : List Name) :
    ∃ s', makeDir s p = some s' ∧ OnlyDirs (fun q => D q ∨ q = p) s' := by
  unfold makeDir
  cases hl : s.lookup p with
  | none =>
    refine ⟨_, rfl, fun q k => ?_⟩
    rw [lookup_cons_iff]
    by_cases hq : q = p
    · simp [hq, eq_comm]
    · rw [if_neg hq, h q k]
      simp [hq]
  | some k =>
    obtain ⟨rfl, hp⟩ := (h p k).mp hl
    refine ⟨s, rfl, fun q k => ?_⟩
    rw [h q k]
    refine and_congr_right fun _ => ⟨.inl, ?_⟩
    rintro (hq | rfl)
    · exact hq
    · exact hp

theorem makeDirs_onlyDirs (ps : List (List Name)) {D : List Name → Prop}
    {s : List (List Name × Kind Name)} (h : OnlyDirs D s) :
    ∃ s', run makeDir s ps = some s' ∧ OnlyDirs (fun q => D q ∨ q ∈ ps) s' := by
  induction ps generalizing D s with
  | nil => exact ⟨s, rfl, by simpa using h⟩
  | cons p ps ih =>
    obtain ⟨u, hu, hdirs⟩ := makeDir_onlyDirs h p
    obtain ⟨v, hv, hdirs⟩ := ih hdirs
    refine ⟨v, by simp [run, hu, hv], ?_⟩
    simpa only [List.mem_cons, or_assoc] using hdirs

theorem clusters_onlyDirs (cmds : List (Cmd Name)) {D : List Name → Prop}
    {s : List (List Name × Kind Name)} (h : OnlyDirs D s)
    (hcmds : ∀ c ∈ cmds, (∃ p, c = .mkdirP p) ∨ ∃ o g p, c = .chown o g p) :
    ∃ s', run exec s cmds = some s' ∧
      OnlyDirs (fun q => D q ∨ ∃ p, .mkdirP p ∈ cmds ∧ q <+: p) s' := by
  induction cmds generalizing D s with
  | nil => exact ⟨s, rfl, by simpa using h⟩
  | cons c cmds ih =>
    rw [List.forall_mem_cons] at hcmds
    rcases hcmds.1 with ⟨p, rfl⟩ | ⟨o, g, p, rfl⟩
    · obtain ⟨u, hu, hdirs⟩ := makeDirs_onlyDirs p.inits h
      obtain ⟨v, hv, hdirs⟩ := ih hdirs hcmds.2
      refine ⟨v, by simp [run, exec, hu, hv], ?_⟩
      simpa [or_and_right, exists_or, or_assoc] using hdirs
    · obtain ⟨v, hv, hdirs⟩ := ih h hcmds.2
      exact ⟨v, by simp [run, exec, hv], by simpa using hdirs⟩

omit [DecidableEq Name] in
theorem mem_clusterCmds (clusters : List (List Name × List (Option Name × Str × Str)))
    (p : List Name) : .mkdirP p ∈ clusters.flatMap clusterCmds ↔ p ∈ made clusters := by
  simp only [made, clusterCmds, List.mem_flatMap, List.mem_map]
  refine exists_congr fun c => and_congr_right fun _ => exists_congr fun d =>
    and_congr_right fun _ => ?_
  split_ifs <;> simp [eq_comm]

omit [DecidableEq Name] in
theorem clusterCmds_make (clusters : List (List Name × List (Option Name × Str × Str))) :
    ∀ c ∈ clusters.flatMap clusterCmds, (∃ p, c = .mkdirP p) ∨ ∃ o g p, c = .chown o g p := by
  intro c hc
  simp only [clusterCmds, List.mem_flatMap] at hc
  obtain ⟨cl, -, d, -, hc⟩ := hc
  rcases List.mem_cons.mp hc with rfl | hc
  · exact .inl ⟨_, rfl⟩
  · split_ifs at hc
    · exact .inr ⟨_, _, _, List.mem_singleton.mp hc⟩
    · cases hc

theorem prefix_dir (t : QueueTree Name) {p q : List Name} {k : Kind Name} (h : (q, k) ∈ t.entries)
    (hp : p <+: q) (hne : p ≠ q) : (p, .dir) ∈ t.entries := by
  induction q using List.reverseRecOn generalizing k with
  | nil => exact absurd (List.prefix_nil.mp hp) hne
  | append_singleton q n ih =>
    have hparent := t.parents q n k h
    have hp' := (List.prefix_concat_iff.mp hp).resolve_left hne
    by_cases he : p = q
    · rw [he]
      exact hparent
    · exact ih hparent hp' he

theorem names_below {t : QueueTree Name} {p c : List Name} {k : Kind Name}
    (h : (c, k) ∈ t.names p) : p <+: c ∧ c.length = p.length + 1 := by
  have hc := (List.mem_filter.mp h).2
  simp only [decide_eq_true_eq] at hc
  obtain ⟨init, n, rfl⟩ := (List.eq_nil_or_concat c).resolve_left hc.1
  rw [List.concat_eq_append, List.dropLast_concat] at hc
  rw [List.concat_eq_append, hc.2]
  exact ⟨List.prefix_append p [n], by simp⟩

theorem not_final {t : QueueTree Name} {p : List Name} (h : ¬ Final t p) :
    ∃ c k, (c, k) ∈ t.names p ∧ k ≠ .file := by
  unfold Final isFinal at h
  simp only [Bool.or_eq_true, not_or, List.isEmpty_iff, List.any_eq_true, not_exists] at h
  obtain ⟨e, he⟩ := List.exists_mem_of_ne_nil _ h.1
  exact ⟨e.1, e.2, he, fun hk => h.2 e ⟨he, by simpa using hk⟩⟩

theorem dir_made {t : QueueTree Name} {d : Dump Name} (hd : walk t = some d) {p : List Name}
    (h : (p, .dir) ∈ t.entries) : ∃ q ∈ made d.clusters, p <+: q := by
  obtain ⟨bound, hbound⟩ := (t.entries.map fun e => e.1.length).toFinset.exists_le
  have hlen : ∀ e ∈ t.entries, e.1.length ≤ bound := by
    intro e he
    exact hbound _ (by simpa using ⟨e.1, ⟨e.2, he⟩, rfl⟩)
  -- by induction on how much deeper the tree can be
  induction hn : bound - p.length using Nat.strong_induction_on generalizing p with
  | _ n ih =>
    by_cases hfinal : Final t p
    · exact ⟨p, (mem_walk_made hd p).mpr (.inr ⟨h, hfinal⟩), List.prefix_rfl⟩
    · obtain ⟨c, k, hc, hk⟩ := not_final hfinal
      have hentry := (List.mem_filter.mp hc).1
      have hbelow : p <+: c ∧ c.length = p.length + 1 := names_below hc
      cases k with
      | file => exact absurd rfl hk
      | link target => exact ⟨c, (mem_walk_made hd c).mpr (.inl ⟨target, hentry⟩), hbelow.1⟩
      | dir =>
        have hdeep := hlen _ hentry
        simp only at hdeep
        obtain ⟨q, hq, hcq⟩ := ih _ (by omega) hentry rfl
        exact ⟨q, hq, hbelow.1.trans hcq⟩

/-- What there is when the links in `done` stand and for the others there is a directory. -/
def shows (t : QueueTree Name) (done : List (List Name)) (p : List Name) : Option (Kind Name) :=
  match t.entries.lookup p with
  | some .dir => some .dir
  | some (.link q) => if p ∈ done then some (.link q) else some .dir
  | _ => none

def Stands (t : QueueTree Name) (done : List (List Name)) (s : List (List Name × Kind Name)) :
    Prop :=
  ∀ p, s.lookup p = shows t done p

theorem onlyDirs_stands {t : QueueTree Name} {d : Dump Name} (hd : walk t = some d)
    {s : List (List Name × Kind Name)}
    (h : OnlyDirs (fun q => q = [] ∨ ∃ p ∈ made d.clusters, q <+: p) s) : Stands t [] s := by
  have hmem := lookup_iff_mem t.paths
  have hentry : ∀ p, (p = [] ∨ ∃ q ∈ made d.clusters, p <+: q) →
      ∃ k, (p, k) ∈ t.entries ∧ k ≠ .file := by
    rintro p (rfl | ⟨q, hq, hpq⟩)
    · exact ⟨.dir, t.root, by simp⟩
    · obtain ⟨k, hk, hfile⟩ : ∃ k, (q, k) ∈ t.entries ∧ k ≠ .file := by
        rcases (mem_walk_made hd q).mp hq with ⟨r, hr⟩ | ⟨hdir, -⟩
        · exact ⟨_, hr, by simp⟩
        · exact ⟨_, hdir, by simp⟩
      by_cases he : p = q
      · exact ⟨k, he ▸ hk, hfile⟩
      · exact ⟨.dir, prefix_dir t hk hpq he, by simp⟩
  intro p
  unfold shows
  cases hl : t.entries.lookup p with
  | none =>
    refine Option.eq_none_iff_forall_ne_some.mpr fun k hk => ?_
    obtain ⟨k', hk', -⟩ := hentry p ((h p k).mp hk).2
    rw [(hmem p k').mpr hk'] at hl
    cases hl
  | some kind =>
    cases kind with
    | file =>
      refine Option.eq_none_iff_forall_ne_some.mpr fun k hk => ?_
      obtain ⟨k', hk', hfile⟩ := hentry p ((h p k).mp hk).2
      rw [(hmem p k').mpr hk'] at hl
      cases hl
      exact hfile rfl
    | dir => exact (h p .dir).mpr ⟨rfl, .inr (dir_made hd ((hmem p _).mp hl))⟩
    | link q =>
      have hmade := (mem_walk_made hd p).mpr (.inl ⟨q, (hmem p _).mp hl⟩)
      simpa using (h p .dir).mpr ⟨rfl, .inr ⟨p, hmade, List.prefix_rfl⟩⟩

theorem lookup_without (s : List (List Name × Kind Name)) (p q : List Name) :
    (s.filter fun e => e.1 ≠ p).lookup q = if q = p then none else s.lookup q := by
  rw [lookup_filter_key s (fun q => decide (q ≠ p)) q]
  by_cases h : q = p
  · simp [h]
  · simp [h]

theorem throughLink_false {s : List (List Name × Kind Name)} {p : List Name}
    (h : ∀ q, q <+: p → q ≠ p → s.lookup q = some .dir) : throughLink s p = false := by
  rw [throughLink, List.any_eq_false]
  intro q hq
  by_cases he : q = p
  · split
    · simp [he]
    · simp
  · rw [h q ((List.mem_inits q p).mp hq) he]
    simp

section
variable {t : QueueTree Name} {done : List (List Name)} {s : List (List Name × Kind Name)}
  {p q : List Name}

theorem Stands.dir (h : Stands t done s) (hp : (p, .dir) ∈ t.entries) : s.lookup p = some .dir := by
  rw [h p, shows, (lookup_iff_mem t.paths p .dir).mpr hp]

theorem Stands.empty (h : Stands t done s) (hp : (p, .link q) ∈ t.entries) :
    ¬ s.any fun e => p.isPrefixOf e.1 && e.1 ≠ p := by
  rw [List.any_eq_true]
  rintro ⟨⟨r, k⟩, hr, hbelow⟩
  simp only [Bool.and_eq_true, List.isPrefixOf_iff_prefix, decide_eq_true_eq] at hbelow
  have hsome : s.lookup r ≠ none := by
    intro hnone
    simpa using List.lookup_eq_none_iff.mp hnone (r, k) hr
  rw [h r, shows] at hsome
  cases hl : t.entries.lookup r with
  | none => simp [hl] at hsome
  | some kind =>
    have hdir := prefix_dir t ((lookup_iff_mem t.paths r kind).mp hl) hbelow.1 (Ne.symm hbelow.2)
    have := (lookup_iff_mem t.paths p .dir).mpr hdir
    rw [(lookup_iff_mem t.paths p (.link q)).mpr hp] at this
    cases this

theorem link_stands (h : Stands t done s) (hp : (p, .link q) ∈ t.entries) (hnew : p ∉ done)
    (hdeep : p.dropLast ≠ []) :
    ∃ s', run exec s (linkCmds (p, q)) = some s' ∧ Stands t (p :: done) s' := by
  have hlookup := (lookup_iff_mem t.paths p (.link q)).mpr hp
  have hdir : s.lookup p = some .dir := by simp [h p, shows, hlookup, hnew]
  have habove : ∀ r, r <+: p → r ≠ p → s.lookup r = some .dir :=
    fun r hr hne => h.dir (prefix_dir t hp hr hne)
  have hparent : p.dropLast ≠ p := by
    intro he
    have hlen := congrArg List.length he
    have hpos := List.length_pos_of_ne_nil (link_ne_nil t hp)
    rw [List.length_dropLast] at hlen
    omega
  let u := s.filter fun e => e.1 ≠ p
  have hu : ∀ r, u.lookup r = if r = p then none else s.lookup r := lookup_without s p
  have hrmdir : exec s (.rmdir (.here p)) = some u := by
    simp only [exec, throughLink_false habove, Bool.false_eq_true, ↓reduceIte]
    rw [if_pos ⟨hdir, h.empty hp⟩]
  have hln : exec u (.ln q p) = some (linkAt u q p) := by
    have habove' : ∀ r, r <+: p → r ≠ p → u.lookup r = some .dir := by
      intro r hr hne
      rw [hu, if_neg hne, habove r hr hne]
    have hinside : u.lookup p.dropLast = some .dir :=
      habove' _ (List.dropLast_prefix p) hparent
    simp only [exec, throughLink_false habove', Bool.false_eq_true, ↓reduceIte, hu p]
    rw [if_pos hinside]
  refine ⟨linkAt u q p, by simp [linkCmds, hdeep, run, hrmdir, hln], fun r => ?_⟩
  rw [linkAt, hu p, if_pos rfl]
  simp only [lookup_cons_iff, lookup_without, hu]
  by_cases hr : r = p
  · simp [hr, shows, hlookup]
  · simp [hr, h r, shows]

end

theorem links_stand (t : QueueTree Name) (ls : List (List Name × List Name))
    (hls : ∀ l ∈ ls, (l.1, .link l.2) ∈ t.entries ∧ l.1.dropLast ≠ [])
    (hnodup : (ls.map Prod.fst).Nodup) {done : List (List Name)}
    (hdone : ∀ p ∈ done, p ∉ ls.map Prod.fst) {s : List (List Name × Kind Name)}
    (h : Stands t done s) :
    ∃ s', run exec s (ls.flatMap linkCmds) = some s' ∧
      Stands t ((ls.map Prod.fst).reverse ++ done) s' := by
  induction ls generalizing done s with
  | nil => exact ⟨s, rfl, h⟩
  | cons l ls ih =>
    rw [List.forall_mem_cons] at hls
    rw [List.map_cons, List.nodup_cons] at hnodup
    have hnew : l.1 ∉ done := fun hd => hdone _ hd (by simp)
    obtain ⟨u, hu, hstands⟩ := link_stands h hls.1.1 hnew hls.1.2
    have hrest : ∀ p ∈ l.1 :: done, p ∉ ls.map Prod.fst := by
      intro p hp
      rcases List.mem_cons.mp hp with rfl | hp
      · exact hnodup.1
      · exact fun hmem => hdone p hp (List.mem_cons_of_mem _ hmem)
    obtain ⟨v, hv, hstands⟩ := ih hls.2 hnodup.2 hrest hstands
    refine ⟨v, ?_, by simpa using hstands⟩
    rw [List.flatMap_cons, run_append, hu]
    exact hv

section
variable {p : List Name}

theorem makeDir_keeps (s : List (List Name × Kind Name)) (q : List Name)
    (u : List (List Name × Kind Name)) (hp : s.lookup p = some .dir) (h : makeDir s q = some u) :
    u.lookup p = some .dir := by
  unfold makeDir at h
  split at h
  next hq =>
    cases h
    rw [lookup_cons_iff]
    split_ifs with he
    · rfl
    · exact hp
  next => cases h; exact hp
  next => cases h

theorem linkAt_keeps {s : List (List Name × Kind Name)} (hp : s.lookup p = some .dir)
    (target q : List Name) : (linkAt s target q).lookup p = some .dir := by
  unfold linkAt
  split
  next => exact hp
  next hq =>
    have hne : p ≠ q := by
      rintro rfl
      exact hq hp
    rw [lookup_cons_iff, if_neg hne, lookup_without, if_neg hne, hp]

theorem exec_keeps {s u : List (List Name × Kind Name)} {c : Cmd Name} (hc : c ≠ .rmdir (.here p))
    (hp : s.lookup p = some .dir) (h : exec s c = some u) : u.lookup p = some .dir := by
  cases c with
  | mkdirP q => exact run_invariant _ makeDir_keeps h hp
  | chown o g q => cases h; exact hp
  | rmdir place =>
    cases place with
    | root q => cases h; exact hp
    | here q =>
      simp only [exec] at h
      split_ifs at h
      · cases h
        have hne : p ≠ q := by
          rintro rfl
          exact hc rfl
        rw [lookup_without, if_neg hne, hp]
      · cases h; exact hp
  | ln target q =>
    simp only [exec] at h
    split at h
    next => cases h
    next =>
      split at h
      next =>
        split_ifs at h
        · cases h; exact linkAt_keeps hp target q
        · cases h; exact hp
      next => cases h; exact linkAt_keeps hp target q
      next =>
        cases h
        cases target.getLast? with
        | none => exact hp
        | some n => exact linkAt_keeps hp target (q ++ [n])
      next => cases h

theorem run_keeps {s u : List (List Name × Kind Name)} {cmds : List (Cmd Name)}
    (hc : .rmdir (.here p) ∉ cmds) (hp : s.lookup p = some .dir) (h : run exec s cmds = some u) :
    u.lookup p = some .dir := by
  induction cmds generalizing s with
  | nil => cases h; exact hp
  | cons c cmds ih =>
    obtain ⟨v, hv, h⟩ := run_cons h
    rw [List.mem_cons, not_or] at hc
    exact ih hc.2 (exec_keeps (Ne.symm hc.1) hp hv) h

end

theorem clusters_stand {t : QueueTree Name} {d : Dump Name} (hd : walk t = some d)
    {order : List (List Name × List (Option Name × Str × Str))}
    (horder : order.Perm d.clusters) :
    ∃ s, run exec [([], .dir)] (order.flatMap clusterCmds) = some s ∧ Stands t [] s := by
  have hempty : OnlyDirs (· = ([] : List Name)) [([], .dir)] := by
    intro p k
    rw [lookup_cons_iff]
    by_cases hp : p = []
    · simp [hp, eq_comm]
    · simp [hp]
  have hmade : ∀ p, p ∈ made order ↔ p ∈ made d.clusters := by
    intro p
    simp only [made, List.mem_flatMap, horder.mem_iff]
  obtain ⟨s, hs, hdirs⟩ := clusters_onlyDirs (order.flatMap clusterCmds) hempty
    (clusterCmds_make order)
  simp only [mem_clusterCmds, hmade] at hdirs
  exact ⟨s, hs, onlyDirs_stands hd hdirs⟩

omit [DecidableEq Name] in
theorem rmdir_deep {ls : List (List Name × List Name)} {p : List Name}
    (h : .rmdir (.here p) ∈ ls.flatMap linkCmds) : 2 ≤ p.length := by
  obtain ⟨l, -, hl⟩ := List.mem_flatMap.mp h
  simp only [linkCmds, List.mem_cons, Cmd.rmdir.injEq, reduceCtorEq, List.not_mem_nil,
    or_false] at hl
  split_ifs at hl with hhead
  cases hl
  have hpos := List.length_pos_of_ne_nil hhead
  rw [List.length_dropLast] at hpos
  omega

theorem stands_recreates {t : QueueTree Name} {done : List (List Name)}
    {s : List (List Name × Kind Name)} (h : Stands t done s)
    (hdone : ∀ p q, (p, .link q) ∈ t.entries → p ∈ done) : Recreates t s := by
  intro p
  rw [h p, shows]
  cases hl : t.entries.lookup p with
  | none => rfl
  | some kind =>
    cases kind with
    | file => rfl
    | dir => rfl
    | link q => simp [hdone p q ((lookup_iff_mem t.paths p _).mp hl)]

theorem script_recreates_iff {t : QueueTree Name} {d : Dump Name} (hd : walk t = some d)
    {order : List (List Name × List (Option Name × Str × Str))} (horder : order.Perm d.clusters) :
    (∃ s, run exec [([], .dir)] (script ⟨order, d.links⟩) = some s ∧ Recreates t s) ↔
      ∀ p q, (p, .link q) ∈ t.entries → 2 ≤ p.length := by
  obtain ⟨u, hu, hstands⟩ := clusters_stand hd horder
  have hscript : run exec [([], .dir)] (script ⟨order, d.links⟩) =
      run exec u (d.links.flatMap linkCmds) := by
    rw [script, run_append, hu, Option.bind_some]
  rw [hscript]
  constructor
  · rintro ⟨s, hs, hrec⟩ p q hpq
    by_contra hshort
    have hlookup := (lookup_iff_mem t.paths p (.link q)).mpr hpq
    have hdir : u.lookup p = some .dir := by simp [hstands p, shows, hlookup]
    have hkept := run_keeps (fun hmem => hshort (rmdir_deep hmem)) hdir hs
    rw [hrec p, hlookup] at hkept
    cases hkept
  · intro hdeep
    have hls : ∀ l ∈ d.links, (l.1, .link l.2) ∈ t.entries ∧ l.1.dropLast ≠ [] := by
      intro l hl
      have hentry := (mem_walk_links hd l.1 l.2).mp hl
      refine ⟨hentry, List.ne_nil_of_length_pos ?_⟩
      have hlen := hdeep l.1 l.2 hentry
      rw [List.length_dropLast]
      omega
    obtain ⟨s, hs, hfinal⟩ := links_stand t d.links hls (walk_links_nodup hd) (by simp) hstands
    refine ⟨s, hs, stands_recreates hfinal fun p q hpq => ?_⟩
    have hmem := List.mem_map_of_mem (f := Prod.fst) ((mem_walk_links hd p q).mpr hpq)
    simpa using hmem

/-- There is a script exactly when no link dangles. It makes the directories and the links of the
tree, and nothing else, exactly when no link is in `base_dir` itself: such a link's directory is
not removed, and the link is made inside it. -/
theorem dump_recreates_iff (t : QueueTree Name) :
    ((walk t).isSome ↔ ∀ p q, (p, .link q) ∈ t.entries → Leads t q) ∧
    ∀ d, walk t = some d → ∀ order, order.Perm d.clusters →
      ((∃ s, run exec [([], .dir)] (script ⟨order, d.links⟩) = some s ∧ Recreates t s) ↔
        ∀ p q, (p, .link q) ∈ t.entries → 2 ≤ p.length) :=
  ⟨walk_isSome t, fun _ hd _ horder => script_recreates_iff hd horder⟩

def foo : Str := ascii "foo.out"

def bar : Str := ascii "bar.in"

def area : Str := ascii "area"

def linkedAt (p q : List Str) : List (List Str × Kind Str) :=
  [([], .dir), ([foo], .dir), ([area], .dir), (p, .link q)]

theorem linkedAt_parents (p q : List Str) (hp : p = [bar] ∨ p = [area, bar]) (r : List Str)
    (n : Str) (k : Kind Str) (h : (r ++ [n], k) ∈ linkedAt p q) : (r, .dir) ∈ linkedAt p q := by
  have hall : ∀ e ∈ linkedAt p q, e.1 ≠ [] → (e.1.dropLast, .dir) ∈ linkedAt p q := by
    rcases hp with rfl | rfl
    · simp [linkedAt]
    · simp [linkedAt]
  simpa using hall _ h (by simp)

theorem linkedAt_paths (p q : List Str) (hp : p = [bar] ∨ p = [area, bar]) :
    ((linkedAt p q).map Prod.fst).Nodup := by
  have hpaths : (linkedAt p q).map Prod.fst = [[], [foo], [area], p] := rfl
  rw [hpaths]
  rcases hp with rfl | rfl
  · decide
  · decide

def linkedTree (p q : List Str) (hp : p = [bar] ∨ p = [area, bar]) : QueueTree Str :=
  ⟨linkedAt p q, fun _ => (ascii "wissbi", ascii "wissbi"), linkedAt_paths p q hp,
    List.mem_cons_self, linkedAt_parents p q hp⟩

theorem top_link_lost :
    (∃ d, walk (linkedTree [bar] [foo] (.inl rfl)) = some d ∧
      ¬ ∃ s, run exec [([], .dir)] (script d) = some s ∧
        Recreates (linkedTree [bar] [foo] (.inl rfl)) s) ∧
    (∃ d, walk (linkedTree [area, bar] [foo] (.inr rfl)) = some d ∧
      ∃ s, run exec [([], .dir)] (script d) = some s ∧
        Recreates (linkedTree [area, bar] [foo] (.inr rfl)) s) ∧
    walk (linkedTree [area, bar] [area, foo] (.inr rfl)) = none := by
  have hlink (p q : List Str) (hp : p = [bar] ∨ p = [area, bar]) (r x : List Str) :
      (r, .link x) ∈ (linkedTree p q hp).entries ↔ r = p ∧ x = q := by
    simp [linkedTree, linkedAt]
  refine ⟨?_, ?_, ?_⟩
  · obtain ⟨hsome, hscript⟩ := dump_recreates_iff (linkedTree [bar] [foo] (.inl rfl))
    obtain ⟨d, hd⟩ := Option.isSome_iff_exists.mp (hsome.mpr fun p q h => by
      rw [((hlink _ _ _ p q).mp h).2]
      exact .inr (by simp [linkedTree, linkedAt]))
    refine ⟨d, hd, fun h => ?_⟩
    have hdeep := (hscript d hd d.clusters (.refl _)).mp h [bar] [foo] ((hlink ..).mpr ⟨rfl, rfl⟩)
    simp at hdeep
  · obtain ⟨hsome, hscript⟩ := dump_recreates_iff (linkedTree [area, bar] [foo] (.inr rfl))
    obtain ⟨d, hd⟩ := Option.isSome_iff_exists.mp (hsome.mpr fun p q h => by
      rw [((hlink _ _ _ p q).mp h).2]
      exact .inr (by simp [linkedTree, linkedAt]))
    refine ⟨d, hd, (hscript d hd d.clusters (.refl _)).mpr fun p q h => ?_⟩
    rw [((hlink _ _ _ p q).mp h).1]
    exact Nat.le_refl 2
  · rw [← Option.not_isSome_iff_eq_none, (dump_recreates_iff _).1]
    intro h
    have hleads := h [area, bar] [area, foo] ((hlink ..).mpr ⟨rfl, rfl⟩)
    have hne : area ≠ bar ∧ foo ≠ bar := by decide
    simp [Leads, linkedTree, linkedAt, hne] at hleads

end Wissbi.FlowDump
