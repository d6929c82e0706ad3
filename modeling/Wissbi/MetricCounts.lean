import Wissbi.MetricCollector
import Wissbi.Runs

set_option autoImplicit false

namespace Wissbi.MetricCounts
open MetricCollector MetricReporter Runs Streams Util

/-- `drained` are the values that the exchanges gave, zeros included, and `sent` the texts
that were passed to `Send`. -/
structure State where
  metrics : List FilterMetric
  call : Option Report
  drained : List (Str × UInt32)
  sent : List Str

inductive Act where
  | increment (n : Str)
  | report
  | exchange
  | send
  | filter
  | finish
  deriving DecidableEq, Repr

def step (direction : Str) (s : State) : Act → Option State
  | .increment n =>
    (lookup n s.metrics).map fun _ =>
      { s with metrics := update n (FilterMetric.add 1) s.metrics }
  | .report =>
    match s.call with
    | none => some { s with call := some (Report.start s.metrics) }
    | some _ => none
  | .exchange =>
    (s.call.bind fun c => c.exchange s.metrics).map fun x =>
      { s with metrics := x.list, call := some x.call, drained := s.drained ++ [(x.name, x.v)] }
  | .send =>
    match s.call with
    | some (.sending n v rest) =>
      some { s with
        call := some (.filtering n v rest)
        sent := s.sent ++ [reportText n direction v] }
    | _ => none
  | .filter =>
    match s.call with
    | some (.filtering _ _ rest) => some { s with call := some (.visiting rest) }
    | _ => none
  | .finish =>
    match s.call with
    | some (.visiting []) => some { s with call := none }
    | _ => none

def start (names : List Str) : State := ⟨names.map FilterMetric.init, none, [], []⟩

def inHand : Option Report → List (Str × UInt32)
  | some (.sending n v _) => [(n, v)]
  | _ => []

def increments (n : Str) (acts : List Act) : ℕ := acts.count (.increment n)

def lastProcessed (n : Str) (ms : List FilterMetric) : ℕ :=
  ((lookup n ms).map fun m => m.lastProcessed.toNat).getD 0

inductive Moves (direction : Str) (s : State) : Act → State → Prop where
  | incremented (n : Str) (m : FilterMetric) (hm : lookup n s.metrics = some m) :
      Moves direction s (.increment n)
        { s with metrics := update n (FilterMetric.add 1) s.metrics }
  | began (hc : s.call = none) :
      Moves direction s .report { s with call := some (Report.start s.metrics) }
  | skipped (n : Str) (rest : List Str) (m : FilterMetric)
      (hc : s.call = some (.visiting (n :: rest))) (hm : lookup n s.metrics = some m)
      (hz : m.lastProcessed = 0) :
      Moves direction s .exchange
        { s with
          metrics := update n FilterMetric.drain s.metrics
          call := some (.visiting rest)
          drained := s.drained ++ [(n, 0)] }
  | exchanged (n : Str) (rest : List Str) (m : FilterMetric)
      (hc : s.call = some (.visiting (n :: rest))) (hm : lookup n s.metrics = some m)
      (hz : m.lastProcessed ≠ 0) :
      Moves direction s .exchange
        { s with
          metrics := update n FilterMetric.drain s.metrics
          call := some (.sending n m.lastProcessed rest)
          drained := s.drained ++ [(n, m.lastProcessed)] }
  | sent (n : Str) (v : UInt32) (rest : List Str) (hc : s.call = some (.sending n v rest)) :
      Moves direction s .send
        { s with
          call := some (.filtering n v rest)
          sent := s.sent ++ [reportText n direction v] }
  | filtered (n : Str) (v : UInt32) (rest : List Str)
      (hc : s.call = some (.filtering n v rest)) :
      Moves direction s .filter { s with call := some (.visiting rest) }
  | finished (hc : s.call = some (.visiting [])) :
      Moves direction s .finish { s with call := none }

theorem step_moves {direction : Str} {s t : State} {a : Act} (h : step direction s a = some t) :
    Moves direction s a t := by
  cases a with
  | increment n =>
    obtain ⟨m, hm, rfl⟩ := Option.map_eq_some_iff.mp h
    exact .incremented n m hm
  | report =>
    simp only [step] at h
    split at h
    next hc => cases h; exact .began hc
    next => cases h
  | exchange =>
    obtain ⟨x, hx, rfl⟩ := Option.map_eq_some_iff.mp h
    obtain ⟨c, hc, hx⟩ := Option.bind_eq_some_iff.mp hx
    unfold Report.exchange at hx
    split at hx
    next n rest =>
      obtain ⟨m, hm, rfl⟩ := Option.map_eq_some_iff.mp hx
      by_cases hz : m.lastProcessed = 0
      · simp only [hz, ↓reduceIte]
        exact .skipped n rest m hc hm hz
      · simp only [hz, ↓reduceIte]
        exact .exchanged n rest m hc hm hz
    next => cases hx
  | send =>
    simp only [step] at h
    split at h
    next n v rest hc => cases h; exact .sent n v rest hc
    next => cases h
  | filter =>
    simp only [step] at h
    split at h
    next n v rest hc => cases h; exact .filtered n v rest hc
    next => cases h
  | finish =>
    simp only [step] at h
    split at h
    next hc => cases h; exact .finished hc
    next => cases h

def taken (n : Str) (call : Option Report) : ℕ :=
  ((inHand call).map fun x => if x.1 = n then x.2.toNat else 0).sum

def text (direction : Str) (x : Str × UInt32) : Str := reportText x.1 direction x.2

section
variable (names : List Str) (direction : Str) (loadCounter : Str → ℤ) (counterMap₀ : Counters)

/-- The texts are those of the values that were not zero; fed to the collector they bring
every counter to what was counted up, less what is still on its way. -/
structure Collected (acts : List Act) (s : State) : Prop where
  listed : s.metrics.map FilterMetric.name = names
  hand : ∀ x ∈ inHand s.call, x.1 ∈ names
  texts : s.sent ++ (inHand s.call).map (text direction) =
    (s.drained.filter fun x => x.2 ≠ 0).map (text direction)
  lines : ∀ t ∈ s.sent, Line t
  fed : ∃ counterMap, feed loadCounter counterMap₀ s.sent = some counterMap ∧
    InRange counterMap ∧ ∀ n ∈ names,
      counterMap.value loadCounter (rrdName n direction) + lastProcessed n s.metrics +
        taken n s.call ≡
      counterMap₀.value loadCounter (rrdName n direction) + increments n acts [ZMOD 2 ^ 32]

end

theorem lastProcessed_update {n n' : Str} {f : FilterMetric → FilterMetric}
    {ms : List FilterMetric} {m : FilterMetric} (hm : lookup n' ms = some m)
    (hf : ∀ m, (f m).name = m.name) :
    lastProcessed n (update n' f ms) =
      if n = n' then (f m).lastProcessed.toNat else lastProcessed n ms := by
  unfold lastProcessed
  rw [lookup_update ms hf]
  split
  next h =>
    subst h
    simp [hm]
  next h => simp

theorem feed_append (loadCounter : Str → ℤ) (counterMap : Counters) (lines more : List Str) :
    feed loadCounter counterMap (lines ++ more) =
      (feed loadCounter counterMap lines).bind fun m => feed loadCounter m more := by
  induction lines generalizing counterMap with
  | nil => rfl
  | cons l lines ih =>
    simp only [List.cons_append, feed]
    cases handle loadCounter counterMap l with
    | none => rfl
    | some m => simpa using ih m

theorem increments_snoc (n : Str) (acts : List Act) (a : Act) :
    increments n (acts ++ [a]) = increments n acts + if a = .increment n then 1 else 0 := by
  simp [increments, List.count_append, List.count_singleton]

section
variable {names : List Str} {direction : Str} {loadCounter : Str → ℤ} {counterMap₀ : Counters}

theorem feed_text (hnamed : ∀ n ∈ names, Named n) (hd : comma ∉ direction)
    (hdistinct : (names.map fun n => rrdName n direction).Nodup)
    (hload : ∀ n, 0 ≤ loadCounter n ∧ loadCounter n < 2 ^ 32) {counterMap : Counters}
    (hr : InRange counterMap) {n : Str} (hn : n ∈ names) (v : UInt32) :
    ∃ next, feed loadCounter counterMap [reportText n direction v] = some next ∧ InRange next ∧
      ∀ n' ∈ names, next.value loadCounter (rrdName n' direction) ≡
        counterMap.value loadCounter (rrdName n' direction) + (if n = n' then v.toNat else 0 : ℕ)
          [ZMOD 2 ^ 32] := by
  have hv : (0 : ℤ) ≤ v.toNat ∧ (v.toNat : ℤ) < 2 ^ 32 := by
    have := v.toNat_lt
    omega
  have hnew := newCounter_mod (value_range hr hload (rrdName n direction)) hv
  refine ⟨_, by rw [feed, handle_reportText loadCounter counterMap (hnamed n hn) hd]; rfl, ?_, ?_⟩
  · intro x c hx
    by_cases hxn : x = rrdName n direction
    · rw [hxn, Function.update_self] at hx
      cases hx
      rw [hnew]
      omega
    · rw [Function.update_of_ne hxn] at hx
      exact hr x c hx
  · intro n' hn'
    by_cases he : n = n'
    · subst he
      simp only [Counters.value, Function.update_self, Option.getD_some, ↓reduceIte]
      have := Int.mod_modEq (counterMap.value loadCounter (rrdName n direction) + v.toNat) (2 ^ 32)
      rw [← hnew] at this
      exact this
    · have hne : rrdName n' direction ≠ rrdName n direction :=
        fun heq => he (List.inj_on_of_nodup_map hdistinct hn' hn heq).symm
      simp [Counters.value, Function.update_of_ne hne, he]

theorem Collected.unsent {acts : List Act} {s t : State} {a : Act} (more : List (Str × UInt32))
    (hs : Collected names direction loadCounter counterMap₀ acts s) (hsent : t.sent = s.sent)
    (listed : t.metrics.map FilterMetric.name = s.metrics.map FilterMetric.name)
    (hmore : ∀ x ∈ more, x.1 ∈ names) (hand : inHand t.call = inHand s.call ++ more)
    (drained : (t.drained.filter fun x => x.2 ≠ 0) = (s.drained.filter fun x => x.2 ≠ 0) ++ more)
    (hmod : ∀ n ∈ names, ((lastProcessed n t.metrics + taken n t.call : ℕ) : ℤ) ≡
      (lastProcessed n s.metrics + taken n s.call + if a = .increment n then 1 else 0 : ℕ)
        [ZMOD 2 ^ 32]) :
    Collected names direction loadCounter counterMap₀ (acts ++ [a]) t := by
  obtain ⟨M, hfeed, hrange, hM⟩ := hs.fed
  refine ⟨listed.trans hs.listed, ?_, ?_, hsent ▸ hs.lines, M, hsent ▸ hfeed, hrange, ?_⟩
  · intro x hx
    rw [hand] at hx
    rcases List.mem_append.mp hx with hx | hx
    · exact hs.hand x hx
    · exact hmore x hx
  · rw [hsent, hand, drained, List.map_append, List.map_append, ← hs.texts, List.append_assoc]
  · intro n hn
    have h₁ := hM n hn
    have h₂ := hmod n hn
    rw [increments_snoc]
    rw [Int.modEq_iff_dvd] at h₁ h₂ ⊢
    push_cast at h₂ ⊢
    omega

theorem step_collected (hnamed : ∀ n ∈ names, Named n) (hcomma : comma ∉ direction)
    (hnewline : newline ∉ direction)
    (hdistinct : (names.map fun n => rrdName n direction).Nodup)
    (hload : ∀ n, 0 ≤ loadCounter n ∧ loadCounter n < 2 ^ 32) {acts : List Act} {s t : State}
    {a : Act} (hs : Collected names direction loadCounter counterMap₀ acts s)
    (h : step direction s a = some t) :
    Collected names direction loadCounter counterMap₀ (acts ++ [a]) t := by
  cases step_moves h with
  | incremented n m hm =>
    refine hs.unsent [] rfl (update_names _ fun _ => rfl) (by simp) (by simp) (by simp) ?_
    intro n' hn'
    simp only [lastProcessed_update (f := FilterMetric.add 1) hm fun _ => rfl]
    by_cases he : n' = n
    · subst he
      have hlast : lastProcessed n' s.metrics = m.lastProcessed.toNat := by
        simp [lastProcessed, hm]
      have hadd : (m.add 1).lastProcessed.toNat = (m.lastProcessed.toNat + 1) % 2 ^ 32 := rfl
      rw [if_pos rfl, if_pos rfl, hadd, hlast, Int.modEq_iff_dvd]
      push_cast
      omega
    · rw [if_neg he, if_neg (by simpa using fun h => he h.symm)]
      rfl
  | began hc =>
    exact hs.unsent [] rfl rfl (by simp) (by simp [hc, inHand, Report.start]) (by simp) fun _ _ => by
      simp [hc, taken, inHand, Report.start]
  | skipped n rest m hc hm hz =>
    refine hs.unsent [] rfl (update_names _ fun _ => rfl) (by simp) (by simp [hc, inHand])
      (by simp) fun n' hn' => ?_
    simp only [lastProcessed_update (f := FilterMetric.drain) hm fun _ => rfl]
    by_cases he : n' = n
    · subst he
      simp [hc, taken, inHand, lastProcessed, hm, hz, FilterMetric.drain]
    · simp [he, hc, taken, inHand]
  | exchanged n rest m hc hm hz =>
    have hn : n ∈ names := hs.listed ▸ mem_of_lookup hm
    refine hs.unsent [(n, m.lastProcessed)] rfl (update_names _ fun _ => rfl) (by simpa using hn)
      (by simp [hc, inHand]) (by simp [hz]) fun n' hn' => ?_
    simp only [lastProcessed_update (f := FilterMetric.drain) hm fun _ => rfl]
    by_cases he : n' = n
    · subst he
      simp [hc, taken, inHand, lastProcessed, hm, FilterMetric.drain]
    · have he' : ¬ n = n' := fun h => he h.symm
      simp [he, he', hc, taken, inHand]
  | sent n v rest hc =>
    have hin : inHand s.call = [(n, v)] := by rw [hc]; rfl
    have hn : n ∈ names := hs.hand (n, v) (by simp [hin])
    obtain ⟨M, hfeed, hrange, hM⟩ := hs.fed
    obtain ⟨next, hnext, hr, hv⟩ := feed_text hnamed hcomma hdistinct hload hrange hn v
    refine ⟨hs.listed, by simp [inHand], ?_, ?_, next, ?_, hr, fun n' hn' => ?_⟩
    · have := hs.texts
      rw [hin] at this
      simpa [inHand, text] using this
    · intro x hx
      rcases List.mem_append.mp hx with hx | hx
      · exact hs.lines x hx
      · rw [List.mem_singleton.mp hx]
        exact line_reportText (hnamed n hn) hnewline v
    · rw [feed_append, hfeed, Option.bind_some]
      exact hnext
    · have htaken : taken n' s.call = if n = n' then v.toNat else 0 := by simp [taken, hin]
      have h₁ := hM n' hn'
      have h₂ := hv n' hn'
      rw [htaken] at h₁
      rw [increments_snoc, if_neg (by simp)]
      change _ + (lastProcessed n' s.metrics : ℤ) + (0 : ℕ) ≡ _ [ZMOD _]
      rw [Int.modEq_iff_dvd] at h₁ h₂ ⊢
      push_cast at h₁ h₂ ⊢
      omega
  | filtered n v rest hc =>
    exact hs.unsent [] rfl rfl (by simp) (by simp [hc, inHand]) (by simp) fun _ _ => by
      simp [hc, taken, inHand]
  | finished hc =>
    exact hs.unsent [] rfl rfl (by simp) (by simp [hc, inHand]) (by simp) fun _ _ => by
      simp [hc, taken, inHand]

theorem start_last (names : List Str) (n : Str) :
    lastProcessed n (names.map FilterMetric.init) = 0 := by
  unfold lastProcessed
  cases hm : lookup n (names.map FilterMetric.init) with
  | none => rfl
  | some m =>
    obtain ⟨x, -, rfl⟩ := List.mem_map.mp (List.mem_of_find?_eq_some hm)
    rfl

theorem run_collected (hnamed : ∀ n ∈ names, Named n) (hcomma : comma ∉ direction)
    (hnewline : newline ∉ direction)
    (hdistinct : (names.map fun n => rrdName n direction).Nodup)
    (hload : ∀ n, 0 ≤ loadCounter n ∧ loadCounter n < 2 ^ 32) (hrange : InRange counterMap₀)
    {acts : List Act} {s : State} (h : run (step direction) (start names) acts = some s) :
    Collected names direction loadCounter counterMap₀ acts s := by
  apply run_history (Collected names direction loadCounter counterMap₀) h
  · refine ⟨?_, by simp [start, inHand], rfl, by simp [start], counterMap₀, rfl, hrange, ?_⟩
    · simp only [start, List.map_map]
      exact List.map_id names
    · intro n _
      simp [start, start_last, taken, inHand, increments]
  · intro acts s a t _ hs hstep
    exact step_collected hnamed hcomma hnewline hdistinct hload hs hstep

/-- Fed with everything that was sent, the collector comes to its end and has counted every
increment that a metric does not still show; the texts are those of the values that were
not zero. -/
theorem counts_survive (names : List Str) (direction : Str) (loadCounter : Str → ℤ)
    (counterMap₀ : Counters) (hnamed : ∀ n ∈ names, Named n) (hcomma : comma ∉ direction)
    (hnewline : newline ∉ direction)
    (hdistinct : (names.map fun n => rrdName n direction).Nodup)
    (hload : ∀ n, 0 ≤ loadCounter n ∧ loadCounter n < 2 ^ 32) (hrange : InRange counterMap₀)
    (acts : List Act) (s : State) (h : run (step direction) (start names) acts = some s) :
    ∃ counterMap,
      loop loadCounter (s.sent.length + 1) counterMap₀ (s.sent.flatMap (· ++ [newline])) =
        .ended counterMap ∧
      InRange counterMap ∧
      (inHand s.call = [] → ∀ n ∈ names,
        counterMap.value loadCounter (rrdName n direction) =
          (counterMap₀.value loadCounter (rrdName n direction) + increments n acts -
            lastProcessed n s.metrics) % 2 ^ 32) ∧
      s.sent ++ (inHand s.call).map (text direction) =
        (s.drained.filter fun x => x.2 ≠ 0).map (text direction) := by
  have hs := run_collected hnamed hcomma hnewline hdistinct hload hrange h
  obtain ⟨M, hfeed, hr, hM⟩ := hs.fed
  refine ⟨M, loop_lines loadCounter counterMap₀ M s.sent hs.lines hfeed, hr, ?_, hs.texts⟩
  intro hhand n hn
  have hmod := hM n hn
  have hv := value_range hr hload (rrdName n direction)
  have htaken : taken n s.call = 0 := by simp [taken, hhand]
  rw [htaken, Int.modEq_iff_dvd] at hmod
  push_cast at hmod
  omega

end

def wrapping : List Act :=
  [.increment (ascii "foo/out"), .increment (ascii "foo/out"), .report, .exchange,
    .increment (ascii "foo/out"), .send, .filter, .exchange, .finish]

theorem wrapping_counts_survive :
    ∃ s counterMap,
      run (step (ascii "enqueue")) (start [ascii "foo/out", ascii "bar:1"]) wrapping = some s ∧
      s.sent = [ascii "foo/out,enqueue,2"] ∧
      loop (fun _ => 0xffffffff) 2 (fun _ => none) (ascii "foo/out,enqueue,2" ++ [newline]) =
        .ended counterMap ∧
      counterMap.value (fun _ => 0xffffffff) (ascii "wissbi.foo__out.enqueue") = 1 := by
  have hsome : ((run (step (ascii "enqueue")) (start [ascii "foo/out", ascii "bar:1"])
      wrapping).map fun s => (s.sent, inHand s.call, lastProcessed (ascii "foo/out") s.metrics)) =
        some ([ascii "foo/out,enqueue,2"], [], 1) := by decide +kernel
  obtain ⟨s, hs, he⟩ := Option.map_eq_some_iff.mp hsome
  simp only [Prod.mk.injEq] at he
  obtain ⟨hsent, hhand, hlast⟩ := he
  obtain ⟨M, hloop, -, hvalue, -⟩ := counts_survive [ascii "foo/out", ascii "bar:1"]
    (ascii "enqueue") (fun _ => 0xffffffff) (fun _ => none)
    (by
      intro n hn
      rcases List.mem_pair.mp hn with rfl | rfl
      all_goals exact ⟨by decide, by decide, by rintro c ⟨⟩; rfl⟩)
    (by decide) (by decide) (by decide) (fun _ => ⟨by omega, by omega⟩)
    (by intro n c h; cases h) wrapping s hs
  rw [hsent] at hloop
  refine ⟨s, M, hs, hsent, hloop, ?_⟩
  have hname : rrdName (ascii "foo/out") (ascii "enqueue") = ascii "wissbi.foo__out.enqueue" := by
    decide
  have hcount : increments (ascii "foo/out") wrapping = 3 := by decide
  have hv := hvalue hhand (ascii "foo/out") (by simp)
  rw [hname, hlast, hcount] at hv
  rw [hv]
  decide

end Wissbi.MetricCounts
