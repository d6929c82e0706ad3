import Wissbi.Runs
import Wissbi.SubEntries

set_option autoImplicit false

namespace Wissbi.Rendezvous
open LengthPolicy SubEntries Streams Util

inductive Stage where
  | bound
  | listening
  | registered
  | unregistered
  | gone
  deriving DecidableEq, Repr

/-- `fail` is an exception from the constructor of `SubEntry`, with the file made or not; `leave`
is `~SubEntry` on the way out of `run_sub`; `crash` is any other end, which runs no destructor. -/
inductive Event where
  | listen
  | register
  | fail (made : Bool)
  | renew
  | leave
  | exit
  | crash

def Stage.next : Stage → Event → Option Stage
  | .bound, .listen => some .listening
  | .listening, .register => some .registered
  | .listening, .fail _ => some .gone
  | .registered, .renew => some .registered
  | .registered, .leave => some .unregistered
  | .unregistered, .exit => some .gone
  | .gone, _ => none
  | _, .crash => some .gone
  | _, _ => none

/-- `connect` succeeds from `listen` on, for as long as the process is there. -/
def Stage.accepts : Stage → Bool
  | .listening | .registered | .unregistered => true
  | .bound | .gone => false

def Stage.past : Stage → Bool
  | .bound | .listening => false
  | .registered | .unregistered | .gone => true

structure Sub where
  ip : InAddr
  port : UInt16
  queueName : Str
  topicMode : Bool
  stage : Stage

def Sub.addr (b : Sub) : SockaddrIn := ⟨afInet, b.port, b.ip⟩

def Sub.connStr (b : Sub) : Str := sockaddrToConnectString b.addr

def Sub.entry (b : Sub) : Str × Str := (b.queueName, entryName b.queueName b.connStr b.topicMode)

def Sub.listed (b : Sub) : Str × Str :=
  (b.connStr, unescapeSubFolderPath (escapeSubFolderPath b.queueName) ++
    if b.topicMode then dot :: b.connStr else [])

inductive Outcome where
  | connecting
  | connected (sub : ℕ)
  | refused
  deriving DecidableEq, Repr

/-- A producer thread with the `conn_str` and the `real_dest` it was started for. -/
structure Producer where
  listed : Str × Str
  outcome : Outcome

structure State where
  subs : List Sub
  registry : List (Str × Str)
  producers : List Producer

inductive Act where
  | bind (ip : InAddr) (port : UInt16) (queueName : Str) (topicMode : Bool)
  | sub (i : ℕ) (event : Event)
  | reap (entry : Str × Str)
  | found (entry : Str × Str)
  | connect (j : ℕ)

def register (event : Event) (entry : Str × Str) (registry : List (Str × Str)) :
    List (Str × Str) :=
  match event with
  | .register | .renew | .fail true => entry :: registry
  | .leave => registry.filter (· ≠ entry)
  | .listen | .fail false | .exit | .crash => registry

section
variable (inetAddr : Str → InAddr)

def answer (s : State) (connStr : Str) : Outcome :=
  match s.subs.findIdx? fun b =>
      b.stage.accepts && b.addr == connectStringToSockaddr inetAddr connStr with
  | some k => .connected k
  | none => .refused

def step (s : State) : Act → Option State
  | .bind ip port queueName topicMode =>
    -- The kernel does not give out an address that a process has.
    if s.subs.any fun b => b.stage != .gone && b.addr == ⟨afInet, port, ip⟩ then none
    else some { s with subs := s.subs ++ [⟨ip, port, queueName, topicMode, .bound⟩] }
  | .sub i event =>
    (s.subs[i]?).bind fun b => (b.stage.next event).map fun stage =>
      { s with
        subs := s.subs.set i { b with stage := stage }
        registry := register event b.entry s.registry }
  | .reap entry => some { s with registry := s.registry.filter (· ≠ entry) }
  | .found entry =>
    if entry ∈ s.registry then
      some { s with producers := s.producers ++ [⟨parseEntry entry.2, .connecting⟩] }
    else none
  | .connect j =>
    (s.producers[j]?).bind fun p =>
      if p.outcome = .connecting then
        some { s with
          producers := s.producers.set j { p with outcome := answer inetAddr s p.listed.1 } }
      else none

end

def start : State := ⟨[], [], []⟩

theorem answer_cases (inetAddr : Str → InAddr) (s : State) (connStr : Str) :
    (∃ k c, answer inetAddr s connStr = .connected k ∧ s.subs[k]? = some c ∧
      c.stage.accepts = true ∧ c.addr = connectStringToSockaddr inetAddr connStr) ∨
    (answer inetAddr s connStr = .refused ∧ ∀ c ∈ s.subs, c.stage.accepts = true →
      c.addr ≠ connectStringToSockaddr inetAddr connStr) := by
  unfold answer
  cases h : s.subs.findIdx? fun b =>
      b.stage.accepts && b.addr == connectStringToSockaddr inetAddr connStr with
  | some k =>
    obtain ⟨hk, hc, -⟩ := List.findIdx?_eq_some_iff_getElem.mp h
    rw [Bool.and_eq_true, beq_iff_eq] at hc
    exact .inl ⟨k, s.subs[k], rfl, List.getElem?_eq_getElem hk, hc.1, hc.2⟩
  | none =>
    refine .inr ⟨rfl, fun c hc hacc haddr => ?_⟩
    have := List.findIdx?_eq_none_iff.mp h c hc
    simp [hacc, haddr] at this

theorem parseEntry_entry (b : Sub) : parseEntry b.entry.2 = b.listed := by
  obtain ⟨hsharp, hcomma, -⟩ := connectString_clean b.addr
  exact parseEntry_entryName b.queueName b.connStr b.topicMode hcomma hsharp

theorem next_past {st st' : Stage} {e : Event} (h : st.next e = some st') :
    st ≠ .gone ∧ (st.past = true → st'.past = true) := by
  cases st <;> cases e <;> cases h <;> decide

theorem accepts_or_gone {st : Stage} (h : st.past = true) : st.accepts = true ∨ st = .gone := by
  cases st with
  | bound => cases h
  | listening => cases h
  | registered => exact .inl rfl
  | unregistered => exact .inl rfl
  | gone => exact .inr rfl

theorem accepts_not_gone {st : Stage} (h : st.accepts = true) : st ≠ .gone := by
  rintro rfl
  cases h

/-- The subscribers of the first list are in the second, and only further on. -/
def Later (subs subs' : List Sub) : Prop :=
  ∀ (i : ℕ) (b : Sub), subs[i]? = some b → ∃ st, subs'[i]? = some { b with stage := st } ∧
    (b.stage.past = true → st.past = true) ∧ (b.stage = .gone → st = .gone)

theorem later_append (subs : List Sub) (b : Sub) : Later subs (subs ++ [b]) := by
  intro i c h
  refine ⟨c.stage, ?_, id, id⟩
  rw [List.getElem?_append_left (List.getElem?_eq_some_iff.mp h).1]
  exact h

theorem later_set {subs : List Sub} {i : ℕ} {b : Sub} (h : subs[i]? = some b) {e : Event}
    {st : Stage} (hst : b.stage.next e = some st) :
    Later subs (subs.set i { b with stage := st }) := by
  obtain ⟨hne, hpast⟩ := next_past hst
  intro k c hc
  by_cases hk : i = k
  · subst hk
    obtain rfl : b = c := Option.some.inj (h.symm.trans hc)
    refine ⟨st, ?_, hpast, fun hg => absurd hg hne⟩
    rw [List.getElem?_set_self (List.getElem?_eq_some_iff.mp h).1]
  · exact ⟨c.stage, by rw [List.getElem?_set_ne hk]; exact hc, id, id⟩

def Made (subs : List Sub) (listed : Str × Str) : Prop :=
  ∃ (i : ℕ) (b : Sub), subs[i]? = some b ∧ b.stage.past = true ∧ b.listed = listed

/-- The connection leads to the subscriber of the entry, or to one that has its address after
it. -/
def Reached (subs : List Sub) (listed : Str × Str) (k : ℕ) : Prop :=
  ∃ c, subs[k]? = some c ∧ c.connStr = listed.1 ∧ (c.listed = listed ∨
    ∃ (i : ℕ) (b : Sub), i < k ∧ subs[i]? = some b ∧ b.listed = listed ∧ b.stage = .gone)

def Ended (subs : List Sub) (listed : Str × Str) : Prop :=
  ∃ (i : ℕ) (b : Sub), subs[i]? = some b ∧ b.listed = listed ∧ b.stage = .gone

section
variable {subs subs' : List Sub} {listed : Str × Str}

theorem Made.later (h : Made subs listed) (hl : Later subs subs') : Made subs' listed := by
  obtain ⟨i, b, hb, hpast, hlisted⟩ := h
  obtain ⟨st, hst, hp, -⟩ := hl i b hb
  exact ⟨i, _, hst, hp hpast, hlisted⟩

theorem Reached.later {k : ℕ} (h : Reached subs listed k) (hl : Later subs subs') :
    Reached subs' listed k := by
  obtain ⟨c, hc, haddr, hcase⟩ := h
  obtain ⟨st, hst, -, -⟩ := hl k c hc
  refine ⟨_, hst, haddr, hcase.imp id ?_⟩
  rintro ⟨i, b, hik, hb, hlisted, hgone⟩
  obtain ⟨st', hst', -, hg⟩ := hl i b hb
  exact ⟨i, _, hik, hst', hlisted, hg hgone⟩

theorem Ended.later (h : Ended subs listed) (hl : Later subs subs') : Ended subs' listed := by
  obtain ⟨i, b, hb, hlisted, hgone⟩ := h
  obtain ⟨st, hst, -, hg⟩ := hl i b hb
  exact ⟨i, _, hst, hlisted, hg hgone⟩

end

def Producer.Sound (subs : List Sub) (p : Producer) : Prop :=
  Made subs p.listed ∧ match p.outcome with
    | .connecting => True
    | .connected k => Reached subs p.listed k
    | .refused => Ended subs p.listed

structure Sound (s : State) : Prop where
  exclusive : ∀ (i k : ℕ) (b c : Sub), s.subs[i]? = some b → s.subs[k]? = some c → i < k →
    b.addr = c.addr → b.stage = .gone
  made : ∀ e ∈ s.registry, Made s.subs (parseEntry e.2)
  producers : ∀ p ∈ s.producers, p.Sound s.subs

theorem Producer.Sound.later {subs subs' : List Sub} {p : Producer} (h : p.Sound subs)
    (hl : Later subs subs') : p.Sound subs' := by
  refine ⟨h.1.later hl, ?_⟩
  have h2 := h.2
  cases ho : p.outcome with
  | connecting => trivial
  | connected k =>
    rw [ho] at h2
    exact Reached.later h2 hl
  | refused =>
    rw [ho] at h2
    exact Ended.later h2 hl

theorem set_back {subs : List Sub} {i j : ℕ} {b c : Sub} {st : Stage} (hb : subs[i]? = some b)
    (hc : (subs.set i { b with stage := st })[j]? = some c) :
    ∃ c₀, subs[j]? = some c₀ ∧ c₀.addr = c.addr ∧ (j ≠ i → c₀ = c) := by
  by_cases hj : i = j
  · subst hj
    rw [List.getElem?_set_self (List.getElem?_eq_some_iff.mp hb).1, Option.some.injEq] at hc
    subst hc
    exact ⟨b, hb, rfl, fun h => absurd rfl h⟩
  · rw [List.getElem?_set_ne hj] at hc
    exact ⟨c, hc, rfl, fun _ => rfl⟩

/-- Who makes an entry has come to the point where entries are made. -/
theorem register_cases {st st' : Stage} {e : Event} (hst : st.next e = some st')
    {entry x : Str × Str} {registry : List (Str × Str)} (hx : x ∈ register e entry registry) :
    x ∈ registry ∨ (x = entry ∧ st'.past = true) := by
  cases e with
  | listen => exact .inl hx
  | register =>
    refine (List.mem_cons.mp hx).symm.imp id fun he => ⟨he, ?_⟩
    cases st <;> cases hst
    rfl
  | fail made =>
    cases made with
    | false => exact .inl hx
    | true =>
      refine (List.mem_cons.mp hx).symm.imp id fun he => ⟨he, ?_⟩
      cases st <;> cases hst
      rfl
  | renew =>
    refine (List.mem_cons.mp hx).symm.imp id fun he => ⟨he, ?_⟩
    cases st <;> cases hst
    rfl
  | leave => exact .inl (List.mem_filter.mp hx).1
  | exit => exact .inl hx
  | crash => exact .inl hx

theorem start_sound : Sound start := by
  constructor <;> simp [start]

section
variable {s : State} (hs : Sound s)
include hs

theorem bind_sound {ip : InAddr} {port : UInt16} (q : Str) (t : Bool)
    (hfree : ¬ s.subs.any (fun b => b.stage != .gone && b.addr == ⟨afInet, port, ip⟩)) :
    Sound { s with subs := s.subs ++ [⟨ip, port, q, t, .bound⟩] } where
  exclusive := by
    intro i k b c hb hc hik haddr
    rcases Nat.lt_or_ge k s.subs.length with hk | hk
    · rw [List.getElem?_append_left hk] at hc
      rw [List.getElem?_append_left (hik.trans hk)] at hb
      exact hs.exclusive i k b c hb hc hik haddr
    · have hlast : k = s.subs.length := by
        have := (List.getElem?_eq_some_iff.mp hc).1
        simp only [List.length_append, List.length_singleton] at this
        omega
      subst hlast
      rw [List.getElem?_append_left hik] at hb
      rw [List.getElem?_append_right le_rfl, Nat.sub_self, List.getElem?_cons_zero,
        Option.some.injEq] at hc
      subst hc
      by_contra hgone
      refine hfree (List.any_eq_true.mpr ⟨b, List.mem_of_getElem? hb, ?_⟩)
      have haddr' : b.addr = ⟨afInet, port, ip⟩ := haddr
      simp [hgone, haddr']
  made := fun e he => (hs.made e he).later (later_append _ _)
  producers := fun p hp => (hs.producers p hp).later (later_append _ _)

theorem sub_sound {i : ℕ} {b : Sub} (hb : s.subs[i]? = some b) {e : Event} {st : Stage}
    (hst : b.stage.next e = some st) :
    Sound { s with
      subs := s.subs.set i { b with stage := st }, registry := register e b.entry s.registry } where
  exclusive := by
    intro j k c d hc hd hjk haddr
    obtain ⟨c₀, hc₀, haddr₀, hc'⟩ := set_back hb hc
    obtain ⟨d₀, hd₀, haddr₁, -⟩ := set_back hb hd
    have hgone := hs.exclusive j k c₀ d₀ hc₀ hd₀ hjk (by rw [haddr₀, haddr₁, haddr])
    by_cases hj : j = i
    · subst hj
      obtain rfl : b = c₀ := Option.some.inj (hb.symm.trans hc₀)
      exact absurd hgone (next_past hst).1
    · rw [← hc' hj]
      exact hgone
  made := by
    intro x hx
    rcases register_cases hst hx with hx | ⟨rfl, hpast⟩
    · exact (hs.made x hx).later (later_set hb hst)
    · refine ⟨i, { b with stage := st }, ?_, hpast, (parseEntry_entry b).symm⟩
      rw [List.getElem?_set_self (List.getElem?_eq_some_iff.mp hb).1]
  producers := fun p hp => (hs.producers p hp).later (later_set hb hst)

theorem found_sound {e : Str × Str} (he : e ∈ s.registry) :
    Sound { s with producers := s.producers ++ [⟨parseEntry e.2, .connecting⟩] } where
  exclusive := hs.exclusive
  made := hs.made
  producers := by
    intro p hp
    rcases List.mem_append.mp hp with hp | hp
    · exact hs.producers p hp
    · rw [List.mem_singleton.mp hp]
      exact ⟨hs.made e he, trivial⟩

theorem holder_unique {i k : ℕ} {b c : Sub} (hb : s.subs[i]? = some b) (hc : s.subs[k]? = some c)
    (haddr : b.addr = c.addr) (hgone : c.stage ≠ .gone) : i = k ∨ i < k ∧ b.stage = .gone := by
  rcases Nat.lt_trichotomy i k with h | h | h
  · exact .inr ⟨h, hs.exclusive i k b c hb hc h haddr⟩
  · exact .inl h
  · exact absurd (hs.exclusive k i c b hc hb h haddr.symm) hgone

variable {inetAddr : Str → InAddr} (hinet : ∀ ip, inetAddr (inetNtoa ip) = ip)
include hinet

theorem answer_sound {p : Producer} (hp : Made s.subs p.listed) :
    Producer.Sound s.subs { p with outcome := answer inetAddr s p.listed.1 } := by
  refine ⟨hp, ?_⟩
  obtain ⟨i, b, hb, hpast, hlisted⟩ := hp
  have haddr : connectStringToSockaddr inetAddr p.listed.1 = b.addr := by
    rw [← hlisted]
    exact connectStringToSockaddr_roundTrip inetAddr b.addr (hinet b.ip)
  rcases answer_cases inetAddr s p.listed.1 with ⟨k, c, hans, hc, hacc, hca⟩ | ⟨hans, hnone⟩
  · have hbc : b.addr = c.addr := haddr.symm.trans hca.symm
    simp only [hans]
    refine ⟨c, hc, ?_, ?_⟩
    · rw [← hlisted]
      exact congrArg sockaddrToConnectString hbc.symm
    · rcases holder_unique hs hb hc hbc (accepts_not_gone hacc) with rfl | ⟨hik, hgone⟩
      · obtain rfl : b = c := Option.some.inj (hb.symm.trans hc)
        exact .inl hlisted
      · exact .inr ⟨i, b, hik, hb, hlisted, hgone⟩
  · simp only [hans]
    refine ⟨i, b, hb, hlisted, (accepts_or_gone hpast).resolve_left fun hacc => ?_⟩
    exact hnone b (List.mem_of_getElem? hb) hacc haddr.symm

theorem answer_own {i : ℕ} {b : Sub} (hb : s.subs[i]? = some b) (hacc : b.stage.accepts = true) :
    answer inetAddr s b.listed.1 = .connected i := by
  have haddr : connectStringToSockaddr inetAddr b.listed.1 = b.addr :=
    connectStringToSockaddr_roundTrip inetAddr b.addr (hinet b.ip)
  rcases answer_cases inetAddr s b.listed.1 with ⟨k, c, hans, hc, hcacc, hca⟩ | ⟨-, hnone⟩
  · have hbc : b.addr = c.addr := haddr.symm.trans hca.symm
    rcases holder_unique hs hb hc hbc (accepts_not_gone hcacc) with rfl | ⟨-, hgone⟩
    · exact hans
    · exact absurd hgone (accepts_not_gone hacc)
  · exact absurd haddr.symm (hnone b (List.mem_of_getElem? hb) hacc)

theorem step_sound {a : Act} {t : State} (h : step inetAddr s a = some t) : Sound t := by
  cases a with
  | bind ip port q topic =>
    simp only [step] at h
    split_ifs at h with hfree
    cases h
    exact bind_sound hs q topic hfree
  | sub i e =>
    obtain ⟨b, hb, h⟩ := Option.bind_eq_some_iff.mp h
    obtain ⟨st, hst, rfl⟩ := Option.map_eq_some_iff.mp h
    exact sub_sound hs hb hst
  | reap e =>
    cases h
    exact ⟨hs.exclusive, fun x hx => hs.made x (List.mem_filter.mp hx).1, hs.producers⟩
  | found e =>
    simp only [step] at h
    split_ifs at h with he
    cases h
    exact found_sound hs he
  | connect j =>
    obtain ⟨p, hp, h⟩ := Option.bind_eq_some_iff.mp h
    split_ifs at h
    cases h
    have hmade := (hs.producers p (List.mem_of_getElem? hp)).1
    refine ⟨hs.exclusive, hs.made, fun q hq => ?_⟩
    rcases List.mem_or_eq_of_mem_set hq with hq | rfl
    · exact hs.producers q hq
    · exact answer_sound hs hinet hmade

end

/-- In every run of any number of subscribers, publishers and the reaper: a connection leads to
the subscriber of the entry it was made for, or to one that got the address when that one had
ended; a connection is refused only when the subscriber of the entry has ended; and as long as it
has not, it is the one that answers. -/
theorem connections_reach (inetAddr : Str → InAddr) (hinet : ∀ ip, inetAddr (inetNtoa ip) = ip)
    (acts : List Act) (s : State) (h : Runs.run (step inetAddr) start acts = some s) :
    (∀ p ∈ s.producers, ∀ k, p.outcome = .connected k → Reached s.subs p.listed k) ∧
    (∀ p ∈ s.producers, p.outcome = .refused → Ended s.subs p.listed) ∧
    ∀ (i : ℕ) (b : Sub) (j : ℕ) (p : Producer), s.subs[i]? = some b → b.stage.past = true →
      b.stage ≠ .gone → s.producers[j]? = some p → p.outcome = .connecting →
      p.listed = b.listed →
      step inetAddr s (.connect j) =
        some { s with producers := s.producers.set j ⟨p.listed, .connected i⟩ } := by
  have hs : Sound s := Runs.run_invariant Sound (fun _ _ _ hs => step_sound hs hinet) h start_sound
  refine ⟨fun p hp k hk => ?_, fun p hp hr => ?_, fun i b j p hb hpast hne hp ho hl => ?_⟩
  · have := (hs.producers p hp).2
    rwa [hk] at this
  · have := (hs.producers p hp).2
    rwa [hr] at this
  · have hacc := (accepts_or_gone hpast).resolve_right hne
    have hans := answer_own hs hinet hb hacc
    rw [← hl] at hans
    simp only [step, hp, Option.bind_some, ho, ↓reduceIte, hans]

def dotted (s : Str) : InAddr :=
  let second := beyond dot s
  let third := beyond dot second
  ⟨UInt8.ofNat (decimalValue (upTo dot s)), UInt8.ofNat (decimalValue (upTo dot second)),
    UInt8.ofNat (decimalValue (upTo dot third)), UInt8.ofNat (decimalValue (beyond dot third))⟩

theorem dotted_inetNtoa (ip : InAddr) : dotted (inetNtoa ip) = ip := by
  have hdot : ∀ n, dot ∉ decimal n := dot_not_mem_decimal
  have hip : inetNtoa ip = decimal ip.a.toNat ++ dot :: (decimal ip.b.toNat ++ dot ::
      (decimal ip.c.toNat ++ dot :: decimal ip.d.toNat)) := by
    simp [inetNtoa]
  unfold dotted
  simp only [hip, upTo_append dot _ _ (hdot _), beyond_append dot _ _ (hdot _),
    decimalValue_decimal, UInt8.ofNat_toNat]

/-- A subscriber of `a` is found and then killed, one of `b` gets its address, and the publisher
of `a` connects. -/
def reuse : List Act :=
  [.bind ⟨10, 0, 0, 1⟩ 80 (ascii "a") false, .sub 0 .listen, .sub 0 .register,
    .found (ascii "a", ascii "10.0.0.1:20480,a"), .sub 0 .crash,
    .bind ⟨10, 0, 0, 1⟩ 80 (ascii "b") false, .sub 1 .listen, .connect 0]

theorem reused_address_reached :
    ∃ s, Runs.run (step dotted) start reuse = some s ∧
      s.producers.map Producer.outcome = [.connected 1] ∧
      ∀ p ∈ s.producers, Reached s.subs p.listed 1 := by
  have hout : (Runs.run (step dotted) start reuse).map
      (fun s => s.producers.map Producer.outcome) = some [.connected 1] := by
    decide
  obtain ⟨s, hs, hout⟩ := Option.map_eq_some_iff.mp hout
  refine ⟨s, hs, hout, fun p hp => ?_⟩
  apply (connections_reach dotted dotted_inetNtoa reuse s hs).1 p hp 1
  have hmem : p.outcome ∈ s.producers.map Producer.outcome := List.mem_map_of_mem hp
  rw [hout] at hmem
  exact List.mem_singleton.mp hmem

end Wissbi.Rendezvous
