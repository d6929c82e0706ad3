import Wissbi.MsgFilter

set_option autoImplicit false

namespace Wissbi.FilterTrace
open Buffers MsgFilter

variable {σ : Type}

inductive Event where
  | preFilter (res : Bool)
  | get (res : Bool) (msg : MsgBuf)
  | filterFunc (before : MsgBuf) (res : Bool) (after : MsgBuf)
  | put (msg : MsgBuf) (res : Bool)
  | postFilter (arg res : Bool)

abbrev Logged (σ : Type) := List Event × σ

/-- The call with a note of the buffer before it, its result and the buffer after it. -/
def record (f : Step σ) (note : MsgBuf → Bool → MsgBuf → Event) : Step (Logged σ) := fun s =>
  let r := f (s.1.2, s.2)
  (r.1, (s.1.1 ++ [note s.2 r.1 r.2.2], r.2.1), r.2.2)

def traced (h : Hooks σ) : Hooks (Logged σ) where
  preFilter := record h.preFilter fun _ res _ => .preFilter res
  get := record h.get fun _ res after => .get res after
  filterFunc := record h.filterFunc .filterFunc
  put := record h.put fun before res _ => .put before res
  postFilter arg := record (h.postFilter arg) fun _ res _ => .postFilter arg res

def turn (h : Hooks σ) (s : σ × MsgBuf) : List Event := (filter (traced h) (([], s.1), s.2)).2.1.1

def turns (h : Hooks σ) : ℕ → σ × MsgBuf → List (List Event)
  | 0, _ => []
  | n + 1, s => turn h s :: if (filter h s).1 then turns h n (filter h s).2 else []

def obtained (es : List Event) : List MsgBuf :=
  es.filterMap fun
    | .get true msg => some msg
    | _ => none

def filtered (es : List Event) : List (MsgBuf × Bool × MsgBuf) :=
  es.filterMap fun
    | .filterFunc before res after => some (before, res, after)
    | _ => none

def passed (es : List Event) : List MsgBuf :=
  es.filterMap fun
    | .put msg _ => some msg
    | _ => none

def accepted (es : List Event) : List MsgBuf :=
  es.filterMap fun
    | .put msg true => some msg
    | _ => none

def results (es : List Event) : List Bool :=
  es.filterMap fun
    | .preFilter res => some res
    | .get res _ => some res
    | .filterFunc _ res _ => some res
    | .put _ res => some res
    | .postFilter _ _ => none

def posts (es : List Event) : List (Bool × Bool) :=
  es.filterMap fun
    | .postFilter arg res => some (arg, res)
    | _ => none

/-- What an iteration can look like; the indices are what the post-filter was given and
what it returned. -/
inductive Turn : List Event → Bool → Bool → Prop where
  | stopped (res : Bool) : Turn [.preFilter false, .postFilter false res] false res
  | noMessage (msg : MsgBuf) (res : Bool) :
      Turn [.preFilter true, .get false msg, .postFilter false res] false res
  | rejected (msg msg' : MsgBuf) (res : Bool) :
      Turn [.preFilter true, .get true msg, .filterFunc msg false msg', .postFilter false res]
        false res
  | offered (msg msg' : MsgBuf) (arg res : Bool) :
      Turn [.preFilter true, .get true msg, .filterFunc msg true msg', .put msg' arg,
        .postFilter arg res] arg res

theorem filter_traced (h : Hooks σ) (s : σ × MsgBuf) :
    ∃ es arg s', Turn es arg (filter h s).1 ∧ filter h s = h.postFilter arg s' ∧
      ∀ log, filter (traced h) ((log, s.1), s.2) =
        ((filter h s).1, (log ++ es, (filter h s).2.1), (filter h s).2.2) := by
  -- one case for each step that can be the first to return false, and one for none
  rcases ha : h.preFilter s with ⟨_ | _, a⟩
  · refine ⟨_, _, a, .stopped _, ?_, ?_⟩
    · simp [filter, andThen, ha]
    · intro log
      simp [filter, andThen, traced, record, ha]
  rcases hb : h.get a with ⟨_ | _, b⟩
  · refine ⟨_, _, b, .noMessage b.2 _, ?_, ?_⟩
    · simp [filter, andThen, ha, hb]
    · intro log
      simp [filter, andThen, traced, record, ha, hb]
  rcases hc : h.filterFunc b with ⟨_ | _, c⟩
  · refine ⟨_, _, c, .rejected b.2 c.2 _, ?_, ?_⟩
    · simp [filter, andThen, ha, hb, hc]
    · intro log
      simp [filter, andThen, traced, record, ha, hb, hc]
  · refine ⟨_, _, (h.put c).2, .offered b.2 c.2 (h.put c).1 _, ?_, ?_⟩
    · simp [filter, andThen, ha, hb, hc]
    · intro log
      simp [filter, andThen, traced, record, ha, hb, hc]

theorem turn_spec (h : Hooks σ) (s : σ × MsgBuf) :
    ∃ arg s', Turn (turn h s) arg (filter h s).1 ∧ filter h s = h.postFilter arg s' := by
  obtain ⟨es, arg, s', hturn, hpost, hlog⟩ := filter_traced h s
  have he : turn h s = es := by rw [turn, hlog, List.nil_append]
  exact ⟨arg, s', he ▸ hturn, hpost⟩

theorem filter_log (h : Hooks σ) (log : List Event) (s : σ × MsgBuf) :
    filter (traced h) ((log, s.1), s.2) =
      ((filter h s).1, (log ++ turn h s, (filter h s).2.1), (filter h s).2.2) := by
  obtain ⟨es, -, -, -, -, hlog⟩ := filter_traced h s
  rw [turn, hlog, hlog, List.nil_append]

theorem filterLoop_traced (h : Hooks σ) (n : ℕ) (log : List Event) (s : σ × MsgBuf) :
    filterLoop (traced h) n ((log, s.1), s.2) =
      (filterLoop h n s).map fun t => ((log ++ (turns h n s).flatten, t.1), t.2) := by
  induction n generalizing log s with
  | zero => rfl
  | succ n ih =>
    simp only [filterLoop, turns, filter_log]
    cases hr : (filter h s).1 with
    | false => simp
    | true => simp [ih]

theorem Turn.posts_eq {es : List Event} {arg res : Bool} (h : Turn es arg res) :
    posts es = [((results es).all id, res)] := by
  cases h <;> simp [posts, results]

theorem Turn.filtered_obtained {es : List Event} {arg res : Bool} (h : Turn es arg res) :
    (filtered es).map (·.1) = obtained es := by
  cases h <;> rfl

theorem Turn.passed_eq {es : List Event} {arg res : Bool} (h : Turn es arg res) :
    passed es = ((filtered es).filter (·.2.1)).map (·.2.2) := by
  cases h <;> rfl

theorem Turn.put_last {es : List Event} {arg res : Bool} (h : Turn es arg res) {msg : MsgBuf}
    {r : Bool} (hput : Event.put msg r ∈ es) :
    ∃ before, es = [.preFilter true, .get true before, .filterFunc before true msg, .put msg r,
      .postFilter r res] := by
  cases h with
  | stopped => simp at hput
  | noMessage => simp at hput
  | rejected => simp at hput
  | offered before msg' =>
    simp only [List.mem_cons, reduceCtorEq, Event.put.injEq, List.not_mem_nil, or_false,
      false_or] at hput
    obtain ⟨rfl, rfl⟩ := hput
    exact ⟨before, rfl⟩

theorem Turn.all_true {es : List Event} {res : Bool} (h : Turn es true res) :
    results es = [true, true, true, true] ∧ accepted es ≠ [] := by
  cases h
  exact ⟨rfl, by simp [accepted]⟩

theorem Turn.obtained_le {es : List Event} {arg res : Bool} (h : Turn es arg res) :
    (obtained es).length ≤ 1 := by
  cases h <;> simp [obtained]

theorem turns_turn {h : Hooks σ} {n : ℕ} {s : σ × MsgBuf} {it : List Event}
    (hit : it ∈ turns h n s) : ∃ arg res, Turn it arg res := by
  induction n generalizing s with
  | zero => cases hit
  | succ n ih =>
    rw [turns, List.mem_cons] at hit
    rcases hit with rfl | hit
    · obtain ⟨arg, s', hturn, -⟩ := turn_spec h s
      exact ⟨arg, _, hturn⟩
    · split at hit
      next => exact ih hit
      next => cases hit

theorem flatten_eq {α : Type} (f g : List Event → List α) (hf : f [] = g [])
    (hfa : ∀ xs ys, f (xs ++ ys) = f xs ++ f ys) (hga : ∀ xs ys, g (xs ++ ys) = g xs ++ g ys)
    (its : List (List Event)) (h : ∀ it ∈ its, f it = g it) : f its.flatten = g its.flatten := by
  induction its with
  | nil => exact hf
  | cons it its ih =>
    rw [List.flatten_cons, hfa, hga, h it (by simp), ih fun x hx => h x (by simp [hx])]

/-- The calls of an iteration come in the order of the source, the post-filter is called once
and last, with the conjunction of the four results, and there is a further iteration exactly
when it returns true. -/
structure PostDecides (n : ℕ) (its : List (List Event)) (ended : Bool) : Prop where
  order : ∀ it ∈ its, ∃ arg res, Turn it arg res
  once : ∀ it ∈ its, ∃ res, posts it = [((results it).all id, res)]
  goesOn : ∀ xs it ys, its = xs ++ it :: ys → ys ≠ [] → (posts it).map (·.2) = [true]
  stops : ended = true ↔ ∃ xs it, its = xs ++ [it] ∧ (posts it).map (·.2) = [false]
  runsOn : ended = false → its.length = n

theorem posts_turn (h : Hooks σ) (s : σ × MsgBuf) :
    (posts (turn h s)).map (·.2) = [(filter h s).1] := by
  obtain ⟨arg, s', hturn, -⟩ := turn_spec h s
  rw [hturn.posts_eq]
  rfl

theorem turns_goesOn (h : Hooks σ) (n : ℕ) (s : σ × MsgBuf) {xs ys : List (List Event)}
    {it : List Event} (he : turns h n s = xs ++ it :: ys) (hy : ys ≠ []) :
    (posts it).map (·.2) = [true] := by
  induction n generalizing s xs with
  | zero => simp [turns] at he
  | succ n ih =>
    rw [turns] at he
    cases hr : (filter h s).1 with
    | false =>
      -- a single iteration: nothing can stand after it
      rw [hr] at he
      cases xs with
      | nil => exact absurd (List.cons.inj he).2.symm hy
      | cons x xs => simp at he
    | true =>
      rw [hr] at he
      cases xs with
      | nil =>
        rw [← (List.cons.inj he).1, posts_turn, hr]
      | cons x xs => exact ih (filter h s).2 (List.cons.inj he).2

theorem turns_stops (h : Hooks σ) (n : ℕ) (s : σ × MsgBuf) :
    (filterLoop h n s).isSome = true ↔
      ∃ xs it, turns h n s = xs ++ [it] ∧ (posts it).map (·.2) = [false] := by
  induction n generalizing s with
  | zero => simp [filterLoop, turns]
  | succ n ih =>
    rw [turns, filterLoop]
    cases hr : (filter h s).1 with
    | false =>
      refine iff_of_true rfl ⟨[], turn h s, rfl, ?_⟩
      rw [posts_turn, hr]
    | true =>
      simp only [↓reduceIte]
      rw [ih]
      constructor
      · rintro ⟨xs, it, he, hit⟩
        exact ⟨turn h s :: xs, it, by rw [he]; rfl, hit⟩
      · rintro ⟨xs, it, he, hit⟩
        cases xs with
        | nil =>
          rw [← (List.cons.inj he).1, posts_turn, hr] at hit
          cases hit
        | cons x xs => exact ⟨xs, it, (List.cons.inj he).2, hit⟩

theorem turns_length (h : Hooks σ) (n : ℕ) (s : σ × MsgBuf)
    (hn : (filterLoop h n s).isSome = false) : (turns h n s).length = n := by
  induction n generalizing s with
  | zero => rfl
  | succ n ih =>
    rw [turns]
    rw [filterLoop] at hn
    cases hr : (filter h s).1 with
    | false => simp [hr] at hn
    | true =>
      rw [hr] at hn
      simpa using ih (filter h s).2 hn

theorem postDecides (h : Hooks σ) (n : ℕ) (s : σ × MsgBuf) :
    PostDecides n (turns h n s) (filterLoop h n s).isSome where
  order := fun _ hit => turns_turn hit
  once := by
    intro it hit
    obtain ⟨arg, res, hturn⟩ := turns_turn hit
    exact ⟨res, hturn.posts_eq⟩
  goesOn := fun _ _ _ he hy => turns_goesOn h n s he hy
  stops := turns_stops h n s
  runsOn := turns_length h n s

/-- The messages of the iterations in which no `Put` returned true. -/
def lost (its : List (List Event)) : List MsgBuf :=
  (its.filter fun it => (accepted it).isEmpty).flatMap obtained

/-- Every message obtained is given to the filter function and what this makes of those it
returns true for is what is passed to `Put`, in the same order and once. All iterations but the
last succeed, so only the last message obtained can be lost. -/
structure Delivers (its : List (List Event)) : Prop where
  given : (filtered its.flatten).map (·.1) = obtained its.flatten
  image : passed its.flatten = ((filtered its.flatten).filter (·.2.1)).map (·.2.2)
  putLast : ∀ it ∈ its, ∀ msg r, Event.put msg r ∈ it →
    ∃ before res, it = [.preFilter true, .get true before, .filterFunc before true msg,
      .put msg r, .postFilter r res]
  allTrue : ∃ init last, its = init ++ [last] ∧
    ∀ it ∈ init, results it = [true, true, true, true]
  lostLast : lost its = [] ∨
    ∃ msg, lost its = [msg] ∧ (obtained its.flatten).getLast? = some msg

theorem turns_given (h : Hooks σ) (n : ℕ) (s : σ × MsgBuf) :
    (filtered (turns h n s).flatten).map (·.1) = obtained (turns h n s).flatten := by
  refine flatten_eq (fun es => (filtered es).map (·.1)) obtained rfl ?_ ?_ _ ?_
  · intro xs ys
    simp [filtered]
  · intro xs ys
    simp [obtained]
  · intro it hit
    obtain ⟨arg, res, hturn⟩ := turns_turn hit
    exact hturn.filtered_obtained

theorem turns_image (h : Hooks σ) (n : ℕ) (s : σ × MsgBuf) :
    passed (turns h n s).flatten =
      ((filtered (turns h n s).flatten).filter (·.2.1)).map (·.2.2) := by
  refine flatten_eq passed (fun es => ((filtered es).filter (·.2.1)).map (·.2.2)) rfl ?_ ?_ _ ?_
  · intro xs ys
    simp [passed]
  · intro xs ys
    simp [filtered]
  · intro it hit
    obtain ⟨arg, res, hturn⟩ := turns_turn hit
    exact hturn.passed_eq

theorem turns_allTrue (h : Hooks σ) (hpost : h.postFilter = defaultPost) (n : ℕ)
    (s : σ × MsgBuf) (hend : (filterLoop h n s).isSome = true) :
    ∃ init last, turns h n s = init ++ [last] ∧ ∀ it ∈ init, ∃ res, Turn it true res := by
  induction n generalizing s with
  | zero => cases hend
  | succ n ih =>
    rw [turns]
    rw [filterLoop] at hend
    cases hr : (filter h s).1 with
    | false => exact ⟨[], turn h s, rfl, fun it hit => absurd hit (List.not_mem_nil)⟩
    | true =>
      rw [hr] at hend
      obtain ⟨init, last, he, hinit⟩ := ih (filter h s).2 hend
      refine ⟨turn h s :: init, last, by simp [he], ?_⟩
      intro it hit
      rcases List.mem_cons.mp hit with rfl | hit
      · obtain ⟨arg, s', hturn, hf⟩ := turn_spec h s
        have harg : arg = true := by
          rw [hpost, defaultPost] at hf
          rw [hf] at hr
          exact hr
        exact ⟨_, harg ▸ hturn⟩
      · exact hinit it hit

theorem lost_snoc {init : List (List Event)} (last : List Event)
    (hinit : ∀ it ∈ init, accepted it ≠ []) :
    lost (init ++ [last]) = if (accepted last).isEmpty then obtained last else [] := by
  have hnone : init.filter (fun it => (accepted it).isEmpty) = [] := by
    rw [List.filter_eq_nil_iff]
    intro it hit
    simpa using hinit it hit
  rw [lost, List.filter_append, hnone, List.nil_append]
  cases hl : (accepted last).isEmpty with
  | true => simp [hl]
  | false => simp [hl]

theorem delivers (h : Hooks σ) (hpost : h.postFilter = defaultPost) (n : ℕ)
    (s : σ × MsgBuf) (hend : (filterLoop h n s).isSome = true) : Delivers (turns h n s) where
  given := turns_given h n s
  image := turns_image h n s
  putLast := by
    intro it hit msg r hput
    obtain ⟨arg, res, hturn⟩ := turns_turn hit
    obtain ⟨before, hit⟩ := hturn.put_last hput
    exact ⟨before, res, hit⟩
  allTrue := by
    obtain ⟨init, last, he, hinit⟩ := turns_allTrue h hpost n s hend
    refine ⟨init, last, he, fun it hit => ?_⟩
    obtain ⟨res, hturn⟩ := hinit it hit
    exact hturn.all_true.1
  lostLast := by
    obtain ⟨init, last, he, hinit⟩ := turns_allTrue h hpost n s hend
    have hmem : last ∈ turns h n s := by simp [he]
    obtain ⟨arg, res, hlast⟩ := turns_turn hmem
    have hlost := lost_snoc last fun it hit => (hinit it hit).elim fun _ ht => ht.all_true.2
    rw [he, hlost]
    split
    next =>
      -- the last iteration obtained one message or none
      match hm : obtained last, hlast.obtained_le with
      | [], _ => exact .inl rfl
      | [msg], _ =>
        refine .inr ⟨msg, rfl, ?_⟩
        have happ : obtained (init ++ [last]).flatten = obtained init.flatten ++ obtained last := by
          simp [obtained]
        rw [happ, hm, List.getLast?_concat]
    next => exact .inl rfl

/-- What the loop calls: whatever the post-filter is, it alone decides how often the loop
turns; with the default one, what is obtained is filtered and passed on in order, and at
most the last message is lost when the loop ends. -/
theorem filterLoop_trace (h : Hooks σ) (n : ℕ) (s : σ × MsgBuf) :
    filterLoop (traced h) n (([], s.1), s.2) =
      (filterLoop h n s).map (fun t => (((turns h n s).flatten, t.1), t.2)) ∧
    PostDecides n (turns h n s) (filterLoop h n s).isSome ∧
    (h.postFilter = defaultPost → (filterLoop h n s).isSome = true → Delivers (turns h n s)) :=
  ⟨by rw [filterLoop_traced]; simp only [List.nil_append], postDecides h n s,
    fun hpost hend => delivers h hpost n s hend⟩

/-- An input of as many messages as the first number says, each of them that long, and an
output that has room for as many as the second. -/
def counted : Hooks (ℕ × ℕ) where
  preFilter := always
  get s := (decide (0 < s.1.1), (s.1.1 - 1, s.1.2), { s.2 with len := s.1.1 })
  filterFunc s := (true, s.1, { s.2 with len := s.2.len + 1 })
  put s := (decide (0 < s.1.2), (s.1.1, s.1.2 - 1), s.2)
  postFilter := defaultPost

theorem counted_delivers :
    Delivers (turns counted 5 ((3, 1), ⟨0, fun _ => 0, 0⟩)) ∧
    (obtained (turns counted 5 ((3, 1), ⟨0, fun _ => 0, 0⟩)).flatten).map MsgBuf.len = [3, 2] ∧
    (passed (turns counted 5 ((3, 1), ⟨0, fun _ => 0, 0⟩)).flatten).map MsgBuf.len = [4, 3] ∧
    (lost (turns counted 5 ((3, 1), ⟨0, fun _ => 0, 0⟩))).map MsgBuf.len = [2] :=
  ⟨(filterLoop_trace counted 5 _).2.2 rfl (by decide), by decide, by decide, by decide⟩

end Wissbi.FilterTrace
