import Wissbi.Delivery

set_option autoImplicit false

namespace Wissbi.DeliveryProgress
open Buffers Delivery DeliveryMachine Framing Interleavings Runs Streams TcpFraming TcpPolicy
open ThreadPool

/-- A `write` that takes no byte changes nothing; every other step moves something. -/
def moves : Act → Bool
  | .lane _ (.write n) => n != 0
  | _ => true

def inputWork (l : Lane) : ℕ :=
  match l.input with
  | .getting => 18 * l.stream.data.length + 1
  | .putting => 18 * l.stream.data.length + 3 * l.msgBuf.data.length + 15
  | .returned => 0

def laneWork (l : Lane) : ℕ :=
  inputWork l + total (fun m : Msg => 3 * m.length + 13) l.queue + 3 * (unwritten l).length +
    2 * l.wire.length + (halfRead l).length + 3 * (inReader l).length

def subWork (b : Subscriber) : ℕ := 2 * b.queue.length + (held b).length

def work (s : State) : ℕ := total laneWork s.lanes + subWork s.sub

theorem feeds_consumes {fmt : Format} {s : IStream} {m : Msg} {rest : List Msg}
    (h : Feeds fmt s (m :: rest)) (hm : fmt.Legal m) (msg : MsgBuf) :
    (fmt.get s msg).rest.data.length + m.length ≤ s.data.length := by
  cases fmt with
  | line =>
    obtain ⟨hs, hl⟩ := h
    have hne : s.data ≠ [] := by
      intro he
      simp [he, LinePolicy.lines] at hl
    rw [LinePolicy.lines_cons _ hne] at hl
    obtain ⟨hhead, -⟩ := List.cons.inj hl
    have hdec : LinePolicy.decode s.data =
        some (LinePolicy.head s.data, (LinePolicy.tail s.data).tail) := by
      have hfits := hm.2.1
      rw [← hhead] at hfits
      rw [LinePolicy.decode, if_neg (by simp only [hne, false_or]; omega)]
    obtain ⟨-, -, -, hdata⟩ := LinePolicy.get_of_decode s msg _ _ hs hdec
    have hsplit := congrArg List.length (LinePolicy.head_tail s.data)
    change (LinePolicy.get s msg).rest.data.length + m.length ≤ s.data.length
    rw [hdata, ← hhead, List.length_tail]
    rw [List.length_append] at hsplit
    omega
  | length =>
    obtain ⟨-, -, -, hnext⟩ := feeds_cons h hm msg
    rw [hnext, h.2, List.flatMap_cons, List.length_append, LengthPolicy.enc, List.length_append]
    omega

theorem get_work {src : Source} {l l' : Lane} {sent out : List Msg} (hl : LaneOk src l sent)
    (h : l.step .get = some (l', out)) : laneWork l' + 2 * out.length + 1 ≤ laneWork l := by
  obtain ⟨hfmt, -, onWay, rest, horder, -, hunread⟩ := hl
  simp only [Lane.step] at h
  split at h
  next hin =>
    cases h
    have hfeeds : Feeds l.fmt l.stream rest := by simpa [Unread, hin] using hunread
    cases rest with
    | nil =>
      have hok := feeds_nil hfeeds l.msgBuf
      simp [laneWork, inputWork, unwritten, halfRead, inReader, hin, hok]
    | cons m rest =>
      have hlegal : l.fmt.Legal m := by
        rw [hfmt]
        exact src.legal m (by simp [horder])
      obtain ⟨hok, hdata, -⟩ := feeds_cons hfeeds hlegal l.msgBuf
      have hcost := feeds_consumes hfeeds hlegal l.msgBuf
      have hpos := List.length_pos_of_ne_nil (legal_size hlegal).1
      simp [laneWork, inputWork, unwritten, halfRead, inReader, hin, hok, hdata]
      omega
  next => cases h

theorem put_work {l l' : Lane} {out : List Msg} (h : l.step .put = some (l', out)) :
    laneWork l' + 2 * out.length + 1 ≤ laneWork l := by
  simp only [Lane.step] at h
  split at h
  next hin =>
    cases h
    simp [laneWork, inputWork, unwritten, halfRead, inReader, hin]
    omega
  next => cases h

theorem msgrcv_work {src : Source} {l l' : Lane} {sent out : List Msg} (hl : LaneOk src l sent)
    (h : l.step .msgrcv = some (l', out)) : laneWork l' + 2 * out.length + 1 ≤ laneWork l := by
  obtain ⟨-, -, onWay, rest, horder, -, -⟩ := hl
  simp only [Lane.step] at h
  split at h
  next m queue hp hq =>
    have hsize := legal_size (src.legal m (by simp [horder, hq]))
    have hr : SysvMqPolicy.msgrcv false l.queue = some (m, queue) := by
      simp [SysvMqPolicy.msgrcv, hq, hsize.2]
    rw [hr] at h
    cases h
    have hframe := frame_length m
    simp [laneWork, inputWork, unwritten, halfRead, inReader, hp, hq, hsize.1, hframe]
    omega
  next => cases h

theorem offered_pos {m : Msg} {k n : ℕ} (hk : k < (frame m).length) (hn : n ≠ 0) :
    0 < ((offered m k).take n).length := by
  rw [frame_length] at hk
  rw [List.length_take, offered]
  split
  · rw [List.length_drop, htonl_length]
    omega
  · rw [List.length_drop]
    omega

theorem write_work {src : Source} {l l' : Lane} {sent out : List Msg} {n : ℕ}
    (hl : LaneOk src l sent) (h : l.step (.write n) = some (l', out)) :
    laneWork l' + 2 * out.length + (if n != 0 then 1 else 0) ≤ laneWork l := by
  simp only [Lane.step] at h
  split at h
  next m k hp =>
    cases h
    have hk := hl.shaped.writing m k hp
    have hrest := congrArg List.length (offered_rest m k n)
    rw [List.length_append] at hrest
    have hleft : (unwritten { l with
        wire := l.wire ++ (offered m k).take n
        producer :=
          if k + ((offered m k).take n).length = (frame m).length then .waiting
          else .writing m (k + ((offered m k).take n).length) }).length =
        ((frame m).drop (k + ((offered m k).take n).length)).length := by
      by_cases hend : k + ((offered m k).take n).length = (frame m).length
      · simp only [unwritten, if_pos hend]
        rw [hend, List.drop_length]
      · simp only [unwritten, if_neg hend]
    have hwas : (unwritten l).length = ((frame m).drop k).length := by simp only [unwritten, hp]
    have hmoved : (if n != 0 then 1 else 0) ≤ ((offered m k).take n).length := by
      split
      next hn => exact offered_pos hk (by simpa using hn)
      next => exact Nat.zero_le _
    simp only [laneWork, hleft, hwas, inputWork, halfRead, inReader, List.length_append,
      List.length_nil]
    omega
  next => cases h

theorem read_bytes {wire : List UInt8} {n : ℕ} (h : wire.take n ≠ []) :
    0 < (wire.take n).length ∧
      (wire.drop (wire.take n).length).length + (wire.take n).length = wire.length := by
  refine ⟨List.length_pos_of_ne_nil h, ?_⟩
  rw [List.length_drop, List.length_take]
  omega

theorem read_work {l l' : Lane} {out : List Msg} {n : ℕ}
    (h : l.step (.read n) = some (l', out)) : laneWork l' + 2 * out.length + 1 ≤ laneWork l := by
  simp only [Lane.step] at h
  split at h
  next got hr =>
    split at h
    next => cases h
    next hne =>
      cases h
      obtain ⟨hpos, hlen⟩ := read_bytes hne
      by_cases hfull : (got ++ l.wire.take (min n (4 - got.length))).length = 4
      · rw [if_pos hfull]
        simp only [laneWork, inputWork, unwritten, halfRead, inReader, hr, List.length_append,
          List.length_nil]
        omega
      · rw [if_neg hfull]
        simp only [laneWork, inputWork, unwritten, halfRead, inReader, hr, List.length_append,
          List.length_nil]
        omega
  next header got hr =>
    split at h
    next => cases h
    next hne =>
      cases h
      obtain ⟨hpos, hlen⟩ := read_bytes hne
      simp only [laneWork, inputWork, unwritten, halfRead, inReader, hr, List.length_append,
        List.length_nil]
      omega
  next => cases h

theorem readEnd_work {l l' : Lane} {out : List Msg} (hs : Shaped l)
    (h : l.step .readEnd = some (l', out)) : laneWork l' + 2 * out.length + 1 ≤ laneWork l := by
  simp only [Lane.step] at h
  split at h
  next header got hr =>
    split at h
    next =>
      cases h
      obtain ⟨hlen, -⟩ := hs.body header got hr
      simp only [laneWork, inputWork, unwritten, halfRead, inReader, hr, List.length_append,
        List.length_nil, List.length_singleton]
      omega
    next => cases h
  next => cases h

theorem msgsnd_work {l l' : Lane} {out : List Msg} (h : l.step .msgsnd = some (l', out)) :
    laneWork l' + 2 * out.length + 1 ≤ laneWork l := by
  simp only [Lane.step] at h
  split at h
  next m hr =>
    cases h
    simp only [laneWork, inputWork, unwritten, halfRead, inReader, hr, List.length_nil,
      List.length_singleton]
    omega
  next => cases h

theorem lane_work {src : Source} {l l' : Lane} {sent out : List Msg} {a : LaneAct}
    (hl : LaneOk src l sent) (h : l.step a = some (l', out)) (i : ℕ) :
    laneWork l' + 2 * out.length + (if moves (.lane i a) then 1 else 0) ≤ laneWork l := by
  cases a with
  | get => exact get_work hl h
  | put => exact put_work h
  | msgrcv => exact msgrcv_work hl h
  | write n => exact write_work hl h
  | read n => exact read_work h
  | readEnd => exact readEnd_work hl.shaped h
  | msgsnd => exact msgsnd_work h

theorem writerGet_work {b b' : Subscriber} (hsize : ∀ m ∈ b.queue, m.length ≤ maxMsgSize)
    (h : b.get = some b') : subWork b' + 1 ≤ subWork b := by
  unfold Subscriber.get at h
  split at h
  next m queue hw hq =>
    have hr : SysvMqPolicy.msgrcv false b.queue = some (m, queue) := by
      simp [SysvMqPolicy.msgrcv, hq, hsize m (by simp [hq])]
    obtain ⟨hok, -, hrest⟩ := SysvMqPolicy.get_data b.msgBuf hr
    cases h
    simp only [subWork, held, hok, hrest, hw, ↓reduceIte]
    simp only [hq, List.length_cons, List.length_nil]
    omega
  next => cases h

theorem writerPut_work {b b' : Subscriber} (h : b.put = some b') :
    subWork b' + 1 ≤ subWork b := by
  unfold Subscriber.put at h
  split at h
  next hw =>
    cases h
    simp only [subWork, held, hw, List.length_singleton]
    cases (b.fmt.put b.stdout b.msgBuf).1 with
    | false => simp
    | true => simp
  next => cases h

theorem step_work {sources : List Source} {out : Format} (s : State) (a : Act) (t : State)
    (hs : ∃ tracks printed, Flows sources out s tracks printed) (h : step s a = some t) :
    work t + (if moves a then 1 else 0) ≤ work s := by
  obtain ⟨tracks, printed, hs⟩ := hs
  cases a with
  | lane i a =>
    obtain ⟨l, hl, h⟩ := Option.bind_eq_some_iff.mp h
    obtain ⟨⟨l', emitted⟩, hr, rfl⟩ := Option.map_eq_some_iff.mp h
    have hi := hl
    rw [← hs.lanes, List.getElem?_map] at hi
    obtain ⟨track, -, rfl⟩ := Option.map_eq_some_iff.mp hi
    have hdown := lane_work track.ok hr i
    have hset := total_set laneWork hl l'
    have hheld : held { s.sub with queue := s.sub.queue ++ emitted } = held s.sub := rfl
    simp only [work, subWork, hheld, List.length_append]
    omega
  | writerGet =>
    obtain ⟨b, hb, rfl⟩ := Option.map_eq_some_iff.mp h
    have hdown := writerGet_work
      (fun m hm => (queued_size hs (List.mem_append_right _ hm)).2) hb
    simp only [work, moves, ↓reduceIte]
    omega
  | writerPut =>
    obtain ⟨b, hb, rfl⟩ := Option.map_eq_some_iff.mp h
    have hdown := writerPut_work hb
    simp only [work, moves, ↓reduceIte]
    omega

structure Idle (l : Lane) : Prop where
  input : l.input = .returned
  branch : l.queue = [] ∧ l.producer = .waiting
  socket : l.wire = [] ∧ l.reader = .header []

theorem idle_input {l : Lane} (h : ∀ a, l.step a = none) : l.input = .returned := by
  cases hin : l.input with
  | getting => simpa [Lane.step, hin] using h .get
  | putting => simpa [Lane.step, hin] using h .put
  | returned => rfl

theorem idle_branch {src : Source} {l : Lane} {sent : List Msg} (hl : LaneOk src l sent)
    (h : ∀ a, l.step a = none) : l.queue = [] ∧ l.producer = .waiting := by
  cases hp : l.producer with
  | waiting =>
    cases hq : l.queue with
    | nil => exact ⟨rfl, rfl⟩
    | cons m queue =>
      have hnone := h .msgrcv
      simp only [Lane.step, hp, hq] at hnone
      split at hnone <;> cases hnone
  | writing m k => simpa [Lane.step, hp] using h (.write 0)
  | stopped => exact absurd hp hl.shaped.running

/-- A reader that can read no further has used up the connection. -/
theorem idle_wire {src : Source} {l : Lane} {sent : List Msg} (hl : LaneOk src l sent)
    (h : ∀ a, l.step a = none) : l.wire = [] := by
  by_contra hne
  have hpos := List.length_pos_of_ne_nil hne
  cases hr : l.reader with
  | header got =>
    have hlt := hl.shaped.header got hr
    have hnone := h (.read 1)
    simp only [Lane.step, hr] at hnone
    rw [if_neg (List.ne_nil_of_length_pos (by rw [List.length_take]; omega))] at hnone
    cases hnone
  | body header got =>
    have hlt := (hl.shaped.body header got hr).2
    by_cases hfull : got.length = ntohl header
    · simpa [Lane.step, hr, hfull] using h .readEnd
    · have hnone := h (.read 1)
      simp only [Lane.step, hr] at hnone
      rw [if_neg (List.ne_nil_of_length_pos (by rw [List.length_take]; omega))] at hnone
      cases hnone
  | putting m => simpa [Lane.step, hr] using h .msgsnd

theorem idle_reader {src : Source} {l : Lane} {sent : List Msg} (hl : LaneOk src l sent)
    (h : ∀ a, l.step a = none) : l.reader = .header [] := by
  obtain ⟨onWay, rest, horder, hbytes, -⟩ := hl.order
  have hwire := idle_wire hl h
  have hp := (idle_branch hl h).2
  have hwhole : halfRead l = onWay.flatMap frame := by
    simpa [hwire, unwritten, hp] using hbytes
  cases hr : l.reader with
  | header got =>
    have hlt := hl.shaped.header got hr
    simp only [halfRead, hr] at hwhole
    cases onWay with
    | nil => rw [hwhole, List.flatMap_nil]
    | cons m onWay =>
      rw [hwhole, List.flatMap_cons, List.length_append, frame_length] at hlt
      omega
  | body header got =>
    obtain ⟨hlen, hle⟩ := hl.shaped.body header got hr
    simp only [halfRead, hr] at hwhole
    have hlong := congrArg List.length hwhole
    cases onWay with
    | nil => simp [hlen] at hlong
    | cons m onWay =>
      have hsize := legal_size (src.legal m (by simp [horder]))
      have hcode : ntohl header = m.length := by
        rw [List.flatMap_cons, frame, List.append_assoc] at hwhole
        rw [(List.append_inj hwhole hlen).1]
        exact ntohl_htonl _ (Nat.lt_of_le_of_lt hsize.2 (by decide))
      rw [List.flatMap_cons, List.length_append, List.length_append, frame_length] at hlong
      simpa [Lane.step, hr, show got.length = ntohl header by omega] using h .readEnd
  | putting m => simpa [Lane.step, hr] using h .msgsnd

theorem idle_of_stuck {src : Source} {l : Lane} {sent : List Msg} (hl : LaneOk src l sent)
    (h : ∀ a, l.step a = none) : Idle l :=
  ⟨idle_input h, idle_branch hl h, idle_wire hl h, idle_reader hl h⟩

theorem writer_idle {b : Subscriber} (hrun : b.writer ≠ .stopped) (hget : b.get = none)
    (hput : b.put = none) : b.queue = [] ∧ b.writer = .getting := by
  cases hw : b.writer with
  | getting =>
    cases hq : b.queue with
    | nil => exact ⟨rfl, rfl⟩
    | cons m queue => simp [Subscriber.get, hw, hq] at hget
  | putting => simp [Subscriber.put, hw] at hput
  | stopped => exact absurd hw hrun

theorem drained_of_stuck {sources : List Source} {out : Format} {s : State} {tracks : List Track}
    {printed : List Msg} (hs : Flows sources out s tracks printed) (h : ∀ a, step s a = none) :
    Drained s := by
  have hidle : ∀ l ∈ s.lanes, Idle l := by
    intro l hl
    obtain ⟨i, hi⟩ := List.mem_iff_getElem?.mp hl
    rw [← hs.lanes] at hl
    obtain ⟨t, -, rfl⟩ := List.mem_map.mp hl
    refine idle_of_stuck t.ok fun a => ?_
    simpa [step, hi] using h (.lane i a)
  have hget : s.sub.get = none := by simpa [step] using h .writerGet
  have hput : s.sub.put = none := by simpa [step] using h .writerPut
  obtain ⟨hq, hw⟩ := writer_idle hs.running hget hput
  refine ⟨fun l hl => (hidle l hl).input, fun l hl => ?_, fun l hl => ?_, hq, by simp [held, hw]⟩
  · simp [unwritten, (hidle l hl).branch]
  · simp [halfRead, inReader, (hidle l hl).socket]

theorem waiting_of_written {l : Lane} (hl : Shaped l) (h : unwritten l = []) :
    l.producer = .waiting := by
  cases hp : l.producer with
  | waiting => rfl
  | writing m k =>
    have hlt := hl.writing m k hp
    simp only [unwritten, hp, List.drop_eq_nil_iff] at h
    omega
  | stopped => exact absurd hp hl.running

theorem header_of_empty {l : Lane} (hl : Shaped l) (h : halfRead l = []) (hr : inReader l = []) :
    l.reader = .header [] := by
  cases he : l.reader with
  | header got => simpa [halfRead, he] using h
  | body header got =>
    have hlen := (hl.body header got he).1
    simp only [halfRead, he, List.append_eq_nil_iff] at h
    simp [h.1] at hlen
  | putting m => simp [inReader, he] at hr

theorem stuck_of_drained {sources : List Source} {out : Format} {s : State} {tracks : List Track}
    {printed : List Msg} (hs : Flows sources out s tracks printed) (hd : Drained s) (a : Act) :
    step s a = none := by
  cases a with
  | lane i a =>
    simp only [step, Option.bind_eq_none_iff, Option.map_eq_none_iff]
    intro l hl
    have hmem := List.mem_of_getElem? hl
    have hshape : Shaped l := by
      rw [← hs.lanes] at hmem
      obtain ⟨t, -, rfl⟩ := List.mem_map.mp hmem
      exact t.ok.shaped
    have hin := hd.input l hmem
    obtain ⟨hq, hwritten⟩ := hd.branch l hmem
    obtain ⟨hw, hhalf, hhand⟩ := hd.socket l hmem
    have hp := waiting_of_written hshape hwritten
    have hr := header_of_empty hshape hhalf hhand
    cases a <;> simp [Lane.step, hin, hq, hp, hw, hr]
  | writerGet => simp [step, Subscriber.get, hd.queue]
  | writerPut =>
    have hheld := hd.writer
    cases hw : s.sub.writer with
    | putting => simp [held, hw] at hheld
    | getting => simp [step, Subscriber.put, hw]
    | stopped => simp [step, Subscriber.put, hw]

theorem printed_of_stuck {sources : List Source} {out : Format} {s : State} {tracks : List Track}
    {printed : List Msg} (hs : Flows sources out s tracks printed) (h : ∀ a, step s a = none) :
    Interleaves (sources.map Source.msgs) printed := by
  have hd := drained_of_stuck hs h
  have hsent : tracks.map Track.sent = sources.map Source.msgs := by
    rw [← hs.sources, List.map_map]
    refine List.map_congr_left fun t ht => drained_sent hd t ?_
    rw [← hs.lanes]
    exact List.mem_map_of_mem ht
  simpa [hsent, hd.queue, hd.writer] using hs.merged

theorem step_moves {s t : State} {a : Act} (h : step s a = some t) :
    ∃ b u, step s b = some u ∧ moves b = true := by
  by_cases hm : moves a = true
  · exact ⟨a, t, h, hm⟩
  · cases a with
    | lane i a =>
      cases a with
      | write n =>
        obtain ⟨l, hl, h⟩ := Option.bind_eq_some_iff.mp h
        obtain ⟨r, hr, -⟩ := Option.map_eq_some_iff.mp h
        simp only [Lane.step] at hr
        split at hr
        next m k hp => exact ⟨.lane i (.write 1), _, by simp [step, hl, Lane.step, hp]; rfl, rfl⟩
        next => cases hr
      | _ => exact absurd rfl hm
    | _ => exact absurd rfl hm

theorem start_work (sources : List Source) (out : Format) (msgBuf : MsgBuf) :
    work (start sources out msgBuf) =
      (sources.map fun src => 18 * src.bytes.length + 1).sum := by
  simp [work, start, subWork, held, total, Function.comp_def, Source.lane, laneWork, inputWork,
    unwritten, halfRead, inReader, IStream.ofBytes]

/-- No run has more than eighteen moving steps for each byte of input and one for each publisher,
every run can be continued to its end, and a run that cannot go on has delivered everything. -/
theorem every_run_delivers (sources : List Source) (out : Format) (msgBuf : MsgBuf)
    (acts : List Act) (s : State) (h : run step (start sources out msgBuf) acts = some s) :
    acts.countP moves ≤ (sources.map fun src => 18 * src.bytes.length + 1).sum ∧
    (∃ t, Reaches step s t ∧ ∀ a, step t a = none) ∧
    ((∀ a, step s a = none) → Drained s ∧ Running s ∧ ∃ printed,
      Interleaves (sources.map Source.msgs) printed ∧
      s.sub.stdout = printed.flatMap out.enc) := by
  have hflows := run_flows h
  refine ⟨?_, ?_, ?_⟩
  · have hstart := run_flows (show run step (start sources out msgBuf) [] = some _ from rfl)
    have hcount := run_countP_le (fun t => ∃ tracks printed, Flows sources out t tracks printed)
      step_flows work moves step_work h hstart
    rw [start_work] at hcount
    exact Nat.le_of_add_right_le hcount
  · refine reaches_of_measure (fun t => ∃ tracks printed, Flows sources out t tracks printed) _
      work (fun t ht hgo => ?_) hflows
    push Not at hgo
    obtain ⟨a, ha⟩ := hgo
    obtain ⟨u, hu⟩ := Option.ne_none_iff_exists'.mp ha
    obtain ⟨b, v, hv, hmoves⟩ := step_moves hu
    have hdown := step_work t b v ht hv
    rw [if_pos hmoves] at hdown
    exact ⟨b, v, hv, step_flows t b v ht hv, hdown⟩
  · intro hstuck
    obtain ⟨tracks, printed, hs⟩ := hflows
    exact ⟨drained_of_stuck hs hstuck, flows_running hs, printed, printed_of_stuck hs hstuck,
      hs.stdout⟩

theorem overtaking_ends :
    ∃ s, run step (start [lineSource, lengthSource] .line ⟨0, fun _ => 0, 0⟩) overtaking = some s ∧
      (∀ a, step s a = none) ∧ overtaking.countP moves ≤ 92 ∧
      ∃ printed, Interleaves [[[97]], [[98]]] printed ∧
        s.sub.stdout = printed.flatMap LinePolicy.enc := by
  obtain ⟨s, hrun, hdrained⟩ : ∃ s,
      run step (start [lineSource, lengthSource] .line ⟨0, fun _ => 0, 0⟩) overtaking = some s ∧
        Drained s :=
    ⟨_, rfl, by decide, by decide, by decide, rfl, rfl⟩
  obtain ⟨tracks, printed, hs⟩ := run_flows hrun
  have hstuck := stuck_of_drained hs hdrained
  obtain ⟨hcount, -, hout⟩ := every_run_delivers _ .line _ overtaking s hrun
  exact ⟨s, hrun, hstuck, hcount, (hout hstuck).2.2⟩

end Wissbi.DeliveryProgress
