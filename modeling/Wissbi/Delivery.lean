import Wissbi.DeliveryMachine
import Wissbi.Interleavings
import Wissbi.TcpFraming
import Wissbi.ThreadPool

set_option autoImplicit false

namespace Wissbi.Delivery
open Buffers DeliveryMachine Framing Interleavings Runs Streams TcpFraming TcpPolicy ThreadPool

def Feeds : Format → IStream → List Msg → Prop
  | .line, s, rest => LinePolicy.Clean s ∧ LinePolicy.lines s.data = rest
  | .length, s, rest => s.good = true ∧ s.data = rest.flatMap LengthPolicy.enc

theorem legal_size {fmt : Format} {m : Msg} (h : fmt.Legal m) :
    m ≠ [] ∧ m.length ≤ maxMsgSize := by
  cases fmt with
  | line => exact ⟨List.ne_nil_of_length_pos h.1, Nat.le_trans h.2.1 (Nat.sub_le _ _)⟩
  | length => exact ⟨List.ne_nil_of_length_pos h.1, h.2⟩

theorem feeds_start (src : Source) : Feeds src.fmt (IStream.ofBytes src.bytes) src.msgs := by
  have h := src.carries
  cases hf : src.fmt with
  | line =>
    rw [hf] at h
    exact ⟨LinePolicy.clean_ofBytes _, h⟩
  | length =>
    rw [hf] at h
    exact ⟨rfl, h⟩

theorem feeds_nil {fmt : Format} {s : IStream} (h : Feeds fmt s []) (msg : MsgBuf) :
    (fmt.get s msg).ok = false := by
  cases fmt with
  | line =>
    have hd : s.data = [] := by
      by_contra hne
      have hl := LinePolicy.lines_cons s.data hne
      rw [h.2] at hl
      cases hl
    refine (LinePolicy.get_of_decode_none s msg ?_).1
    simp [LinePolicy.decode, hd]
  | length => exact (LengthPolicy.get_ok s msg).trans (LengthPolicy.readInt_nil s h.2)

theorem feeds_cons {fmt : Format} {s : IStream} {m : Msg} {rest : List Msg}
    (h : Feeds fmt s (m :: rest)) (hm : fmt.Legal m) (msg : MsgBuf) :
    (fmt.get s msg).ok = true ∧ (fmt.get s msg).msg.data = m ∧
      Feeds fmt (fmt.get s msg).rest rest := by
  cases fmt with
  | line =>
    obtain ⟨hs, hl⟩ := h
    cases hd : LinePolicy.decode s.data with
    | none =>
      rcases LinePolicy.decode_none_lines _ hd with he | ⟨l, ls, he, hlong⟩
      · rw [hl] at he
        cases he
      · rw [hl] at he
        cases he
        exact absurd hm.2.1 (Nat.not_le.mpr hlong)
    | some p =>
      obtain ⟨he, -⟩ := LinePolicy.decode_lines _ p.1 p.2 hd
      rw [hl] at he
      cases he
      obtain ⟨h₁, h₂, h₃, h₄⟩ := LinePolicy.get_of_decode s msg p.1 p.2 hs hd
      exact ⟨h₁, h₂, h₃, congrArg LinePolicy.lines h₄⟩
  | length =>
    have hsize : m.length < 2 ^ 31 := Nat.lt_of_le_of_lt hm.2 (by decide)
    exact LengthPolicy.get_enc s msg m _ h.1 h.2 hsize

def inHand (l : Lane) : List Msg :=
  match l.input with
  | .putting => [l.msgBuf.data]
  | _ => []

def inReader (l : Lane) : List Msg :=
  match l.reader with
  | .putting m => [m]
  | _ => []

/-- The bytes of a frame that the producer has still to write. -/
def unwritten (l : Lane) : List UInt8 :=
  match l.producer with
  | .writing m k => (frame m).drop k
  | _ => []

def halfRead (l : Lane) : List UInt8 :=
  match l.reader with
  | .header got => got
  | .body header got => header ++ got
  | .putting _ => []

def Unread (l : Lane) (rest : List Msg) : Prop :=
  match l.input with
  | .returned => rest = []
  | _ => Feeds l.fmt l.stream rest

structure Shaped (l : Lane) : Prop where
  running : l.producer ≠ .stopped
  writing : ∀ m k, l.producer = .writing m k → k < (frame m).length
  header : ∀ got, l.reader = .header got → got.length < 4
  body : ∀ header got, l.reader = .body header got →
    header.length = 4 ∧ got.length ≤ ntohl header

/-- Where the messages of a source are, when its reader has queued `sent`. -/
structure LaneOk (src : Source) (l : Lane) (sent : List Msg) : Prop where
  fmt : l.fmt = src.fmt
  shaped : Shaped l
  order : ∃ onWay rest, src.msgs = sent ++ inReader l ++ onWay ++ l.queue ++ inHand l ++ rest ∧
    halfRead l ++ l.wire ++ unwritten l = onWay.flatMap frame ∧ Unread l rest

theorem lane_get {src : Source} {l l' : Lane} {sent out : List Msg} (hl : LaneOk src l sent)
    (h : l.step .get = some (l', out)) : LaneOk src l' (sent ++ out) := by
  obtain ⟨hfmt, hshape, onWay, rest, horder, hbytes, hunread⟩ := hl
  simp only [Lane.step] at h
  split at h
  next hin =>
    cases h
    have hfeeds : Feeds l.fmt l.stream rest := by simpa [Unread, hin] using hunread
    refine ⟨hfmt, ⟨hshape.running, hshape.writing, hshape.header, hshape.body⟩, onWay, ?_⟩
    cases rest with
    | nil =>
      have hok := feeds_nil hfeeds l.msgBuf
      refine ⟨[], ?_, hbytes, ?_⟩
      · simpa [inHand, inReader, hin, hok] using horder
      · simp [Unread, hok]
    | cons m rest =>
      have hlegal : l.fmt.Legal m := by
        rw [hfmt]
        exact src.legal m (by simp [horder])
      obtain ⟨hok, hdata, hnext⟩ := feeds_cons hfeeds hlegal l.msgBuf
      refine ⟨rest, ?_, hbytes, ?_⟩
      · simpa [inHand, inReader, hin, hok, hdata] using horder
      · simpa [Unread, hok] using hnext
  next => cases h

theorem lane_put {src : Source} {l l' : Lane} {sent out : List Msg} (hl : LaneOk src l sent)
    (h : l.step .put = some (l', out)) : LaneOk src l' (sent ++ out) := by
  obtain ⟨hfmt, hshape, onWay, rest, horder, hbytes, hunread⟩ := hl
  simp only [Lane.step] at h
  split at h
  next hin =>
    cases h
    refine ⟨hfmt, ⟨hshape.running, hshape.writing, hshape.header, hshape.body⟩, onWay, rest, ?_,
      hbytes, ?_⟩
    · simpa [inHand, inReader, hin] using horder
    · simpa [Unread, hin] using hunread
  next => cases h

theorem lane_msgrcv {src : Source} {l l' : Lane} {sent out : List Msg} (hl : LaneOk src l sent)
    (h : l.step .msgrcv = some (l', out)) : LaneOk src l' (sent ++ out) := by
  obtain ⟨hfmt, hshape, onWay, rest, horder, hbytes, hunread⟩ := hl
  simp only [Lane.step] at h
  split at h
  next m queue hp hq =>
    have hsize := legal_size (src.legal m (by simp [horder, hq]))
    have hr : SysvMqPolicy.msgrcv false l.queue = some (m, queue) := by
      simp [SysvMqPolicy.msgrcv, hq, hsize.2]
    rw [hr] at h
    cases h
    refine ⟨hfmt, ⟨by simp [hsize.1], ?_, hshape.header, hshape.body⟩, onWay ++ [m], rest, ?_, ?_,
      hunread⟩
    · intro x k hx
      rw [if_neg hsize.1] at hx
      cases hx
      rw [frame_length]
      omega
    · simpa [inHand, inReader, hq] using horder
    · have hb : halfRead l ++ l.wire = onWay.flatMap frame := by
        simpa [unwritten, hp] using hbytes
      rw [List.flatMap_append, ← hb]
      simp [unwritten, halfRead, hsize.1]
  next => cases h

theorem lane_write {src : Source} {l l' : Lane} {sent out : List Msg} {n : ℕ}
    (hl : LaneOk src l sent) (h : l.step (.write n) = some (l', out)) :
    LaneOk src l' (sent ++ out) := by
  obtain ⟨hfmt, hshape, onWay, rest, horder, hbytes, hunread⟩ := hl
  simp only [Lane.step] at h
  split at h
  next m k hp =>
    cases h
    have hle := (take_offered m k n (Nat.le_of_lt (hshape.writing m k hp))).1
    have hb : halfRead l ++ l.wire ++ (frame m).drop k = onWay.flatMap frame := by
      simpa [unwritten, hp] using hbytes
    rw [← offered_rest m k n] at hb
    by_cases hend : k + ((offered m k).take n).length = (frame m).length
    · rw [if_pos hend]
      refine ⟨hfmt, ⟨nofun, nofun, hshape.header, hshape.body⟩, onWay, rest, ?_, ?_, hunread⟩
      · simpa [inHand, inReader] using horder
      · rw [hend, List.drop_length] at hb
        simpa [unwritten, halfRead] using hb
    · rw [if_neg hend]
      refine ⟨hfmt, ⟨nofun, ?_, hshape.header, hshape.body⟩, onWay, rest, ?_, ?_, hunread⟩
      · rintro x j ⟨⟩
        omega
      · simpa [inHand, inReader] using horder
      · simpa [unwritten, halfRead] using hb
  next => cases h

theorem wire_split (wire : List UInt8) (j : ℕ) :
    wire.take j ++ wire.drop (wire.take j).length = wire :=
  List.prefix_iff_eq_append.mp (List.take_prefix j wire)

theorem lane_readHeader {src : Source} {l : Lane} {sent : List Msg} {got : List UInt8} {n : ℕ}
    (hl : LaneOk src l sent) (hr : l.reader = .header got) :
    LaneOk src
      { l with
        wire := l.wire.drop (l.wire.take (min n (4 - got.length))).length
        reader :=
          if (got ++ l.wire.take (min n (4 - got.length))).length = 4 then
            .body (got ++ l.wire.take (min n (4 - got.length))) []
          else .header (got ++ l.wire.take (min n (4 - got.length))) } sent := by
  obtain ⟨hfmt, hshape, onWay, rest, horder, hbytes, hunread⟩ := hl
  have hlt := hshape.header got hr
  have hle := List.length_take_le (min n (4 - got.length)) l.wire
  have hb : got ++ l.wire ++ unwritten l = onWay.flatMap frame := by
    simpa [halfRead, hr] using hbytes
  rw [← wire_split l.wire (min n (4 - got.length))] at hb
  by_cases hfull : (got ++ l.wire.take (min n (4 - got.length))).length = 4
  · rw [if_pos hfull]
    refine ⟨hfmt, ⟨hshape.running, hshape.writing, nofun, ?_⟩, onWay, rest, ?_, ?_, hunread⟩
    · rintro header body ⟨⟩
      exact ⟨hfull, Nat.zero_le _⟩
    · simpa [inHand, inReader, hr] using horder
    · simpa [unwritten, halfRead] using hb
  · rw [if_neg hfull]
    refine ⟨hfmt, ⟨hshape.running, hshape.writing, ?_, nofun⟩, onWay, rest, ?_, ?_, hunread⟩
    · rintro x ⟨⟩
      rw [List.length_append] at hfull ⊢
      omega
    · simpa [inHand, inReader, hr] using horder
    · simpa [unwritten, halfRead] using hb

theorem lane_readBody {src : Source} {l : Lane} {sent : List Msg} {header got : List UInt8} {n : ℕ}
    (hl : LaneOk src l sent) (hr : l.reader = .body header got) :
    LaneOk src
      { l with
        wire := l.wire.drop (l.wire.take (min n (ntohl header - got.length))).length
        reader := .body header (got ++ l.wire.take (min n (ntohl header - got.length))) } sent := by
  obtain ⟨hfmt, hshape, onWay, rest, horder, hbytes, hunread⟩ := hl
  obtain ⟨hlen, hgot⟩ := hshape.body header got hr
  have hle := List.length_take_le (min n (ntohl header - got.length)) l.wire
  have hb : header ++ got ++ l.wire ++ unwritten l = onWay.flatMap frame := by
    simpa [halfRead, hr] using hbytes
  rw [← wire_split l.wire (min n (ntohl header - got.length))] at hb
  refine ⟨hfmt, ⟨hshape.running, hshape.writing, nofun, ?_⟩, onWay, rest, ?_, ?_, hunread⟩
  · rintro x y ⟨⟩
    rw [List.length_append]
    exact ⟨hlen, by omega⟩
  · simpa [inHand, inReader, hr] using horder
  · simpa [unwritten, halfRead] using hb

theorem lane_read {src : Source} {l l' : Lane} {sent out : List Msg} {n : ℕ}
    (hl : LaneOk src l sent) (h : l.step (.read n) = some (l', out)) :
    LaneOk src l' (sent ++ out) := by
  simp only [Lane.step] at h
  split at h
  next got hr =>
    split at h
    next => cases h
    next =>
      cases h
      rw [List.append_nil]
      exact lane_readHeader hl hr
  next header got hr =>
    split at h
    next => cases h
    next =>
      cases h
      rw [List.append_nil]
      exact lane_readBody hl hr
  next => cases h

theorem decode_parts {header got : List UInt8} (hlen : header.length = 4)
    (hgot : got.length = ntohl header) (rest : List UInt8) :
    decode (header ++ got ++ rest) = some (got, rest) := by
  have ht : (header ++ got ++ rest).take 4 = header := by
    rw [List.append_assoc, List.take_append_of_le_length (by omega),
      List.take_of_length_le (by omega)]
  have hd : (header ++ got ++ rest).drop 4 = got ++ rest := by
    rw [List.append_assoc, List.drop_append_of_le_length (by omega),
      List.drop_of_length_le (by omega), List.nil_append]
  unfold decode
  rw [ht, hd, if_pos ⟨by simp; omega, by simp; omega⟩, ← hgot, List.take_left, List.drop_left]

/-- What the reader makes of the bytes it got one after the other is what `TCP::Get` makes of
them. -/
theorem readEnd_get {l l' : Lane} {out : List Msg} (hs : Shaped l)
    (h : l.step .readEnd = some (l', out)) (fd : ReadEnd) (msg : MsgBuf) (rest : List UInt8)
    (hb : fd.bytes = halfRead l ++ rest) :
    ∃ m, l'.reader = .putting m ∧ (TcpPolicy.get fd msg).ok = true ∧
      (TcpPolicy.get fd msg).msg.data = m ∧ (TcpPolicy.get fd msg).rest.bytes = rest := by
  simp only [Lane.step] at h
  split at h
  next header got hr =>
    split at h
    next hgot =>
      cases h
      have hdec := decode_parts (hs.body header got hr).1 hgot rest
      refine ⟨got, rfl, get_of_decode fd msg got rest ?_⟩
      rw [hb, halfRead, hr, hdec]
    next => cases h
  next => cases h

theorem lane_readEnd {src : Source} {l l' : Lane} {sent out : List Msg} (hl : LaneOk src l sent)
    (h : l.step .readEnd = some (l', out)) : LaneOk src l' (sent ++ out) := by
  obtain ⟨hfmt, hshape, onWay, rest, horder, hbytes, hunread⟩ := hl
  simp only [Lane.step] at h
  split at h
  next header got hr =>
    split at h
    next hgot =>
      cases h
      obtain ⟨hlen, -⟩ := hshape.body header got hr
      have hb : header ++ got ++ (l.wire ++ unwritten l) = onWay.flatMap frame := by
        simpa [halfRead, hr] using hbytes
      have hdec := decode_parts hlen hgot (l.wire ++ unwritten l)
      cases onWay with
      | nil =>
        have hnil := congrArg List.length hb
        simp [hlen] at hnil
      | cons m onWay =>
        have hsize := legal_size (src.legal m (by simp [horder]))
        rw [hb, List.flatMap_cons,
          decode_frame m _ (Nat.lt_of_le_of_lt hsize.2 (by decide))] at hdec
        obtain ⟨rfl, hrest⟩ := Prod.mk.inj (Option.some.inj hdec)
        refine ⟨hfmt, ⟨hshape.running, hshape.writing, nofun, nofun⟩, onWay, rest, ?_, ?_, hunread⟩
        · simpa [inHand, inReader, hr] using horder
        · simpa [unwritten, halfRead] using hrest.symm
    next => cases h
  next => cases h

theorem lane_msgsnd {src : Source} {l l' : Lane} {sent out : List Msg} (hl : LaneOk src l sent)
    (h : l.step .msgsnd = some (l', out)) : LaneOk src l' (sent ++ out) := by
  obtain ⟨hfmt, hshape, onWay, rest, horder, hbytes, hunread⟩ := hl
  simp only [Lane.step] at h
  split at h
  next m hr =>
    cases h
    refine ⟨hfmt, ⟨hshape.running, hshape.writing, ?_, nofun⟩, onWay, rest, ?_, ?_, hunread⟩
    · rintro got ⟨⟩
      decide
    · simpa [inHand, inReader, hr] using horder
    · simpa [unwritten, halfRead, hr] using hbytes
  next => cases h

theorem lane_step {src : Source} {l l' : Lane} {sent out : List Msg} {a : LaneAct}
    (hl : LaneOk src l sent) (h : l.step a = some (l', out)) : LaneOk src l' (sent ++ out) := by
  cases a with
  | get => exact lane_get hl h
  | put => exact lane_put hl h
  | msgrcv => exact lane_msgrcv hl h
  | write n => exact lane_write hl h
  | read n => exact lane_read hl h
  | readEnd => exact lane_readEnd hl h
  | msgsnd => exact lane_msgsnd hl h

theorem lane_emits {l l' : Lane} {out : List Msg} {a : LaneAct} (h : l.step a = some (l', out)) :
    out = [] ∨ ∃ m, out = [m] := by
  cases a <;> simp only [Lane.step] at h <;> grind

structure Track where
  source : Source
  lane : Lane
  sent : List Msg
  ok : LaneOk source lane sent

theorem track_size (t : Track) {m : Msg} (h : m ∈ t.sent) : m ≠ [] ∧ m.length ≤ maxMsgSize := by
  obtain ⟨onWay, rest, horder, -, -⟩ := t.ok.order
  exact legal_size (t.source.legal m (by simp [horder, h]))

theorem track_front (t : Track) : t.sent <+: t.source.msgs := by
  obtain ⟨onWay, rest, horder, -, -⟩ := t.ok.order
  rw [horder]
  simp only [List.append_assoc]
  exact List.prefix_append _ _

def held (b : Subscriber) : List Msg :=
  match b.writer with
  | .putting => [b.msgBuf.data]
  | _ => []

/-- Everything that was queued is printed, in the writer's hand or still in the queue, and
interleaves what the lanes have sent. -/
structure Flows (sources : List Source) (out : Format) (s : State) (tracks : List Track)
    (printed : List Msg) : Prop where
  lanes : tracks.map Track.lane = s.lanes
  sources : tracks.map Track.source = sources
  fmt : s.sub.fmt = out
  running : s.sub.writer ≠ .stopped
  merged : Interleaves (tracks.map Track.sent) (printed ++ held s.sub ++ s.sub.queue)
  stdout : s.sub.stdout = printed.flatMap out.enc

theorem queued_size {sources : List Source} {out : Format} {s : State} {tracks : List Track}
    {printed : List Msg} (hs : Flows sources out s tracks printed) {m : Msg}
    (h : m ∈ held s.sub ++ s.sub.queue) : m ≠ [] ∧ m.length ≤ maxMsgSize := by
  obtain ⟨p, hp, hm⟩ := hs.merged.mem m (by
    rw [List.append_assoc]
    exact List.mem_append_right _ h)
  obtain ⟨t, -, rfl⟩ := List.mem_map.mp hp
  exact track_size t hm

theorem lane_flows {sources : List Source} {out : Format} {s : State} {tracks : List Track}
    {printed : List Msg} (hs : Flows sources out s tracks printed) {i : ℕ} {l l' : Lane}
    {a : LaneAct} {emitted : List Msg} (hl : s.lanes[i]? = some l)
    (h : l.step a = some (l', emitted)) :
    ∃ tracks', Flows sources out
      { s with
        lanes := s.lanes.set i l'
        sub := { s.sub with queue := s.sub.queue ++ emitted } } tracks' printed := by
  have hi := hl
  rw [← hs.lanes, List.getElem?_map] at hi
  obtain ⟨t, ht, rfl⟩ := Option.map_eq_some_iff.mp hi
  obtain ⟨before, after, hsplit, hset⟩ := split_at ht
  have hmerged := hs.merged
  rw [hsplit, List.map_append, List.map_cons] at hmerged
  refine ⟨tracks.set i ⟨t.source, l', t.sent ++ emitted, lane_step t.ok h⟩, ?_, ?_, hs.fmt,
    hs.running, ?_, hs.stdout⟩
  · rw [List.map_set, hs.lanes]
  · rw [hset, ← hs.sources, hsplit]
    simp
  · rw [hset, List.map_append, List.map_cons]
    obtain rfl | ⟨m, rfl⟩ := lane_emits h
    · simpa [held] using hmerged
    · have hnext := Interleaves.snoc _ _ _ _ m hmerged
      simpa [held] using hnext

theorem get_flows {sources : List Source} {out : Format} {s : State} {tracks : List Track}
    {printed : List Msg} (hs : Flows sources out s tracks printed) {b : Subscriber}
    (h : s.sub.get = some b) : Flows sources out { s with sub := b } tracks printed := by
  unfold Subscriber.get at h
  split at h
  next m queue hw hq =>
    have hsize := queued_size hs (m := m) (by simp [hq])
    have hr : SysvMqPolicy.msgrcv false s.sub.queue = some (m, queue) := by
      simp [SysvMqPolicy.msgrcv, hq, hsize.2]
    obtain ⟨h₁, h₂, h₃⟩ := SysvMqPolicy.get_data s.sub.msgBuf hr
    cases h
    refine ⟨hs.lanes, hs.sources, hs.fmt, by simp [h₁], ?_, hs.stdout⟩
    simp only [held, h₁, h₂, h₃, ↓reduceIte]
    simpa [held, hw, hq] using hs.merged
  next => cases h

theorem format_put (fmt : Format) (out : List UInt8) (msg : MsgBuf) (h : msg.len ≠ 0) :
    fmt.put out msg = (true, out ++ fmt.enc msg.data) := by
  cases fmt with
  | line => exact LinePolicy.put_data out msg h
  | length => exact LengthPolicy.put_data out msg h

theorem put_flows {sources : List Source} {out : Format} {s : State} {tracks : List Track}
    {printed : List Msg} (hs : Flows sources out s tracks printed) {b : Subscriber}
    (h : s.sub.put = some b) :
    Flows sources out { s with sub := b } tracks (printed ++ [s.sub.msgBuf.data]) := by
  unfold Subscriber.put at h
  split at h
  next hw =>
    have hsize := queued_size hs (m := s.sub.msgBuf.data) (by simp [held, hw])
    have hput := format_put s.sub.fmt s.sub.stdout s.sub.msgBuf fun hz =>
      hsize.1 ((data_eq_nil _).mpr hz)
    rw [hput] at h
    cases h
    refine ⟨hs.lanes, hs.sources, hs.fmt, nofun, ?_, ?_⟩
    · simpa [held, hw] using hs.merged
    · simp [hs.stdout, hs.fmt]
  next => cases h

theorem step_flows {sources : List Source} {out : Format} (s : State) (a : Act) (t : State)
    (hs : ∃ tracks printed, Flows sources out s tracks printed) (h : step s a = some t) :
    ∃ tracks printed, Flows sources out t tracks printed := by
  obtain ⟨tracks, printed, hs⟩ := hs
  cases a with
  | lane i a =>
    obtain ⟨l, hl, h⟩ := Option.bind_eq_some_iff.mp h
    obtain ⟨r, hr, rfl⟩ := Option.map_eq_some_iff.mp h
    obtain ⟨tracks', hs'⟩ := lane_flows hs hl hr
    exact ⟨tracks', printed, hs'⟩
  | writerGet =>
    obtain ⟨b, hb, rfl⟩ := Option.map_eq_some_iff.mp h
    exact ⟨tracks, printed, get_flows hs hb⟩
  | writerPut =>
    obtain ⟨b, hb, rfl⟩ := Option.map_eq_some_iff.mp h
    exact ⟨tracks, _, put_flows hs hb⟩

theorem start_ok (src : Source) : LaneOk src src.lane [] := by
  refine ⟨rfl, ⟨nofun, nofun, ?_, nofun⟩, [], src.msgs, ?_, rfl, feeds_start src⟩
  · rintro got ⟨⟩
    decide
  · simp [Source.lane, inReader, inHand]

theorem run_flows {sources : List Source} {out : Format} {msgBuf : MsgBuf} {acts : List Act}
    {s : State} (h : run step (start sources out msgBuf) acts = some s) :
    ∃ tracks printed, Flows sources out s tracks printed := by
  refine run_invariant _ step_flows h
    ⟨sources.map fun src => ⟨src, src.lane, [], start_ok src⟩, [], ?_, ?_, rfl, nofun, ?_, rfl⟩
  · simp [start]
  · rw [List.map_map]
    exact List.map_id sources
  · refine .nil _ ?_
    simp

/-- Every input is read to its end and nothing is in a queue, on a connection or in a hand. -/
structure Drained (s : State) : Prop where
  input : ∀ l ∈ s.lanes, l.input = .returned
  branch : ∀ l ∈ s.lanes, l.queue = [] ∧ unwritten l = []
  socket : ∀ l ∈ s.lanes, l.wire = [] ∧ halfRead l = [] ∧ inReader l = []
  queue : s.sub.queue = []
  writer : held s.sub = []

/-- No stage has ended at a message that its `Get` or its `Put` refused. -/
structure Running (s : State) : Prop where
  producers : ∀ l ∈ s.lanes, l.producer ≠ .stopped
  writer : s.sub.writer ≠ .stopped

theorem flows_running {sources : List Source} {out : Format} {s : State} {tracks : List Track}
    {printed : List Msg} (hs : Flows sources out s tracks printed) : Running s := by
  refine ⟨fun l hl => ?_, hs.running⟩
  rw [← hs.lanes] at hl
  obtain ⟨t, -, rfl⟩ := List.mem_map.mp hl
  exact t.ok.shaped.running

theorem drained_sent {s : State} (hd : Drained s) (t : Track) (ht : t.lane ∈ s.lanes) :
    t.sent = t.source.msgs := by
  obtain ⟨onWay, rest, horder, hbytes, hunread⟩ := t.ok.order
  obtain ⟨hq, hp⟩ := hd.branch _ ht
  obtain ⟨hw, hhalf, hr⟩ := hd.socket _ ht
  have hin := hd.input _ ht
  have hway : onWay = [] := by
    cases onWay with
    | nil => rfl
    | cons m onWay =>
      have hl := congrArg List.length hbytes
      simp [hhalf, hw, hp] at hl
      omega
  have hrest : rest = [] := by simpa [Unread, hin] using hunread
  simpa [inHand, hway, hrest, hq, hr, hin] using horder.symm

/-- In every reachable state no stage has stopped and the output encodes an interleaving of a
prefix of each source, and of the whole sources once everything has drained. -/
theorem delivered_in_order (sources : List Source) (out : Format) (msgBuf : MsgBuf)
    (acts : List Act) (s : State) (h : run step (start sources out msgBuf) acts = some s) :
    Running s ∧
    (∃ prefixes printed, List.Forall₂ (fun p src => p <+: src.msgs) prefixes sources ∧
      Interleaves prefixes printed ∧ s.sub.stdout = printed.flatMap out.enc) ∧
    (Drained s → ∃ printed, Interleaves (sources.map Source.msgs) printed ∧
      s.sub.stdout = printed.flatMap out.enc) := by
  obtain ⟨tracks, printed, hs⟩ := run_flows h
  refine ⟨flows_running hs, ?_, ?_⟩
  · have hfirst : printed <+: printed ++ held s.sub ++ s.sub.queue := by
      rw [List.append_assoc]
      exact List.prefix_append _ _
    obtain ⟨prefixes, hpre, hint⟩ := hs.merged.first hfirst
    refine ⟨prefixes, printed, ?_, hint, hs.stdout⟩
    rw [← hs.sources, List.forall₂_map_right_iff]
    rw [List.forall₂_map_right_iff] at hpre
    exact hpre.imp fun p t hp => hp.trans (track_front t)
  · intro hd
    have hsent : tracks.map Track.sent = sources.map Source.msgs := by
      rw [← hs.sources, List.map_map]
      refine List.map_congr_left fun t ht => drained_sent hd t ?_
      rw [← hs.lanes]
      exact List.mem_map_of_mem ht
    have hmerged := hs.merged
    rw [hsent, hd.queue, hd.writer, List.append_nil, List.append_nil] at hmerged
    exact ⟨printed, hmerged, hs.stdout⟩

def lineSource : Source where
  fmt := .line
  bytes := [97, 10]
  msgs := [[97]]
  msgBuf := ⟨0, fun _ => 0, 0⟩
  legal := by simp [Format.Legal, maxMsgSize, newline]
  carries := rfl

def lengthSource : Source where
  fmt := .length
  bytes := [49, 32, 98]
  msgs := [[98]]
  msgBuf := ⟨0, fun _ => 0, 0⟩
  legal := by simp [Format.Legal, maxMsgSize]
  carries := by simp [Format.Carries, LengthPolicy.enc, LengthPolicy.decimal, blank]

/-- The second publisher overtakes the first, and the first one's frame comes in pieces. -/
def overtaking : List Act :=
  [.lane 0 .get, .lane 0 .put, .lane 1 .get, .lane 1 .put, .lane 0 .msgrcv, .lane 0 (.write 3),
    .lane 1 .msgrcv, .lane 1 (.write 4), .lane 1 (.write 1), .lane 1 (.read 9), .lane 1 (.read 9),
    .lane 1 .readEnd, .lane 1 .msgsnd, .lane 0 (.read 2), .lane 0 (.write 1), .lane 0 (.write 1),
    .lane 0 (.read 2), .lane 0 (.read 1), .lane 0 .readEnd, .writerGet, .lane 0 .msgsnd,
    .writerPut, .writerGet, .writerPut, .lane 0 .get, .lane 1 .get]

theorem overtaking_delivers :
    ∃ s, run step (start [lineSource, lengthSource] .line ⟨0, fun _ => 0, 0⟩) overtaking = some s ∧
      s.sub.stdout = [98, 10, 97, 10] ∧ Running s ∧
      ∃ printed, Interleaves [[[97]], [[98]]] printed ∧
        s.sub.stdout = printed.flatMap LinePolicy.enc := by
  obtain ⟨s, hrun, hout, hdrained⟩ : ∃ s,
      run step (start [lineSource, lengthSource] .line ⟨0, fun _ => 0, 0⟩) overtaking = some s ∧
        s.sub.stdout = [98, 10, 97, 10] ∧ Drained s :=
    ⟨_, rfl, rfl, by decide, by decide, by decide, rfl, rfl⟩
  obtain ⟨hrunning, -, hwhole⟩ := delivered_in_order _ .line _ overtaking s hrun
  exact ⟨s, hrun, hout, hrunning, hwhole hdrained⟩

end Wissbi.Delivery
