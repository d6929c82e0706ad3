import Mathlib.Data.List.TakeWhile
import Wissbi.GetBounds
import Wissbi.ProducerFilter

set_option autoImplicit false

namespace Wissbi.PoisonMessages
open Buffers GetBounds MsgFilter ProducerFilter Streams SysvMqPolicy TcpFraming TcpPolicy

structure Writer where
  queue : Queue
  out : List UInt8

def outputWriter (interrupted : Bool) (put : List UInt8 → MsgBuf → Bool × List UInt8) :
    Hooks Writer where
  preFilter := always
  get := fun (s, msg) =>
    let r := SysvMqPolicy.get interrupted s.queue msg
    (r.ok, { s with queue := r.rest }, r.msg)
  filterFunc := always
  put := fun (s, msg) =>
    let r := put s.out msg
    (r.1, { s with out := r.2 }, msg)
  postFilter := defaultPost

/-- The filter of `count.cpp` and `record.cpp`; `note` is what their filter function does
with a message, which it never changes or refuses. -/
structure Copier (τ : Type) where
  input : IStream
  out : List UInt8
  notes : τ

def copyFilter {τ : Type} (note : τ → MsgBuf → τ) : Hooks (Copier τ) where
  preFilter := always
  get := fun (s, msg) =>
    let r := LinePolicy.get s.input msg
    (r.ok, { s with input := r.rest }, r.msg)
  filterFunc := fun (s, msg) => (true, { s with notes := note s.notes msg }, msg)
  put := fun (s, msg) =>
    let r := LinePolicy.put s.out msg
    (r.1, { s with out := r.2 }, msg)
  postFilter := defaultPost

inductive Pipeline where
  | pubLine
  | pubLength
  | subLine
  | subLength
  | copy
  deriving DecidableEq, Repr

def Pipeline.gets : Pipeline → ℕ → ReadEnd → MsgBuf → List MsgBuf
  | .pubLine, n, input, msg => Buffers.gets LinePolicy.get n (IStream.ofBytes input.bytes) msg
  | .pubLength, n, input, msg => Buffers.gets LengthPolicy.get n (IStream.ofBytes input.bytes) msg
  | .subLine, n, input, msg => Buffers.gets TcpPolicy.get n input msg
  | .subLength, n, input, msg => Buffers.gets TcpPolicy.get n input msg
  | .copy, n, input, msg => Buffers.gets LinePolicy.get n (IStream.ofBytes input.bytes) msg

def Pipeline.stores : Pipeline → ℕ → ReadEnd → MsgBuf → List ℕ
  | .pubLine, n, input, msg => Buffers.stores LinePolicy.get n (IStream.ofBytes input.bytes) msg
  | .pubLength, n, input, msg => Buffers.stores LengthPolicy.get n (IStream.ofBytes input.bytes) msg
  | .subLine, n, input, msg => Buffers.stores TcpPolicy.get n input msg
  | .subLength, n, input, msg => Buffers.stores TcpPolicy.get n input msg
  | .copy, n, input, msg => Buffers.stores LinePolicy.get n (IStream.ofBytes input.bytes) msg

def Queued (msgmax : ℕ) (msg : MsgBuf) : Prop :=
  ∀ q, (SysvMqPolicy.put msgmax true q msg).1 = true

/-- A producer that comes to the message forwards it on a working connection. -/
def Forwarded (msgmax : ℕ) (msg : MsgBuf) : Prop :=
  ∀ rest sock pending last all buf, Working sock →
    (filter (producerFilter ⟨false, true, msgmax⟩)
      (⟨msg.data :: rest, sock, pending, last, all⟩, buf)).1 = true

/-- An output writer that comes to the message prints it. -/
def Printed (put : List UInt8 → MsgBuf → Bool × List UInt8) (msg : MsgBuf) : Prop :=
  ∀ rest out buf, (filter (outputWriter false put) (⟨msg.data :: rest, out⟩, buf)).1 = true

def Pipeline.Accepts (msgmax : ℕ) : Pipeline → MsgBuf → Prop
  | .pubLine, msg => Queued msgmax msg ∧ Forwarded msgmax msg
  | .pubLength, msg => Queued msgmax msg ∧ Forwarded msgmax msg
  | .subLine, msg => Queued msgmax msg ∧ Printed LinePolicy.put msg
  | .subLength, msg => Queued msgmax msg ∧ Printed LengthPolicy.put msg
  | .copy, msg => ∀ out, (LinePolicy.put out msg).1 = true

def Copies (bytes : List UInt8) : Prop :=
  ∀ (τ : Type) (note : τ → MsgBuf → τ) (notes : τ) (buf : MsgBuf), ∃ n s,
    filterLoop (copyFilter note) n (⟨IStream.ofBytes bytes, [], notes⟩, buf) = some s ∧
    s.1.out = (LinePolicy.lines bytes).flatMap LinePolicy.enc

/-- Every message that gets in is accepted further on and lies in its buffer; and the copying
tools copy every line. -/
structure NoPoison (msgmax : ℕ) (p : Pipeline) (input : ReadEnd) : Prop where
  accepted : ∀ n buf, ∀ msg ∈ p.gets n input buf, p.Accepts msgmax msg
  inside : ∀ n buf, ∀ k ∈ p.stores n input buf, k ≤ maxMsgSize
  copied : p = .copy → Copies input.bytes

/-- The inputs on which the policies of a pipeline agree. -/
def Pipeline.Legal : Pipeline → List UInt8 → Prop
  | .pubLine, bytes =>
    ∀ l ∈ (LinePolicy.lines bytes).takeWhile fun l => l.length ≤ maxMsgSize - 1, 0 < l.length
  | .pubLength, bytes => ∀ n, ∀ v ∈ LengthPolicy.sizes n bytes, 1 ≤ v ∧ v ≤ maxMsgSize
  | .subLine, bytes => ∀ n, ∀ front ∈ fronts n bytes, HeaderOk front
  | .subLength, bytes => ∀ n, ∀ front ∈ fronts n bytes, HeaderOk front
  | .copy, bytes => ∀ l ∈ LinePolicy.lines bytes, 0 < l.length ∧ l.length ≤ maxMsgSize - 1

theorem get_head (msg buf : MsgBuf) (rest : Queue) :
    ((SysvMqPolicy.get false (msg.data :: rest) buf).ok = true ↔ msg.len ≤ maxMsgSize) ∧
    (msg.len ≤ maxMsgSize → (SysvMqPolicy.get false (msg.data :: rest) buf).msg.len = msg.len) := by
  by_cases hl : msg.len ≤ maxMsgSize <;>
    simp [SysvMqPolicy.get, msgrcv, hl]

theorem queued_iff (msgmax : ℕ) (msg : MsgBuf) : Queued msgmax msg ↔ msg.len ≤ msgmax := by
  constructor
  · exact fun h => ((put_ok msgmax true [] msg).mp (h [])).1
  · exact fun h q => (put_ok msgmax true q msg).mpr ⟨h, rfl⟩

theorem producerFilter_result (k : Kernel) (s : Producer) (buf : MsgBuf) :
    (filter (producerFilter k) (s, buf)).1 =
      ((SysvMqPolicy.get k.interrupted s.queue buf).ok &&
        (TcpPolicy.put s.sock (SysvMqPolicy.get k.interrupted s.queue buf).msg).1) := by
  cases hg : (SysvMqPolicy.get k.interrupted s.queue buf).ok with
  | false => simp [filter, andThen, producerFilter, always, hg]
  | true =>
    cases hp : (TcpPolicy.put s.sock (SysvMqPolicy.get k.interrupted s.queue buf).msg).1 <;>
      simp [filter, andThen, producerFilter, always, hg, hp]

theorem outputWriter_result (put : List UInt8 → MsgBuf → Bool × List UInt8) (s : Writer)
    (buf : MsgBuf) :
    (filter (outputWriter false put) (s, buf)).1 =
      ((SysvMqPolicy.get false s.queue buf).ok &&
        (put s.out (SysvMqPolicy.get false s.queue buf).msg).1) := by
  cases hg : (SysvMqPolicy.get false s.queue buf).ok <;>
    simp [filter, andThen, outputWriter, always, defaultPost, hg]

theorem forwarded_iff (msgmax : ℕ) (msg : MsgBuf) :
    Forwarded msgmax msg ↔ 0 < msg.len ∧ msg.len ≤ maxMsgSize := by
  constructor
  · intro h
    have hf := h [] ⟨[], [], false⟩ 0 0 0 msg ⟨by simp, rfl⟩
    rw [producerFilter_result, Bool.and_eq_true, (get_head msg msg []).1] at hf
    obtain ⟨hl, hput⟩ := hf
    refine ⟨Nat.pos_of_ne_zero fun hz => ?_, hl⟩
    have hlen := (get_head msg msg []).2 hl
    rw [hz] at hlen
    simp [TcpPolicy.put, hlen] at hput
  · rintro ⟨hpos, hl⟩ rest sock pending last all buf hsock
    have hlen := (get_head msg buf rest).2 hl
    rw [producerFilter_result, (get_head msg buf rest).1.mpr hl, Bool.true_and]
    exact put_working sock _ hsock (by rw [hlen]; exact Nat.ne_of_gt hpos)

theorem printed_iff (put : List UInt8 → MsgBuf → Bool × List UInt8)
    (hput : ∀ out msg, (put out msg).1 = true ↔ msg.len ≠ 0) (msg : MsgBuf) :
    Printed put msg ↔ 0 < msg.len ∧ msg.len ≤ maxMsgSize := by
  constructor
  · intro h
    have hf := h [] [] msg
    rw [outputWriter_result, Bool.and_eq_true, (get_head msg msg []).1, hput] at hf
    obtain ⟨hl, hne⟩ := hf
    rw [(get_head msg msg []).2 hl] at hne
    exact ⟨Nat.pos_of_ne_zero hne, hl⟩
  · rintro ⟨hpos, hl⟩ rest out buf
    have hlen := (get_head msg buf rest).2 hl
    rw [outputWriter_result, (get_head msg buf rest).1.mpr hl, Bool.true_and, hput, hlen]
    exact Nat.ne_of_gt hpos

theorem line_put_iff (out : List UInt8) (msg : MsgBuf) :
    (LinePolicy.put out msg).1 = true ↔ msg.len ≠ 0 := by
  by_cases h : msg.len = 0 <;> simp [LinePolicy.put, h]

theorem length_put_iff (out : List UInt8) (msg : MsgBuf) :
    (LengthPolicy.put out msg).1 = true ↔ msg.len ≠ 0 := by
  by_cases h : msg.len = 0 <;> simp [LengthPolicy.put, h]

theorem accepts_iff {msgmax : ℕ} (hmax : maxMsgSize ≤ msgmax) (p : Pipeline) (msg : MsgBuf) :
    p.Accepts msgmax msg ↔ 0 < msg.len ∧ (p ≠ .copy → msg.len ≤ maxMsgSize) := by
  have hq : Queued msgmax msg ∧ 0 < msg.len ∧ msg.len ≤ maxMsgSize ↔
      0 < msg.len ∧ msg.len ≤ maxMsgSize := by
    rw [queued_iff]
    omega
  cases p with
  | pubLine => simpa [Pipeline.Accepts, forwarded_iff] using hq
  | pubLength => simpa [Pipeline.Accepts, forwarded_iff] using hq
  | subLine => simpa [Pipeline.Accepts, printed_iff _ line_put_iff] using hq
  | subLength => simpa [Pipeline.Accepts, printed_iff _ length_put_iff] using hq
  | copy => simp [Pipeline.Accepts, line_put_iff, Nat.pos_iff_ne_zero]

def Plain (l : Msg) : Bool := 0 < l.length && l.length ≤ maxMsgSize - 1

section
variable {τ : Type} (note : τ → MsgBuf → τ)

theorem copy_turn (s : Copier τ) (buf : MsgBuf) (l : Msg) (rest : List UInt8)
    (hs : LinePolicy.Clean s.input) (hd : LinePolicy.decode s.input.data = some (l, rest))
    (hl : l ≠ []) :
    ∃ t buf', filter (copyFilter note) (s, buf) = (true, t, buf') ∧ LinePolicy.Clean t.input ∧
      t.input.data = rest ∧ t.out = s.out ++ LinePolicy.enc l := by
  obtain ⟨h₁, h₂, h₃, h₄⟩ := LinePolicy.get_of_decode s.input buf l rest hs hd
  have hne : (LinePolicy.get s.input buf).msg.len ≠ 0 := by
    rwa [Ne, ← data_eq_nil, h₂]
  have hput := LinePolicy.put_data s.out (LinePolicy.get s.input buf).msg hne
  rw [h₂] at hput
  refine ⟨⟨(LinePolicy.get s.input buf).rest, s.out ++ LinePolicy.enc l,
    note s.notes (LinePolicy.get s.input buf).msg⟩, (LinePolicy.get s.input buf).msg, ?_, h₃, h₄,
    rfl⟩
  simp [filter, andThen, copyFilter, always, defaultPost, h₁, hput]

theorem copy_stop (s : Copier τ) (buf : MsgBuf) (hs : LinePolicy.Clean s.input)
    (h : ∀ l ∈ (LinePolicy.lines s.input.data).head?, Plain l = false) :
    (filter (copyFilter note) (s, buf)).1 = false ∧
    (filter (copyFilter note) (s, buf)).2.1.out = s.out := by
  cases hd : LinePolicy.decode s.input.data with
  | none =>
    have hok := (LinePolicy.get_of_decode_none s.input buf hd).1
    simp [filter, andThen, copyFilter, always, defaultPost, hok]
  | some p =>
    obtain ⟨hlines, hlen⟩ := LinePolicy.decode_lines _ p.1 p.2 hd
    obtain ⟨h₁, h₂, -, -⟩ := LinePolicy.get_of_decode s.input buf p.1 p.2 hs hd
    have hp := h p.1 (by simp [hlines])
    have hz : (LinePolicy.get s.input buf).msg.len = 0 := by
      rw [← data_length, h₂]
      simp only [Plain, hlen, decide_true, Bool.and_true, decide_eq_false_iff_not] at hp
      omega
    simp [filter, andThen, copyFilter, always, defaultPost, h₁, LinePolicy.put, hz]

/-- The copying loop ends, with the lines up to the first that is empty or too long. -/
theorem copy_out (ls : List Msg) (s : Copier τ) (buf : MsgBuf) (hs : LinePolicy.Clean s.input)
    (hl : LinePolicy.lines s.input.data = ls) :
    ∃ n t, filterLoop (copyFilter note) n (s, buf) = some t ∧
      t.1.out = s.out ++ (ls.takeWhile Plain).flatMap LinePolicy.enc := by
  induction ls generalizing s buf with
  | nil =>
    obtain ⟨h₁, h₂⟩ := copy_stop note s buf hs (by simp [hl])
    refine ⟨1, (filter (copyFilter note) (s, buf)).2, by simp [filterLoop, h₁], ?_⟩
    simpa using h₂
  | cons l ls ih =>
    cases hp : Plain l with
    | false =>
      obtain ⟨h₁, h₂⟩ := copy_stop note s buf hs (by simp [hl, hp])
      refine ⟨1, (filter (copyFilter note) (s, buf)).2, by simp [filterLoop, h₁], ?_⟩
      simpa [hp] using h₂
    | true =>
      have hp' := hp
      simp only [Plain, Bool.and_eq_true, decide_eq_true_eq] at hp'
      cases hd : LinePolicy.decode s.input.data with
      | none =>
        rcases LinePolicy.decode_none_lines _ hd with he | ⟨l', ls', he, hlong⟩
        · rw [hl] at he
          cases he
        · rw [hl] at he
          cases he
          omega
      | some p =>
        obtain ⟨hlines, -⟩ := LinePolicy.decode_lines _ p.1 p.2 hd
        rw [hl] at hlines
        cases hlines
        have hne : p.1 ≠ [] := List.ne_nil_of_length_pos hp'.1
        obtain ⟨t, buf', hf, ht, hdata, hout⟩ := copy_turn note s buf p.1 p.2 hs hd hne
        obtain ⟨n, u, hu, huo⟩ := ih t buf' ht (by rw [hdata])
        refine ⟨n + 1, u, by simp [filterLoop, hf, hu], ?_⟩
        rw [huo, hout, List.takeWhile_cons_of_pos hp, List.flatMap_cons, List.append_assoc]

end

theorem copies_iff (bytes : List UInt8) :
    Copies bytes ↔ ∀ l ∈ LinePolicy.lines bytes, Plain l = true := by
  constructor
  · intro h
    obtain ⟨n, s, hs, hout⟩ := h Unit (fun _ _ => ()) () ⟨0, fun _ => 0, 0⟩
    obtain ⟨k, t, ht, hcopy⟩ := copy_out (fun _ _ => ()) (LinePolicy.lines bytes)
      ⟨IStream.ofBytes bytes, [], ()⟩ ⟨0, fun _ => 0, 0⟩ (LinePolicy.clean_ofBytes bytes) rfl
    rw [filterLoop_unique _ ht hs, hout] at hcopy
    have hsplit : LinePolicy.lines bytes = (LinePolicy.lines bytes).takeWhile Plain ++
        (LinePolicy.lines bytes).dropWhile Plain := (List.takeWhile_append_dropWhile ..).symm
    have hrest : ((LinePolicy.lines bytes).dropWhile Plain).flatMap LinePolicy.enc = [] := by
      rw [List.nil_append] at hcopy
      nth_rewrite 1 [hsplit] at hcopy
      rw [List.flatMap_append] at hcopy
      exact List.append_right_eq_self.mp hcopy
    have hnil : (LinePolicy.lines bytes).dropWhile Plain = [] := by
      cases hd : (LinePolicy.lines bytes).dropWhile Plain with
      | nil => rfl
      | cons l ls => simp [hd, LinePolicy.enc] at hrest
    exact List.dropWhile_eq_nil_iff.mp hnil
  · intro h τ note notes buf
    obtain ⟨n, t, ht, hout⟩ := copy_out note (LinePolicy.lines bytes)
      ⟨IStream.ofBytes bytes, [], notes⟩ buf (LinePolicy.clean_ofBytes bytes) rfl
    refine ⟨n, t, ht, ?_⟩
    rw [hout, List.takeWhile_eq_self_iff.mpr h]
    rfl

theorem forall_len (l : List MsgBuf) (P : ℕ → Prop) :
    (∀ msg ∈ l, P msg.len) ↔ ∀ m ∈ l.map MsgBuf.data, P m.length := by
  simp

theorem line_lets_in (bytes : List UInt8) (P : ℕ → Prop) :
    (∀ n buf, ∀ msg ∈ gets LinePolicy.get n (IStream.ofBytes bytes) buf, P msg.len) ↔
      ∀ l ∈ (LinePolicy.lines bytes).takeWhile fun l => l.length ≤ maxMsgSize - 1, P l.length := by
  have hgets (n : ℕ) (buf : MsgBuf) :
      (gets LinePolicy.get n (IStream.ofBytes bytes) buf).map MsgBuf.data =
        ((LinePolicy.lines bytes).takeWhile fun l => l.length ≤ maxMsgSize - 1).take n :=
    LinePolicy.gets_lines n (IStream.ofBytes bytes) buf (LinePolicy.clean_ofBytes bytes)
  simp only [forall_len, hgets]
  constructor
  · intro h l hl
    obtain ⟨i, hi, rfl⟩ := List.mem_iff_getElem.mp hl
    refine h (i + 1) ⟨0, fun _ => 0, 0⟩ _ ?_
    exact List.mem_iff_getElem.mpr ⟨i, by simp; omega, List.getElem_take⟩
  · exact fun h n buf l hl => h l (List.mem_of_mem_take hl)

theorem length_lets_in (bytes : List UInt8) (P : ℕ → Prop) :
    (∀ n buf, ∀ msg ∈ gets LengthPolicy.get n (IStream.ofBytes bytes) buf, P msg.len) ↔
      ∀ n, ∀ v ∈ LengthPolicy.sizes n bytes, P (toSize v) := by
  have hgets (n : ℕ) (buf : MsgBuf) := LengthPolicy.gets_sizes n (IStream.ofBytes bytes) buf rfl
  have hlen (n : ℕ) (buf : MsgBuf) :
      (∀ msg ∈ gets LengthPolicy.get n (IStream.ofBytes bytes) buf, P msg.len) ↔
        ∀ v ∈ LengthPolicy.sizes n bytes, P (toSize v) := by
    rw [← List.forall_mem_map (f := MsgBuf.len) (P := P), hgets, List.forall_mem_map]
    rfl
  simp only [hlen]
  exact ⟨fun h n => h n ⟨0, fun _ => 0, 0⟩, fun h n _ => h n⟩

theorem toSize_legal (v : ℤ) (h : -2 ^ 31 ≤ v ∧ v ≤ 2 ^ 31 - 1) :
    0 < toSize v ∧ toSize v ≤ maxMsgSize ↔ 1 ≤ v ∧ v ≤ maxMsgSize := by
  rcases lt_or_ge v 0 with hn | hn
  · have := toSize_of_neg v hn (by omega)
    omega
  · have := toSize_of_nonneg v hn (by omega)
    omega

theorem queued_noPoison {msgmax : ℕ} (hmax : maxMsgSize ≤ msgmax) (p : Pipeline) (hp : p ≠ .copy)
    (input : ReadEnd) :
    NoPoison msgmax p input ↔ ∀ n buf,
      (∀ msg ∈ p.gets n input buf, 0 < msg.len ∧ msg.len ≤ maxMsgSize) ∧
      ∀ k ∈ p.stores n input buf, k ≤ maxMsgSize := by
  have hiff := accepts_iff hmax p
  simp only [hp, ne_eq, not_false_eq_true, forall_const] at hiff
  constructor
  · exact fun h n buf => ⟨fun msg hm => (hiff msg).mp (h.accepted n buf msg hm), h.inside n buf⟩
  · exact fun h => ⟨fun n buf msg hm => (hiff msg).mpr ((h n buf).1 msg hm),
      fun n buf => (h n buf).2, fun hc => absurd hc hp⟩

theorem line_stores {n : ℕ} {s : IStream} {buf : MsgBuf}
    (h : ∀ msg ∈ gets LinePolicy.get n s buf, msg.len ≤ maxMsgSize) :
    ∀ k ∈ stores LinePolicy.get n s buf, k ≤ maxMsgSize :=
  stores_le LinePolicy.get (fun s msg _ => (line_sound s msg).1) n s buf h

theorem pubLine_iff {msgmax : ℕ} (hmax : maxMsgSize ≤ msgmax) (input : ReadEnd) :
    NoPoison msgmax .pubLine input ↔ Pipeline.pubLine.Legal input.bytes := by
  have hlines := line_lets_in input.bytes fun n => 0 < n ∧ n ≤ maxMsgSize
  rw [queued_noPoison hmax .pubLine (by decide)]
  constructor
  · exact fun h l hl => (hlines.mp (fun n buf => (h n buf).1) l hl).1
  · intro h n buf
    have hgets := hlines.mpr (fun l hl => ⟨h l hl, ?_⟩) n buf
    · exact ⟨hgets, line_stores fun msg hm => (hgets msg hm).2⟩
    · have hfit := List.mem_takeWhile_imp hl
      simp only [decide_eq_true_eq] at hfit
      exact Nat.le_trans hfit (Nat.sub_le _ _)

theorem pubLength_iff {msgmax : ℕ} (hmax : maxMsgSize ≤ msgmax) (input : ReadEnd) :
    NoPoison msgmax .pubLength input ↔ Pipeline.pubLength.Legal input.bytes := by
  have hsizes := (length_lets_in input.bytes fun n => 0 < n ∧ n ≤ maxMsgSize).trans
    (forall_congr' fun n => forall₂_congr fun v hv =>
      toSize_legal v (LengthPolicy.sizes_range n input.bytes v hv))
  rw [queued_noPoison hmax .pubLength (by decide)]
  constructor
  · exact fun h => hsizes.mp fun n buf => (h n buf).1
  · intro h n buf
    have hgets := hsizes.mpr h n buf
    exact ⟨hgets, stores_le LengthPolicy.get length_stored_le n _ buf fun msg hm => (hgets msg hm).2⟩

theorem sub_iff {msgmax : ℕ} (hmax : maxMsgSize ≤ msgmax) (p : Pipeline)
    (hp : p = .subLine ∨ p = .subLength) (input : ReadEnd) :
    NoPoison msgmax p input ↔ ∀ n, ∀ front ∈ fronts n input.bytes, HeaderOk front := by
  have htcp : (∀ n buf,
      (∀ msg ∈ gets TcpPolicy.get n input buf, 0 < msg.len ∧ msg.len ≤ maxMsgSize) ∧
        ∀ k ∈ stores TcpPolicy.get n input buf, k ≤ maxMsgSize) ↔
      ∀ n, ∀ front ∈ fronts n input.bytes, HeaderOk front := by
    simp only [headers_ok_iff]
    exact ⟨fun h n => h n ⟨0, fun _ => 0, 0⟩, fun h n _ => h n⟩
  rcases hp with rfl | rfl
  · exact (queued_noPoison hmax .subLine (by decide) input).trans htcp
  · exact (queued_noPoison hmax .subLength (by decide) input).trans htcp

theorem copy_iff {msgmax : ℕ} (hmax : maxMsgSize ≤ msgmax) (input : ReadEnd) :
    NoPoison msgmax .copy input ↔ Pipeline.copy.Legal input.bytes := by
  have hcopies : Copies input.bytes ↔ Pipeline.copy.Legal input.bytes := by
    rw [copies_iff]
    simp [Pipeline.Legal, Plain]
  refine ⟨fun h => hcopies.mp (h.copied rfl), fun h => ⟨fun n buf msg hm => ?_, fun n buf => ?_,
    fun _ => hcopies.mpr h⟩⟩
  · refine (accepts_iff hmax .copy msg).mpr ⟨?_, fun hc => absurd rfl hc⟩
    refine (line_lets_in input.bytes fun n => 0 < n).mpr (fun l hl => (h l ?_).1) n buf msg hm
    exact (List.takeWhile_prefix _).subset hl
  · refine line_stores ((line_lets_in input.bytes fun n => n ≤ maxMsgSize).mpr (fun l hl => ?_) n buf)
    have hlong := (h l ((List.takeWhile_prefix _).subset hl)).2
    exact Nat.le_trans hlong (Nat.sub_le _ _)

/-- What the input side of a pipeline lets in stays in its buffer and is taken by every later `Put`
on a working channel, and lines are copied whole, exactly on the legal inputs of the pipeline. -/
theorem no_poison_iff_legal (msgmax : ℕ) (hmax : maxMsgSize ≤ msgmax) (p : Pipeline)
    (input : ReadEnd) : NoPoison msgmax p input ↔ p.Legal input.bytes := by
  cases p with
  | pubLine => exact pubLine_iff hmax input
  | pubLength => exact pubLength_iff hmax input
  | subLine => exact sub_iff hmax .subLine (.inl rfl) input
  | subLength => exact sub_iff hmax .subLength (.inr rfl) input
  | copy => exact copy_iff hmax input

theorem two_lines_copied :
    maxMsgSize ≤ 8192 ∧ NoPoison 8192 .copy ⟨[97, 10, 98, 99, 10], [], false⟩ :=
  ⟨by decide, (no_poison_iff_legal 8192 (by decide) .copy _).mpr
    (by unfold Pipeline.Legal; decide)⟩

/-- A blank line: the publisher queues a message that no producer can forward, and the
copying tools end at it. -/
theorem blank_line_poisons :
    ¬ NoPoison 8192 .pubLine ⟨[10], [], false⟩ ∧ ¬ NoPoison 8192 .copy ⟨[10], [], false⟩ := by
  rw [pubLine_iff (by decide), copy_iff (by decide)]
  unfold Pipeline.Legal
  decide

end Wissbi.PoisonMessages
