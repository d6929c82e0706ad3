import Wissbi.Buffers

set_option autoImplicit false

/-!
# `io_policy/tcp.hpp`

A socket is modelled by what the kernel will do with it. `read` takes at most
the next entry of `chunks` plus one byte, so every way of splitting the bytes
into positive pieces is one value of `chunks`; after the bytes it returns `0`, or
`-1` when `failed`. `write` follows `results`, one entry a call (`none` is an
error), and afterwards takes all it is offered unless the socket is `broken`.
-/
namespace Wissbi.TcpPolicy
open Buffers

structure ReadEnd where
  bytes : List UInt8
  chunks : List ℕ
  failed : Bool
  deriving DecidableEq, Repr

/-- `none` is a return value of `-1` and `some []` one of `0`. -/
def ReadEnd.read (fd : ReadEnd) (size : ℕ) : Option (List UInt8) × ReadEnd :=
  match fd.bytes with
  | [] => (if fd.failed then none else some [], fd)
  | b :: bs =>
    let n := match fd.chunks with
      | [] => size
      | c :: _ => min size (c + 1)
    (some ((b :: bs).take n), { fd with bytes := (b :: bs).drop n, chunks := fd.chunks.tail })

structure ReadAll where
  ret : ℤ
  bytes : List UInt8
  fd : ReadEnd
  deriving DecidableEq, Repr

def readLoop (size : ℕ) (fd : ReadEnd) (got : List UInt8) : ReadAll :=
  if got.length < size then
    match fd.read (size - got.length) with
    | (none, fd') => ⟨-1, got, fd'⟩
    | (some [], fd') => ⟨0, got, fd'⟩
    | (some (b :: bs), fd') => readLoop size fd' (got ++ b :: bs)
  else ⟨got.length, got, fd⟩
termination_by size - got.length
decreasing_by simp only [List.length_append, List.length_cons]; omega

def readAll (fd : ReadEnd) (size : ℕ) : ReadAll := readLoop size fd []

structure WriteEnd where
  sent : List UInt8
  results : List (Option ℕ)
  broken : Bool
  deriving DecidableEq, Repr

def writeLoop (buf : List UInt8) (broken : Bool) :
    List (Option ℕ) → ℕ → List UInt8 → Bool × WriteEnd
  | results, sizeWrite, sent =>
    if sizeWrite < buf.length then
      match results with
      | [] =>
        if broken then (false, ⟨sent, [], broken⟩)
        else (true, ⟨sent ++ buf.drop sizeWrite, [], broken⟩)
      | none :: rest => (false, ⟨sent, rest, broken⟩)
      | some n :: rest =>
        let k := min n (buf.length - sizeWrite)
        writeLoop buf broken rest (sizeWrite + k) (sent ++ (buf.drop sizeWrite).take k)
    else (true, ⟨sent, results, broken⟩)

def writeAll (fd : WriteEnd) (buf : List UInt8) : Bool × WriteEnd :=
  writeLoop buf fd.broken fd.results 0 fd.sent

/-- The four bytes of `htonl`, most significant first; the argument is cut to 32
bits as in the assignment to `uint32_t`. -/
def htonl (n : ℕ) : List UInt8 :=
  [UInt8.ofNat (n / 2 ^ 24), UInt8.ofNat (n / 2 ^ 16), UInt8.ofNat (n / 2 ^ 8), UInt8.ofNat n]

def ntohl (bytes : List UInt8) : ℕ := bytes.foldl (fun v b => 256 * v + b.toNat) 0

def put (fd : WriteEnd) (msg : MsgBuf) : Bool × WriteEnd :=
  if msg.len = 0 then (false, fd)
  else
    let header := writeAll fd (htonl msg.len)
    if header.1 then writeAll header.2 msg.data else header

def get (fd : ReadEnd) (msg : MsgBuf) : GetResult ReadEnd :=
  let header := readAll fd 4
  if toSize header.ret ≠ 4 then ⟨false, { msg with len := 0 }, 0, header.fd⟩
  else
    let n := ntohl header.bytes
    let body := readAll header.fd n
    let msg' := { msg.store body.bytes with len := n }
    if n ≠ toSize body.ret then ⟨false, { msg' with len := 0 }, body.bytes.length, body.fd⟩
    else ⟨true, msg', body.bytes.length, body.fd⟩

def frame (m : Msg) : List UInt8 := htonl m.length ++ m

/-- The bytes offered to the next `write` of a `Put` of `m` that has got rid of
`k` bytes of its frame: header and body go out in two separate loops. -/
def offered (m : Msg) (k : ℕ) : List UInt8 :=
  if k < 4 then (htonl m.length).drop k else m.drop (k - 4)

def decode (bytes : List UInt8) : Option (Msg × List UInt8) :=
  let n := ntohl (bytes.take 4)
  if 4 ≤ bytes.length ∧ n ≤ (bytes.drop 4).length then
    some ((bytes.drop 4).take n, (bytes.drop 4).drop n)
  else none

@[simp] theorem htonl_length (n : ℕ) : (htonl n).length = 4 := rfl

theorem ntohl_htonl (n : ℕ) (h : n < 2 ^ 32) : ntohl (htonl n) = n := by
  simp only [ntohl, htonl, List.foldl_cons, List.foldl_nil, UInt8.toNat_ofNat']
  omega

@[simp] theorem frame_length (m : Msg) : (frame m).length = 4 + m.length := by
  simp [frame]

theorem read_progress (fd : ReadEnd) (size : ℕ) (h : fd.bytes ≠ []) (hs : 0 < size) :
    ∃ n fd', 0 < n ∧ n ≤ size ∧ n ≤ fd.bytes.length ∧ fd'.bytes = fd.bytes.drop n ∧
      fd.read size = (some (fd.bytes.take n), fd') := by
  obtain ⟨b, bs, hb⟩ := List.exists_cons_of_ne_nil h
  have take_min (n : ℕ) : (b :: bs).take (min n (b :: bs).length) = (b :: bs).take n := by
    rw [List.take_eq_take_min, List.take_eq_take_min (i := n)]
    simp
  have drop_min (n : ℕ) : (b :: bs).drop (min n (b :: bs).length) = (b :: bs).drop n := by
    by_cases hn : n ≤ (b :: bs).length
    · rw [Nat.min_eq_left hn]
    · rw [Nat.min_eq_right (by omega), List.drop_length, List.drop_of_length_le (by omega)]
  have hl : 0 < (b :: bs).length := by simp
  unfold ReadEnd.read
  rw [hb]
  cases fd.chunks with
  | nil =>
    refine ⟨min size (b :: bs).length, ⟨(b :: bs).drop size, [], fd.failed⟩, ?_, ?_, ?_, ?_, ?_⟩
    any_goals omega
    · exact (drop_min size).symm
    · simp only [take_min, List.tail_nil]
  | cons c cs =>
    refine ⟨min (min size (c + 1)) (b :: bs).length,
      ⟨(b :: bs).drop (min size (c + 1)), cs, fd.failed⟩, ?_, ?_, ?_, ?_, ?_⟩
    any_goals omega
    · exact (drop_min _).symm
    · simp only [take_min, List.tail_cons]

end Wissbi.TcpPolicy
