import Wissbi.Buffers

set_option autoImplicit false

/-!
# Standard input streams

The operations of `std::istream` that the policies use, as the vendored
`3rd_party/libcxx/include/istream` computes them on a finite input. `badbit` is
left out: it is only set when the stream buffer throws.
-/
namespace Wissbi.Streams

def newline : UInt8 := 10
def blank : UInt8 := 32
def plus : UInt8 := 43
def minus : UInt8 := 45

structure IStream where
  data : List UInt8
  eofbit : Bool
  failbit : Bool
  gcount : ℕ
  deriving DecidableEq, Repr

def IStream.good (s : IStream) : Bool := !s.eofbit && !s.failbit

def IStream.ofBytes (bytes : List UInt8) : IStream := ⟨bytes, false, false, 0⟩

structure Extracted where
  stored : List UInt8
  gcount : ℕ
  rest : List UInt8
  eof : Bool
  fail : Bool
  deriving DecidableEq, Repr

/-- The loop of `getline`: end of input is tested before the delimiter and the
delimiter before the room left in the array. -/
def getlineLoop (n : ℕ) : ℕ → List UInt8 → Extracted
  | gc, [] => ⟨[], gc, [], true, false⟩
  | gc, c :: cs =>
    if c = newline then ⟨[], gc + 1, cs, false, false⟩
    else if n - 1 ≤ gc then ⟨[], gc, c :: cs, false, true⟩
    else
      let r := getlineLoop n (gc + 1) cs
      { r with stored := c :: r.stored }

def getline (s : IStream) (n : ℕ) : List UInt8 × IStream :=
  if s.good then
    let r := getlineLoop n 0 s.data
    (r.stored ++ [0], ⟨r.rest, r.eof, r.fail || r.gcount == 0, r.gcount⟩)
  else ([], { s with failbit := true, gcount := 0 })

def isSpace (c : UInt8) : Bool := c == blank || (9 ≤ c && c ≤ 13)
def isDigit (c : UInt8) : Bool := 48 ≤ c && c ≤ 57

def decimalValue (digits : List UInt8) : ℕ :=
  digits.foldl (fun v c => 10 * v + (c.toNat - 48)) 0

/-- `operator>>(int &)` in the C locale. The value means something only when the
stream is left without `failbit`. -/
def readInt (s : IStream) : ℤ × IStream :=
  if s.good then
    match s.data.dropWhile isSpace with
    | [] => (0, { s with data := [], eofbit := true, failbit := true })
    | c :: cs =>
      let body := if c = plus ∨ c = minus then cs else c :: cs
      let digits := body.takeWhile isDigit
      let rest := body.dropWhile isDigit
      let v : ℤ := if c = minus then -(decimalValue digits : ℤ) else decimalValue digits
      (v, { s with
        data := rest
        eofbit := rest.isEmpty
        failbit := digits.isEmpty || decide (v < -2 ^ 31) || decide (2 ^ 31 - 1 < v) })
  else (0, { s with failbit := true })

def getChar (s : IStream) : IStream :=
  if s.good then
    match s.data with
    | [] => ⟨[], true, true, 0⟩
    | _ :: cs => ⟨cs, false, false, 1⟩
  else { s with failbit := true, gcount := 0 }

/-- `read(s, n)`; the count is a signed `streamsize` and a negative one reads
nothing but fails. -/
def read (s : IStream) (n : ℤ) : List UInt8 × IStream :=
  if s.good then
    let bytes := s.data.take n.toNat
    let short := decide ((bytes.length : ℤ) ≠ n)
    (bytes, ⟨s.data.drop n.toNat, short, short, bytes.length⟩)
  else ([], { s with failbit := true, gcount := 0 })

end Wissbi.Streams
