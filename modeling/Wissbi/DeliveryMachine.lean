import Wissbi.LengthPolicy
import Wissbi.LinePolicy
import Wissbi.Runs
import Wissbi.SysvMqPolicy
import Wissbi.TcpPolicy

set_option autoImplicit false

/-!
# From the input of the publishers to the output of one subscriber

Each publisher has one branch and one connection, and the subscriber one reader
for each connection and one output writer. No connection breaks, no publisher
exits before its branch has drained, and every put on a queue succeeds; the queues
are FIFO, and `write` and `read` move any number of bytes of what they were asked for.
-/
namespace Wissbi.DeliveryMachine
open Buffers Streams SysvMqPolicy TcpPolicy

inductive Format where
  | line
  | length
  deriving DecidableEq, Repr

def Format.get : Format → IStream → MsgBuf → GetResult IStream
  | .line => LinePolicy.get
  | .length => LengthPolicy.get

def Format.put : Format → List UInt8 → MsgBuf → Bool × List UInt8
  | .line => LinePolicy.put
  | .length => LengthPolicy.put

def Format.enc : Format → Msg → List UInt8
  | .line => LinePolicy.enc
  | .length => LengthPolicy.enc

def Format.Legal : Format → Msg → Prop
  | .line, m => 0 < m.length ∧ m.length ≤ maxMsgSize - 1 ∧ newline ∉ m
  | .length, m => 0 < m.length ∧ m.length ≤ maxMsgSize

/-- The text holds these messages; the last line may lack its newline. -/
def Format.Carries : Format → List UInt8 → List Msg → Prop
  | .line, bytes, msgs => LinePolicy.lines bytes = msgs
  | .length, bytes, msgs => bytes = msgs.flatMap LengthPolicy.enc

structure Source where
  fmt : Format
  bytes : List UInt8
  msgs : List Msg
  msgBuf : MsgBuf
  legal : ∀ m ∈ msgs, fmt.Legal m
  carries : fmt.Carries bytes msgs

inductive Input where
  | getting
  | putting
  | returned
  deriving DecidableEq, Repr

/-- The producer in its `FilterLoop`; it stops at a message that `Get` or `Put` refuses. -/
inductive Producer where
  | waiting
  | writing (m : Msg) (k : ℕ)
  | stopped
  deriving DecidableEq, Repr

/-- The reader inside `TCP::Get`, with the bytes of the header and of the body it has got so
far, or with a message for the queue. -/
inductive Reader where
  | header (got : List UInt8)
  | body (header got : List UInt8)
  | putting (m : Msg)
  deriving DecidableEq, Repr

structure Lane where
  fmt : Format
  stream : IStream
  msgBuf : MsgBuf
  input : Input
  queue : Queue
  producer : Producer
  wire : List UInt8
  reader : Reader

inductive Writer where
  | getting
  | putting
  | stopped
  deriving DecidableEq, Repr

structure Subscriber where
  fmt : Format
  queue : Queue
  msgBuf : MsgBuf
  writer : Writer
  stdout : List UInt8

structure State where
  lanes : List Lane
  sub : Subscriber

inductive LaneAct where
  | get
  | put
  | msgrcv
  | write (n : ℕ)
  | read (n : ℕ)
  | readEnd
  | msgsnd
  deriving DecidableEq, Repr

inductive Act where
  | lane (i : ℕ) (a : LaneAct)
  | writerGet
  | writerPut
  deriving DecidableEq, Repr

/-- A step of a lane and the message, if any, that its reader puts on the subscriber's queue. -/
def Lane.step (l : Lane) : LaneAct → Option (Lane × List Msg)
  | .get =>
    match l.input with
    | .getting =>
      let r := l.fmt.get l.stream l.msgBuf
      some ({ l with
        stream := r.rest
        msgBuf := r.msg
        input := if r.ok then .putting else .returned }, [])
    | _ => none
  | .put =>
    match l.input with
    | .putting => some ({ l with queue := l.queue ++ [l.msgBuf.data], input := .getting }, [])
    | _ => none
  | .msgrcv =>
    match l.producer, l.queue with
    | .waiting, _ :: _ =>
      match SysvMqPolicy.msgrcv false l.queue with
      | some (m, rest) =>
        some ({ l with
          queue := rest
          producer := if m = [] then .stopped else .writing m 0 }, [])
      | none => some ({ l with producer := .stopped }, [])
    | _, _ => none
  | .write n =>
    match l.producer with
    | .writing m k =>
      let chunk := (offered m k).take n
      some ({ l with
        wire := l.wire ++ chunk
        producer :=
          if k + chunk.length = (frame m).length then .waiting
          else .writing m (k + chunk.length) }, [])
    | _ => none
  | .read n =>
    match l.reader with
    | .header got =>
      let chunk := l.wire.take (min n (4 - got.length))
      if chunk = [] then none
      else some ({ l with
        wire := l.wire.drop chunk.length
        reader :=
          if (got ++ chunk).length = 4 then .body (got ++ chunk) []
          else .header (got ++ chunk) }, [])
    | .body header got =>
      let chunk := l.wire.take (min n (ntohl header - got.length))
      if chunk = [] then none
      else some ({ l with
        wire := l.wire.drop chunk.length
        reader := .body header (got ++ chunk) }, [])
    | _ => none
  | .readEnd =>
    match l.reader with
    | .body header got =>
      if got.length = ntohl header then some ({ l with reader := .putting got }, []) else none
    | _ => none
  | .msgsnd =>
    match l.reader with
    | .putting m => some ({ l with reader := .header [] }, [m])
    | _ => none

def Subscriber.get (b : Subscriber) : Option Subscriber :=
  match b.writer, b.queue with
  | .getting, _ :: _ =>
    let r := SysvMqPolicy.get false b.queue b.msgBuf
    some { b with
      queue := r.rest
      msgBuf := r.msg
      writer := if r.ok then .putting else .stopped }
  | _, _ => none

def Subscriber.put (b : Subscriber) : Option Subscriber :=
  match b.writer with
  | .putting =>
    let r := b.fmt.put b.stdout b.msgBuf
    some { b with stdout := r.2, writer := if r.1 then .getting else .stopped }
  | _ => none

def step (s : State) : Act → Option State
  | .lane i a =>
    (s.lanes[i]?).bind fun l =>
      (l.step a).map fun r =>
        { s with
          lanes := s.lanes.set i r.1
          sub := { s.sub with queue := s.sub.queue ++ r.2 } }
  | .writerGet => s.sub.get.map fun b => { s with sub := b }
  | .writerPut => s.sub.put.map fun b => { s with sub := b }

def Source.lane (src : Source) : Lane :=
  ⟨src.fmt, IStream.ofBytes src.bytes, src.msgBuf, .getting, [], .waiting, [], .header []⟩

def start (sources : List Source) (out : Format) (msgBuf : MsgBuf) : State :=
  ⟨sources.map Source.lane, ⟨out, [], msgBuf, .getting, []⟩⟩

end Wissbi.DeliveryMachine
