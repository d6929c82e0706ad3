import Wissbi.LengthPolicy

set_option autoImplicit false

namespace Wissbi.StringPolicy
open Buffers LengthPolicy Streams

/-- The state bits belong to the stream on the buffer, and `Send` does not touch them. -/
def send (s : IStream) (msg : Msg) : IStream := { s with data := enc msg }

theorem get_send (s : IStream) (buf : MsgBuf) (msg : Msg) (hs : s.good = true)
    (hm : msg.length < 2 ^ 31) :
    (LengthPolicy.get (send s msg) buf).ok = true ∧
    (LengthPolicy.get (send s msg) buf).msg.data = msg ∧
    (LengthPolicy.get (send s msg) buf).rest.good = true := by
  have h := get_enc (send s msg) buf msg [] hs (List.append_nil _).symm hm
  exact ⟨h.1, h.2.1, h.2.2.1⟩

end Wissbi.StringPolicy
