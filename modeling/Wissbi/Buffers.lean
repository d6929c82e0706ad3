import Wissbi.Framing

set_option autoImplicit false

namespace Wissbi.Buffers
open Framing

abbrev Msg := List UInt8

def maxMsgSize : ℕ := 4096

/-- `buf` is the memory that starts at the C array, which ends at `maxMsgSize`. Behind it lies
`len`, which a write past the end changes: what follows such a write has no meaning here. -/
structure MsgBuf where
  mtype : ℤ
  buf : ℕ → UInt8
  len : ℕ

def MsgBuf.data (msg : MsgBuf) : Msg := (List.range msg.len).map msg.buf

def MsgBuf.store (msg : MsgBuf) (bytes : List UInt8) : MsgBuf :=
  { msg with buf := fun i => bytes.getD i (msg.buf i) }

/-- What a call of some `Get` leaves behind. `stored` is one more than the last
index of `buf` that the call wrote, and zero when it wrote nothing there. -/
structure GetResult (σ : Type) where
  ok : Bool
  msg : MsgBuf
  stored : ℕ
  rest : σ

def gets {σ : Type} (get : σ → MsgBuf → GetResult σ) : ℕ → σ → MsgBuf → List MsgBuf
  | 0, _, _ => []
  | n + 1, s, msg =>
    let r := get s msg
    if r.ok then r.msg :: gets get n r.rest r.msg else []

/-- How far each of at most `n` successive calls of a `Get` writes, up to and with the first call
that returns false. -/
def stores {σ : Type} (get : σ → MsgBuf → GetResult σ) : ℕ → σ → MsgBuf → List ℕ
  | 0, _, _ => []
  | n + 1, s, msg =>
    let r := get s msg
    r.stored :: if r.ok then stores get n r.rest r.msg else []

def calls {σ : Type} (get : σ → MsgBuf → GetResult σ) : ℕ → σ → MsgBuf → List (GetResult σ)
  | 0, _, _ => []
  | n + 1, s, msg =>
    let r := get s msg
    r :: calls get n r.rest r.msg

def puts {σ : Type} (put : σ → MsgBuf → Bool × σ) : σ → List MsgBuf → List Bool × σ
  | s, [] => ([], s)
  | s, msg :: msgs =>
    let r := put s msg
    let rest := puts put r.2 msgs
    (r.1 :: rest.1, rest.2)

def GetResult.seen {σ : Type} (r : GetResult σ) : Bool × ℕ × Msg := (r.ok, r.msg.len, r.msg.data)

/-- Conversion of a signed value to `size_t` (64 bits). -/
def toSize (z : ℤ) : ℕ := (z % 2 ^ 64).toNat

@[simp] theorem data_length (msg : MsgBuf) : msg.data.length = msg.len := by
  simp [MsgBuf.data]

theorem data_eq_nil (msg : MsgBuf) : msg.data = [] ↔ msg.len = 0 := by
  rw [← List.length_eq_zero_iff, data_length]

theorem gets_data {σ : Type} (get : σ → MsgBuf → GetResult σ)
    (dec : List UInt8 → Option (Msg × List UInt8)) (input : σ → List UInt8) (I : σ → Prop)
    (hnone : ∀ s msg, dec (input s) = none → (get s msg).ok = false)
    (hsome : ∀ s msg m rest, I s → dec (input s) = some (m, rest) →
      (get s msg).ok = true ∧ (get s msg).msg.data = m ∧ I (get s msg).rest ∧
        input (get s msg).rest = rest)
    (n : ℕ) (s : σ) (msg : MsgBuf) (hs : I s) :
    (gets get n s msg).map MsgBuf.data = decodeN dec n (input s) := by
  induction n generalizing s msg with
  | zero => rfl
  | succ n ih =>
    cases h : dec (input s) with
    | none => simp [gets, decodeN, h, hnone s msg h]
    | some p =>
      obtain ⟨h₁, h₂, h₃, h₄⟩ := hsome s msg p.1 p.2 hs h
      have hr := ih (get s msg).rest (get s msg).msg h₃
      rw [h₄] at hr
      simp only [gets, decodeN, h, h₁, ↓reduceIte, List.map_cons, h₂]
      exact congrArg (p.1 :: ·) hr

theorem stores_le {σ : Type} (get : σ → MsgBuf → GetResult σ)
    (hget : ∀ s msg, ((get s msg).ok = true → (get s msg).msg.len ≤ maxMsgSize) →
      (get s msg).stored ≤ maxMsgSize)
    (n : ℕ) (s : σ) (msg : MsgBuf) (h : ∀ m ∈ gets get n s msg, m.len ≤ maxMsgSize) :
    ∀ k ∈ stores get n s msg, k ≤ maxMsgSize := by
  induction n generalizing s msg with
  | zero => simp [stores]
  | succ n ih =>
    cases hok : (get s msg).ok with
    | false =>
      simp only [stores, hok, Bool.false_eq_true, ↓reduceIte, List.mem_singleton, forall_eq]
      exact hget s msg fun ht => by rw [hok] at ht; cases ht
    | true =>
      simp only [gets, hok, ↓reduceIte, List.forall_mem_cons] at h
      simp only [stores, hok, ↓reduceIte, List.forall_mem_cons]
      exact ⟨hget s msg fun _ => h.1, ih _ _ h.2⟩

theorem calls_reads {σ : Type} (get : σ → MsgBuf → GetResult σ)
    (next : List UInt8 → Msg → List UInt8 → Prop) (input : σ → List UInt8) (I : σ → Prop)
    (hnext : ∀ s msg m rest, I s → next (input s) m rest →
      (get s msg).ok = true ∧ (get s msg).msg.data = m ∧ I (get s msg).rest ∧
        input (get s msg).rest = rest)
    {ms : List Msg} {rest : List UInt8}
    (hstop : ∀ s msg, I s → input s = rest → (get s msg).ok = false ∧ (get s msg).msg.len = 0)
    (s : σ) (msg : MsgBuf) (hs : I s) (h : Reads next (input s) ms rest) :
    (calls get (ms.length + 1) s msg).map GetResult.seen =
      ms.map (fun m => (true, m.length, m)) ++ [(false, 0, [])] := by
  induction ms generalizing s msg with
  | nil =>
    obtain ⟨h₁, h₂⟩ := hstop s msg hs h
    simp [calls, GetResult.seen, h₁, h₂, (data_eq_nil _).mpr h₂]
  | cons m ms ih =>
    obtain ⟨after, hd, hrest⟩ := h
    obtain ⟨h₁, h₂, h₃, h₄⟩ := hnext s msg m after hs hd
    have hl : (get s msg).msg.len = m.length := by rw [← data_length, h₂]
    rw [← h₄] at hrest
    rw [List.length_cons, calls, List.map_cons, ih _ _ h₃ hrest]
    simp [GetResult.seen, h₁, h₂, hl]

theorem puts_enc (put : List UInt8 → MsgBuf → Bool × List UInt8) (enc : Msg → List UInt8)
    (hput : ∀ out msg, msg.len ≠ 0 → put out msg = (true, out ++ enc msg.data))
    (out : List UInt8) (msgs : List MsgBuf) (h : ∀ msg ∈ msgs, msg.len ≠ 0) :
    puts put out msgs =
      (msgs.map fun _ => true, out ++ (msgs.map MsgBuf.data).flatMap enc) := by
  induction msgs generalizing out with
  | nil => simp [puts]
  | cons msg msgs ih =>
    rw [puts, hput out msg (h msg (by simp)), ih _ fun x hx => h x (by simp [hx])]
    simp [List.append_assoc]

theorem store_data (msg : MsgBuf) (bytes extra : List UInt8) :
    ({ msg.store (bytes ++ extra) with len := bytes.length } : MsgBuf).data = bytes := by
  apply List.ext_getElem
  · simp [MsgBuf.data]
  · intro i h₁ h₂
    simp [MsgBuf.data, MsgBuf.store, List.getD, List.getElem?_append_left h₂,
      List.getElem?_eq_getElem h₂]

theorem store_data_exact (msg : MsgBuf) (bytes : List UInt8) :
    ({ msg.store bytes with len := bytes.length } : MsgBuf).data = bytes := by
  simpa using store_data msg bytes []

theorem toSize_of_nonneg (z : ℤ) (h₀ : 0 ≤ z) (h₁ : z < 2 ^ 64) : toSize z = z.toNat := by
  unfold toSize
  rw [Int.emod_eq_of_lt h₀ h₁]

theorem toSize_of_neg (z : ℤ) (h₀ : z < 0) (h₁ : -2 ^ 32 ≤ z) : maxMsgSize < toSize z := by
  have hm : z % 2 ^ 64 = z + 2 ^ 64 := by omega
  unfold toSize maxMsgSize
  omega

end Wissbi.Buffers
