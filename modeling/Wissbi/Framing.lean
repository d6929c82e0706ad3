import Mathlib.Data.Int.ModEq
import Mathlib.Data.List.Basic

set_option autoImplicit false

/-!
# Framed messages in a byte stream

A codec writes each message as a frame that its decoder takes off the front of a
stream again. A codec is strict when a frame that was cut short decodes to
nothing: then whatever prefix of a stream of frames survives, only whole frames
come out of it.
-/
namespace Wissbi.Framing

variable {M β : Type*}

def decodeN (dec : List β → Option (M × List β)) : ℕ → List β → List M
  | 0, _ => []
  | n + 1, bytes =>
    match dec bytes with
    | none => []
    | some (m, rest) => m :: decodeN dec n rest

/-- Reading again and again takes these messages off the front of the input and leaves
`rest`; `next` says what one reading does. -/
def Reads (next : List β → M → List β → Prop) : List β → List M → List β → Prop
  | bytes, [], rest => bytes = rest
  | bytes, m :: ms, rest => ∃ after, next bytes m after ∧ Reads next after ms rest

structure Codec (M β : Type*) where
  valid : M → Prop
  enc : M → List β
  dec : List β → Option (M × List β)
  dec_enc : ∀ m rest, valid m → dec (enc m ++ rest) = some (m, rest)

def Codec.Strict (c : Codec M β) : Prop :=
  ∀ m cut, c.valid m → cut <+: c.enc m → cut ≠ c.enc m → c.dec cut = none

/-- What a sender that gave up inside a frame leaves on the stream. -/
def Codec.Cut (c : Codec M β) (cut : List β) : Prop :=
  ∃ m, c.valid m ∧ cut <+: c.enc m ∧ cut ≠ c.enc m

theorem decodeN_none (dec : List β → Option (M × List β)) (n : ℕ) (bytes : List β)
    (h : dec bytes = none) : decodeN dec n bytes = [] := by
  cases n with
  | zero => rfl
  | succ n => simp [decodeN, h]

theorem reads_flatMap {next : List β → M → List β → Prop} {enc : M → List β} {ms : List M}
    (rest : List β) (h : ∀ m ∈ ms, ∀ after, next (enc m ++ after) m after) :
    Reads next (ms.flatMap enc ++ rest) ms rest := by
  induction ms with
  | nil => rfl
  | cons m ms ih =>
    refine ⟨ms.flatMap enc ++ rest, ?_, ih fun x hx => h x (by simp [hx])⟩
    rw [List.flatMap_cons, List.append_assoc]
    exact h m (by simp) _

theorem prefix_or_extends {a b c : List β} (h : a <+: b ++ c) :
    (a <+: b ∧ a ≠ b) ∨ ∃ d, a = b ++ d ∧ d <+: c := by
  obtain h₁ | h₂ := List.prefix_or_prefix_of_prefix h (List.prefix_append b c)
  · by_cases he : a = b
    · exact .inr ⟨[], by simp [he], List.nil_prefix⟩
    · exact .inl ⟨h₁, he⟩
  · obtain ⟨d, rfl⟩ := h₂
    exact .inr ⟨d, rfl, (List.prefix_append_right_inj b).mp h⟩

theorem decodeN_prefix (c : Codec M β) (strict : c.Strict) {ms : List M} {cut bytes : List β}
    (hms : ∀ m ∈ ms, c.valid m) (hcut : c.Cut cut)
    (h : bytes <+: ms.flatMap c.enc ++ cut) (n : ℕ) : decodeN c.dec n bytes <+: ms := by
  induction ms generalizing bytes n with
  | nil =>
    obtain ⟨m, hm, hp, hne⟩ := hcut
    have hb : bytes <+: cut := by simpa using h
    have hnone : c.dec bytes = none := by
      apply strict m bytes hm (hb.trans hp)
      rintro rfl
      exact hne (hp.eq_of_length_le hb.length_le)
    exact List.prefix_nil.mpr (decodeN_none _ _ _ hnone)
  | cons m ms ih =>
    rw [List.flatMap_cons, List.append_assoc] at h
    have hm := hms m (by simp)
    obtain ⟨hp, hne⟩ | ⟨d, rfl, hd⟩ := prefix_or_extends h
    · rw [decodeN_none _ _ _ (strict m bytes hm hp hne)]
      exact List.nil_prefix
    · cases n with
      | zero => exact List.nil_prefix
      | succ n =>
        simp only [decodeN, c.dec_enc m d hm]
        exact List.cons_prefix_cons.mpr ⟨rfl, ih (fun x hx => hms x (by simp [hx])) hd n⟩

theorem frames_before_cut (c : Codec M β) (strict : c.Strict) (hnil : c.dec [] = none)
    {ms : List M} {bytes : List β} (hms : ∀ m ∈ ms, c.valid m) (h : bytes <+: ms.flatMap c.enc) :
    ∃ k ≤ ms.length,
      (∀ j ≤ ms.length, ((ms.take j).flatMap c.enc).length ≤ bytes.length ↔ j ≤ k) ∧
      ∃ rest, bytes = (ms.take k).flatMap c.enc ++ rest ∧ c.dec rest = none := by
  induction ms generalizing bytes with
  | nil =>
    have hb : bytes = [] := by simpa using h
    refine ⟨0, Nat.le_refl 0, ?_, [], by simp [hb], hnil⟩
    intro j hj
    simpa using hj
  | cons m ms ih =>
    rw [List.flatMap_cons] at h
    have hm := hms m (by simp)
    obtain ⟨hp, hne⟩ | ⟨d, rfl, hd⟩ := prefix_or_extends h
    · -- the cut falls inside the first frame
      have hlt : bytes.length < (c.enc m).length :=
        Nat.lt_of_not_le fun hle => hne (hp.eq_of_length_le hle)
      refine ⟨0, Nat.zero_le _, ?_, bytes, by simp, strict m bytes hm hp hne⟩
      intro j _
      cases j with
      | zero => simp
      | succ j =>
        simp only [List.take_succ_cons, List.flatMap_cons, List.length_append]
        omega
    · obtain ⟨k, hk, hmax, rest, rfl, hrest⟩ := ih (fun x hx => hms x (by simp [hx])) hd
      refine ⟨k + 1, by simpa using hk, ?_, rest, by simp, hrest⟩
      intro j hj
      cases j with
      | zero => simp
      | succ j =>
        have hj' : j ≤ ms.length := by simpa using hj
        have hiff := hmax j hj'
        simp only [List.take_succ_cons, List.flatMap_cons, List.length_append] at hiff ⊢
        omega

end Wissbi.Framing
