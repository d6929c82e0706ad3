import Wissbi.Util

set_option autoImplicit false

namespace Wissbi.QueueKeys
open LengthPolicy Util

def keyFile (pid : ℕ) (name : Str) : Str :=
  ascii "/tmp/wissbi.sysvmq." ++ decimal pid ++ [dot] ++ escapeSubFolderPath name

theorem keyFile_eq_iff (pid : ℕ) (a b : Str) :
    keyFile pid a = keyFile pid b ↔ escapeSubFolderPath a = escapeSubFolderPath b := by
  unfold keyFile
  rw [List.append_cancel_left_eq]

theorem escape_eq_iff (a b : Str) (ha : sharp ∉ a) (hb : sharp ∉ b) :
    escapeSubFolderPath a = escapeSubFolderPath b ↔ stripSlash a = stripSlash b := by
  constructor
  · intro h
    rw [← unescape_escape a ha, h, unescape_escape b hb]
  · intro h
    rw [escape_of_sharpless a ha, escape_of_sharpless b hb, h]

def Slashed (a b : Str) : Prop := a.getLast? ≠ some slash ∧ b = a ++ [slash]

theorem stripSlash_snoc (a : Str) : stripSlash (a ++ [slash]) = a := by
  simp [stripSlash]

theorem stripSlash_cases (a : Str) :
    (a.getLast? ≠ some slash ∧ stripSlash a = a) ∨ a = stripSlash a ++ [slash] := by
  unfold stripSlash
  by_cases h : a.getLast? = some slash
  · rw [if_pos h]
    exact .inr (List.dropLast_append_getLast? slash h).symm
  · rw [if_neg h]
    exact .inl ⟨h, rfl⟩

theorem stripSlash_eq_iff (a b : Str) :
    stripSlash a = stripSlash b ↔ a = b ∨ Slashed a b ∨ Slashed b a := by
  constructor
  · intro h
    rcases stripSlash_cases a with ⟨ha, ea⟩ | ea <;> rcases stripSlash_cases b with ⟨hb, eb⟩ | eb
    · exact .inl (by rw [← ea, h, eb])
    · exact .inr (.inl ⟨ha, by rw [eb, ← h, ea]⟩)
    · exact .inr (.inr ⟨hb, by rw [ea, h, eb]⟩)
    · exact .inl (by rw [ea, h, ← eb])
  · rintro (rfl | ⟨ha, rfl⟩ | ⟨hb, rfl⟩)
    · rfl
    · rw [stripSlash_snoc, stripSlash, if_neg ha]
    · rw [stripSlash_snoc, stripSlash, if_neg hb]

/-- Two names of branches share their queue exactly when they are the same but for one
trailing slash. -/
theorem keyFile_shared_iff (pid : ℕ) (a b : Str) (ha : sharp ∉ a) (hb : sharp ∉ b) :
    keyFile pid a = keyFile pid b ↔ a = b ∨ Slashed a b ∨ Slashed b a := by
  rw [keyFile_eq_iff, escape_eq_iff a b ha hb, stripSlash_eq_iff]

theorem sharp_not_mem_unescape (s : Str) : sharp ∉ unescapeSubFolderPath s :=
  not_mem_replace _ _ _ (by decide)

end Wissbi.QueueKeys
