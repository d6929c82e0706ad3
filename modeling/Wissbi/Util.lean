import Wissbi.LengthPolicy

set_option autoImplicit false

namespace Wissbi.Util
open LengthPolicy Streams

/-- The bytes of a `std::string`. Names and addresses come from the command line, from file names
and from the C library, so they hold no NUL. -/
abbrev Str := List UInt8

def ascii (s : String) : Str := s.toList.map fun c => UInt8.ofNat c.toNat

def sharp : UInt8 := 35
def comma : UInt8 := 44
def dot : UInt8 := 46
def slash : UInt8 := 47
def colon : UInt8 := 58

def upTo (c : UInt8) (s : Str) : Str := s.takeWhile (· != c)

/-- `s.substr(s.find(c) + 1)`; without a `c`, `npos + 1` is zero and it is all of `s`. -/
def beyond (c : UInt8) (s : Str) : Str := if c ∈ s then (s.dropWhile (· != c)).tail else s

def replace (a b : UInt8) (s : Str) : Str := s.map fun c => if c = a then b else c

/-- Slashes become sharps and the last character goes if it is one then. The empty name
has no last character for `res.end() - 1` to stand on; it is left as it is. -/
def escapeSubFolderPath (unescaped : Str) : Str :=
  let res := replace slash sharp unescaped
  if res.getLast? = some sharp then res.dropLast else res

def unescapeSubFolderPath (escaped : Str) : Str := replace sharp slash escaped

structure InAddr where
  a : UInt8
  b : UInt8
  c : UInt8
  d : UInt8
  deriving DecidableEq, Repr

/-- `sin_port` is in network order. -/
structure SockaddrIn where
  family : ℕ
  port : UInt16
  addr : InAddr
  deriving DecidableEq, Repr

def afInet : ℕ := 2

def inetNtoa (ip : InAddr) : Str :=
  decimal ip.a.toNat ++ [dot] ++ decimal ip.b.toNat ++ [dot] ++ decimal ip.c.toNat ++ [dot] ++
    decimal ip.d.toNat

def ntohs (p : UInt16) : ℕ := p.toNat % 256 * 256 + p.toNat / 256

/-- The argument is cut to 16 bits. -/
def htons (n : ℤ) : UInt16 :=
  let v := (n % 2 ^ 16).toNat
  UInt16.ofNat (v % 256 * 256 + v / 256)

def sockaddrToConnectString (addr : SockaddrIn) : Str :=
  inetNtoa addr.addr ++ [colon] ++ decimal (ntohs addr.port)

/-- `inetAddr` stands for `inet_addr` of the C library. -/
def connectStringToSockaddr (inetAddr : Str → InAddr) (connStr : Str) : SockaddrIn :=
  ⟨afInet, htons (readInt (IStream.ofBytes (beyond colon connStr))).1,
    inetAddr (upTo colon connStr)⟩

theorem upTo_append (c : UInt8) (a b : Str) (h : c ∉ a) : upTo c (a ++ c :: b) = a := by
  unfold upTo
  rw [List.takeWhile_append_of_pos]
  · simp
  · intro x hx
    exact bne_iff_ne.mpr fun he => h (he ▸ hx)

theorem beyond_append (c : UInt8) (a b : Str) (h : c ∉ a) : beyond c (a ++ c :: b) = b := by
  unfold beyond
  rw [if_pos (by simp), List.dropWhile_append_of_pos]
  · simp
  · intro x hx
    exact bne_iff_ne.mpr fun he => h (he ▸ hx)

theorem replace_append (a b : UInt8) (s t : Str) :
    replace a b (s ++ t) = replace a b s ++ replace a b t :=
  List.map_append

theorem replace_of_not_mem (a b : UInt8) (s : Str) (h : a ∉ s) : replace a b s = s := by
  refine (List.map_congr_left fun c hc => ?_).trans (List.map_id s)
  have hne : c ≠ a := fun he => h (he ▸ hc)
  simp [hne]

theorem not_mem_replace (a b : UInt8) (s : Str) (h : a ≠ b) : a ∉ replace a b s := by
  unfold replace
  simp only [List.mem_map, not_exists, not_and]
  intro c _
  split_ifs with hc
  · exact h.symm
  · exact hc

theorem getLast?_replace (a b : UInt8) (s : Str) :
    (replace a b s).getLast? = s.getLast?.map fun c => if c = a then b else c :=
  List.getLast?_map

theorem dropLast_replace (a b : UInt8) (s : Str) :
    (replace a b s).dropLast = replace a b s.dropLast :=
  List.map_dropLast.symm

theorem replace_replace (a b : UInt8) (s : Str) (h : b ∉ s) :
    replace b a (replace a b s) = s := by
  unfold replace
  rw [List.map_map]
  refine (List.map_congr_left fun c hc => ?_).trans (List.map_id s)
  have hb : c ≠ b := fun he => h (he ▸ hc)
  simp only [Function.comp_apply, id_eq]
  by_cases ha : c = a
  · simp [ha]
  · simp [ha, hb]

def stripSlash (q : Str) : Str := if q.getLast? = some slash then q.dropLast else q

theorem escape_of_sharpless (q : Str) (h : sharp ∉ q) :
    escapeSubFolderPath q = replace slash sharp (stripSlash q) := by
  have hlast : (replace slash sharp q).getLast? = some sharp ↔ q.getLast? = some slash := by
    rw [getLast?_replace, Option.map_eq_some_iff]
    constructor
    · rintro ⟨c, hc, he⟩
      split_ifs at he with hs
      · rwa [hs] at hc
      · exact absurd (he ▸ List.mem_of_getLast? hc) h
    · exact fun hc => ⟨slash, hc, rfl⟩
  unfold escapeSubFolderPath stripSlash
  simp only [hlast]
  split_ifs
  · exact dropLast_replace _ _ _
  · rfl

theorem stripSlash_subset (q : Str) : ∀ c ∈ stripSlash q, c ∈ q := by
  intro c hc
  unfold stripSlash at hc
  split_ifs at hc
  · exact List.mem_of_mem_dropLast hc
  · exact hc

theorem unescape_escape (q : Str) (h : sharp ∉ q) :
    unescapeSubFolderPath (escapeSubFolderPath q) = stripSlash q := by
  rw [escape_of_sharpless q h]
  exact replace_replace _ _ _ fun hc => h (stripSlash_subset q _ hc)

theorem slash_not_mem_escape (q : Str) : slash ∉ escapeSubFolderPath q := by
  have hr : slash ∉ replace slash sharp q := not_mem_replace _ _ _ (by decide)
  unfold escapeSubFolderPath
  simp only
  split_ifs
  · exact fun hc => hr (List.mem_of_mem_dropLast hc)
  · exact hr

theorem not_isDigit_special (c : UInt8) (h : isDigit c = true) :
    c ≠ sharp ∧ c ≠ comma ∧ c ≠ dot ∧ c ≠ slash ∧ c ≠ colon := by
  refine ⟨?_, ?_, ?_, ?_, ?_⟩ <;>
  · rintro rfl
    cases h

theorem mem_inetNtoa (ip : InAddr) (c : UInt8) (h : c ∈ inetNtoa ip) :
    isDigit c = true ∨ c = dot := by
  simp only [inetNtoa, List.mem_append, List.mem_singleton] at h
  rcases h with (((((h | h) | h) | h) | h) | h) | h
  · exact .inl (decimal_isDigit _ c h)
  · exact .inr h
  · exact .inl (decimal_isDigit _ c h)
  · exact .inr h
  · exact .inl (decimal_isDigit _ c h)
  · exact .inr h
  · exact .inl (decimal_isDigit _ c h)

theorem colon_not_mem_inetNtoa (ip : InAddr) : colon ∉ inetNtoa ip := by
  intro h
  rcases mem_inetNtoa ip colon h with h | h <;> cases h

/-- A connect string has digits, dots and a colon, and nothing that separates names. -/
theorem connectString_clean (addr : SockaddrIn) :
    sharp ∉ sockaddrToConnectString addr ∧ comma ∉ sockaddrToConnectString addr ∧
    slash ∉ sockaddrToConnectString addr := by
  have hmem (c : UInt8) (h : c ∈ sockaddrToConnectString addr) :
      isDigit c = true ∨ c = dot ∨ c = colon := by
    simp only [sockaddrToConnectString, List.mem_append, List.mem_singleton] at h
    rcases h with (h | h) | h
    · exact (mem_inetNtoa _ c h).imp id .inl
    · exact .inr (.inr h)
    · exact .inl (decimal_isDigit _ c h)
  refine ⟨fun h => ?_, fun h => ?_, fun h => ?_⟩ <;>
    rcases hmem _ h with h | h | h <;> cases h

theorem htons_ntohs (p : UInt16) : htons (ntohs p) = p := by
  have hp := p.toNat_lt
  have hv : (((p.toNat % 256 * 256 + p.toNat / 256 : ℕ) : ℤ) % 2 ^ 16).toNat =
      p.toNat % 256 * 256 + p.toNat / 256 := by omega
  have hlo : (p.toNat % 256 * 256 + p.toNat / 256) % 256 = p.toNat / 256 := by omega
  have hhi : (p.toNat % 256 * 256 + p.toNat / 256) / 256 = p.toNat % 256 := by omega
  unfold htons ntohs
  simp only [hv, hlo, hhi]
  rw [Nat.div_add_mod', UInt16.ofNat_toNat]

theorem connectStringToSockaddr_roundTrip (inetAddr : Str → InAddr) (addr : SockaddrIn)
    (h : inetAddr (inetNtoa addr.addr) = addr.addr) :
    connectStringToSockaddr inetAddr (sockaddrToConnectString addr) =
      ⟨afInet, addr.port, addr.addr⟩ := by
  have hc := colon_not_mem_inetNtoa addr.addr
  have hp : ntohs addr.port < 2 ^ 31 := by
    have := addr.port.toNat_lt
    unfold ntohs
    omega
  have hr := readInt_number (IStream.ofBytes (decimal (ntohs addr.port))) (ntohs addr.port) [] rfl
    (by simp [IStream.ofBytes]) (by simp) hp
  have hs : sockaddrToConnectString addr =
      inetNtoa addr.addr ++ colon :: decimal (ntohs addr.port) := by
    simp [sockaddrToConnectString]
  unfold connectStringToSockaddr
  rw [hs, upTo_append _ _ _ hc, beyond_append _ _ _ hc, hr, h, htons_ntohs]

theorem decimal_injective (m n : ℕ) (h : decimal m = decimal n) : m = n := by
  rw [← decimalValue_decimal m, h, decimalValue_decimal]

theorem dot_not_mem_decimal (n : ℕ) : dot ∉ decimal n :=
  fun h => (not_isDigit_special _ (decimal_isDigit n _ h)).2.2.1 rfl

end Wissbi.Util
