import Mathlib.Data.List.DropRight
import Wissbi.Util

set_option autoImplicit false

namespace Wissbi.SubEntries
open Streams Util

inductive DType where
  | unknown
  | reg
  | dir
  | lnk
  deriving DecidableEq, Repr

structure Dirent where
  name : Str
  type : DType
  deriving DecidableEq, Repr

def nodeName (metaDir queueName addrStr : Str) (topicMode : Bool) : Str :=
  metaDir ++ ascii "/sub/" ++ queueName ++ [slash] ++ addrStr ++ [comma] ++
    escapeSubFolderPath queueName ++ (if topicMode then dot :: addrStr else [])

def subDirPath (metaDir queueName : Str) : Str := metaDir ++ ascii "/sub/" ++ queueName

/-- The directory in which `open` creates a path and the name it has there. -/
def dirName (path : Str) : Str := (path.rdropWhile (· != slash)).dropLast
def baseName (path : Str) : Str := path.rtakeWhile (· != slash)

def skipped (ent : Dirent) : Bool :=
  ent.name == [dot] || ent.name == [dot, dot] || ent.type == .dir

def parseEntry (entry : Str) : Str × Str :=
  (upTo comma entry, unescapeSubFolderPath (beyond comma entry))

/-- `none` is a directory that cannot be opened. -/
def getSubList (dir : Option (List Dirent)) : List (Str × Str) :=
  match dir with
  | none => []
  | some ents => (ents.filter fun ent => !skipped ent).map fun ent => parseEntry ent.name

def entryName (queueName addrStr : Str) (topicMode : Bool) : Str :=
  addrStr ++ [comma] ++ escapeSubFolderPath queueName ++ (if topicMode then dot :: addrStr else [])

theorem slash_not_mem_entryName (queueName addrStr : Str) (topicMode : Bool)
    (h : slash ∉ addrStr) : slash ∉ entryName queueName addrStr topicMode := by
  have he := slash_not_mem_escape queueName
  have h₁ : slash ≠ comma := by decide
  have h₂ : slash ≠ dot := by decide
  cases topicMode <;> simp [entryName, h, he, h₁, h₂]

theorem path_split (dir name : Str) (h : slash ∉ name) :
    dirName (dir ++ slash :: name) = dir ∧ baseName (dir ++ slash :: name) = name := by
  have hall : ∀ c ∈ name, (c != slash) = true := fun c hc => bne_iff_ne.mpr fun he => h (he ▸ hc)
  constructor
  · unfold dirName List.rdropWhile
    rw [List.reverse_append, List.reverse_cons, List.append_assoc,
      List.dropWhile_append_of_pos (by simpa using hall)]
    simp
  · unfold baseName List.rtakeWhile
    rw [List.reverse_append, List.reverse_cons, List.append_assoc,
      List.takeWhile_append_of_pos (by simpa using hall)]
    simp

theorem nodeName_eq (metaDir queueName addrStr : Str) (topicMode : Bool) :
    nodeName metaDir queueName addrStr topicMode =
      subDirPath metaDir queueName ++ slash :: entryName queueName addrStr topicMode := by
  simp [nodeName, subDirPath, entryName]

theorem nodeName_split (metaDir queueName addrStr : Str) (topicMode : Bool) (h : slash ∉ addrStr) :
    dirName (nodeName metaDir queueName addrStr topicMode) = subDirPath metaDir queueName ∧
    baseName (nodeName metaDir queueName addrStr topicMode) =
      entryName queueName addrStr topicMode := by
  rw [nodeName_eq]
  exact path_split _ _ (slash_not_mem_entryName queueName addrStr topicMode h)

theorem parseEntry_entryName (queueName addrStr : Str) (topicMode : Bool)
    (hc : comma ∉ addrStr) (hh : sharp ∉ addrStr) :
    parseEntry (entryName queueName addrStr topicMode) =
      (addrStr, unescapeSubFolderPath (escapeSubFolderPath queueName) ++
        (if topicMode then dot :: addrStr else [])) := by
  have hn : entryName queueName addrStr topicMode = addrStr ++ comma ::
      (escapeSubFolderPath queueName ++ (if topicMode then dot :: addrStr else [])) := by
    simp [entryName]
  have hs : unescapeSubFolderPath (if topicMode then dot :: addrStr else []) =
      (if topicMode then dot :: addrStr else []) := by
    apply replace_of_not_mem
    have hd : sharp ≠ dot := by decide
    cases topicMode <;> simp [hh, hd]
  unfold parseEntry
  rw [hn, upTo_append _ _ _ hc, beyond_append _ _ _ hc]
  apply congrArg (Prod.mk addrStr)
  exact (replace_append _ _ _ _).trans (congrArg _ hs)

theorem entryName_not_skipped (queueName addrStr : Str) (topicMode : Bool) (type : DType)
    (h : type ≠ .dir) : skipped ⟨entryName queueName addrStr topicMode, type⟩ = false := by
  have hmem : comma ∈ entryName queueName addrStr topicMode := by simp [entryName]
  have hne (s : Str) (hs : comma ∉ s) : entryName queueName addrStr topicMode ≠ s :=
    fun he => hs (he ▸ hmem)
  simp [skipped, h, hne [dot] (by decide), hne [dot, dot] (by decide)]

theorem getSubList_append (xs ys : List Dirent) :
    getSubList (some (xs ++ ys)) = getSubList (some xs) ++ getSubList (some ys) := by
  simp [getSubList]

theorem getSubList_cons (ent : Dirent) (ents : List Dirent) (h : skipped ent = false) :
    getSubList (some (ent :: ents)) = parseEntry ent.name :: getSubList (some ents) := by
  simp [getSubList, h]

/-- A subscriber's entry is listed, wherever it stands in its directory, with the connect
string it was made from and its queue's name without a trailing slash, and the string
leads back to its address and port. -/
theorem discovery_round_trip (metaDir queueName : Str) (addr : SockaddrIn) (topicMode : Bool)
    (inetAddr : Str → InAddr) (before after : List Dirent) (type : DType)
    (hq : queueName ≠ [] ∧ sharp ∉ queueName) (htype : type ≠ .dir)
    (hinet : inetAddr (inetNtoa addr.addr) = addr.addr) :
    let connStr := sockaddrToConnectString addr
    let node := nodeName metaDir queueName connStr topicMode
    dirName node = subDirPath metaDir queueName ∧
    getSubList (some (before ++ ⟨baseName node, type⟩ :: after)) =
      getSubList (some before) ++
        (connStr, stripSlash queueName ++ (if topicMode then dot :: connStr else [])) ::
        getSubList (some after) ∧
    connectStringToSockaddr inetAddr connStr = ⟨afInet, addr.port, addr.addr⟩ := by
  intro connStr node
  obtain ⟨hh, hc, hs⟩ := connectString_clean addr
  obtain ⟨hdir, hbase⟩ := nodeName_split metaDir queueName connStr topicMode hs
  refine ⟨hdir, ?_, connectStringToSockaddr_roundTrip inetAddr addr hinet⟩
  rw [hbase, getSubList_append, getSubList_cons _ _ (entryName_not_skipped _ _ _ _ htype),
    parseEntry_entryName _ _ _ hc hh, unescape_escape queueName hq.2]

theorem child_queue_discovered :
    let addr : SockaddrIn := ⟨afInet, htons 80, ⟨10, 0, 0, 1⟩⟩
    let connStr := sockaddrToConnectString addr
    let inetAddr : Str → InAddr := fun s =>
      if s = ascii "10.0.0.1" then ⟨10, 0, 0, 1⟩ else ⟨255, 255, 255, 255⟩
    connStr = ascii "10.0.0.1:80" ∧
    getSubList (some ([⟨[dot], .dir⟩, ⟨[dot, dot], .dir⟩] ++
        ⟨baseName (nodeName (ascii "/m") (ascii "foo/bar/") connStr true), .reg⟩ :: [])) =
      [] ++ (connStr, stripSlash (ascii "foo/bar/") ++ dot :: connStr) :: [] ∧
    connectStringToSockaddr inetAddr connStr = ⟨afInet, htons 80, ⟨10, 0, 0, 1⟩⟩ := by
  intro addr connStr inetAddr
  refine ⟨by decide, ?_⟩
  exact (discovery_round_trip (ascii "/m") (ascii "foo/bar/") addr true inetAddr
    [⟨[dot], .dir⟩, ⟨[dot, dot], .dir⟩] [] .reg (by decide) (by decide) (by decide)).2

end Wissbi.SubEntries
