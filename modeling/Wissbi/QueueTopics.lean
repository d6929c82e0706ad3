import Wissbi.ConnectorPass
import Wissbi.QueueKeys
import Wissbi.SubEntries
import Wissbi.SysvMqPolicy
import Wissbi.TeePolicy

set_option autoImplicit false
set_option maxRecDepth 4000

namespace Wissbi.QueueTopics
open Buffers ConnectorMachine ConnectorPass QueueKeys Runs SubEntries SysvMqPolicy TeePolicy Util

structure Sub where
  addr : SockaddrIn
  topicMode : Bool
  deriving DecidableEq, Repr

def Sub.connStr (b : Sub) : Str := sockaddrToConnectString b.addr

def Sub.entry (metaDir queueName : Str) (b : Sub) : Dirent :=
  ⟨baseName (nodeName metaDir queueName b.connStr b.topicMode), .reg⟩

def plainDest (queueName : Str) : Str := unescapeSubFolderPath (escapeSubFolderPath queueName)

def Sub.dest (queueName : Str) (b : Sub) : Str :=
  plainDest queueName ++ (if b.topicMode then dot :: b.connStr else [])

/-- One branch for the plain subscribers, if there are any, and one for each topic
subscriber. -/
def branches (queueName : Str) (subs : List Sub) : List Str :=
  (if subs.any fun b => !b.topicMode then [plainDest queueName] else []) ++
    (subs.filter Sub.topicMode).map (Sub.dest queueName)

def branchPut (msgmax : ℕ) (accept : Str → Bool) (msg : MsgBuf) (key : Str)
    (queues : Str → Queue) : Bool × (Str → Queue) :=
  let r := SysvMqPolicy.put msgmax (accept key) (queues key) msg
  (r.1, Function.update queues key r.2.1)

theorem getSubList_entries (metaDir : Str) (entries : List (Str × Sub)) :
    getSubList (some (entries.map fun e => e.2.entry metaDir e.1)) =
      entries.map fun e => (e.2.connStr, e.2.dest e.1) := by
  induction entries with
  | nil => rfl
  | cons e entries ih =>
    obtain ⟨hh, hc, hs⟩ := connectString_clean e.2.addr
    have hbase : (e.2.entry metaDir e.1).name = entryName e.1 e.2.connStr e.2.topicMode :=
      (nodeName_split metaDir e.1 e.2.connStr e.2.topicMode hs).2
    have hskip : skipped (e.2.entry metaDir e.1) = false := by
      have hn := entryName_not_skipped e.1 e.2.connStr e.2.topicMode .reg (by decide)
      rwa [← hbase] at hn
    rw [List.map_cons, getSubList_cons _ _ hskip, ih, hbase,
      parseEntry_entryName e.1 e.2.connStr e.2.topicMode hc hh]
    rfl

theorem sharp_not_mem_dest (queueName : Str) (b : Sub) : sharp ∉ b.dest queueName := by
  have hp : sharp ∉ plainDest queueName := sharp_not_mem_unescape _
  have hc : sharp ∉ b.connStr := (connectString_clean b.addr).1
  have hd : sharp ≠ dot := by decide
  cases ht : b.topicMode <;> simp [Sub.dest, ht, hp, hc, hd]

theorem put_once (msgmax : ℕ) (accept : Str → Bool) (msg : MsgBuf) (queues : Str → Queue)
    (names : List Str) (pid : ℕ) (h : (names.map (keyFile pid)).Nodup) (key : Str) :
    (TeePolicy.put (branchPut msgmax accept msg) ⟨names.map fun d => (d, keyFile pid d), 0, 0⟩
        queues).2 key =
      if key ∈ names.map (keyFile pid) ∧ msg.len ≤ msgmax ∧ accept key = true
      then queues key ++ [msg.data] else queues key := by
  have hkeys : (names.map fun d => (d, keyFile pid d)).map Prod.snd = names.map (keyFile pid) := by
    rw [List.map_map]
    rfl
  have hstores := putLoop_stores
    (fun k q => ((SysvMqPolicy.put msgmax (accept k) q msg).1,
      (SysvMqPolicy.put msgmax (accept k) q msg).2.1))
    (names.map fun d => (d, keyFile pid d)) 0 0 queues key (by rwa [hkeys])
  rw [hkeys] at hstores
  change (putLoop (branchPut msgmax accept msg) _ 0 0 queues).2.2 key = _
  apply hstores.trans
  by_cases hmem : key ∈ names.map (keyFile pid)
  · simp only [hmem, ↓reduceIte, true_and]
    exact put_queue msgmax (accept key) (queues key) msg
  · rw [if_neg hmem, if_neg fun hc => hmem hc.1]

end Wissbi.QueueTopics
