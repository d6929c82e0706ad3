import Wissbi.ThreadPool
import Wissbi.Util

set_option autoImplicit false

namespace Wissbi.MetricReporter
open LengthPolicy ThreadPool Util

structure FilterMetric where
  name : Str
  lastProcessed : UInt32
  totalProcessed : UInt64
  deriving DecidableEq, Repr

def FilterMetric.init (name : Str) : FilterMetric := ⟨name, 0, 0⟩

/-- An operation through a reference to the metric of one name. -/
def update (n : Str) (f : FilterMetric → FilterMetric) (ms : List FilterMetric) :
    List FilterMetric :=
  ms.map fun m => if m.name = n then f m else m

def lookup (n : Str) (ms : List FilterMetric) : Option FilterMetric :=
  ms.find? fun m => m.name = n

def FilterMetric.add (k : UInt32) (m : FilterMetric) : FilterMetric :=
  { m with lastProcessed := m.lastProcessed + k }

def FilterMetric.addTotal (m : FilterMetric) : FilterMetric :=
  { m with totalProcessed := m.totalProcessed + 1 }

def FilterMetric.drain (m : FilterMetric) : FilterMetric := { m with lastProcessed := 0 }

def reportText (name direction : Str) (v : UInt32) : Str :=
  name ++ [comma] ++ direction ++ [comma] ++ decimal v.toNat

/-- One phase for each point at which another thread may run. A metric that is pushed to the front
meanwhile is not visited. -/
inductive Report where
  | visiting (rest : List Str)
  | sending (name : Str) (v : UInt32) (rest : List Str)
  | filtering (name : Str) (v : UInt32) (rest : List Str)
  deriving DecidableEq, Repr

def Report.start (ms : List FilterMetric) : Report := .visiting (ms.map FilterMetric.name)

structure Exchanged where
  name : Str
  v : UInt32
  call : Report
  list : List FilterMetric

def Report.exchange : Report → List FilterMetric → Option Exchanged
  | .visiting (n :: rest), ms =>
    (lookup n ms).map fun m =>
      let v := m.lastProcessed
      let call := if v = 0 then Report.visiting rest else .sending n v rest
      ⟨n, v, call, update n FilterMetric.drain ms⟩
  | _, _ => none

theorem lookup_split {n : Str} {ms : List FilterMetric} {m : FilterMetric}
    (hd : (ms.map FilterMetric.name).Nodup) (h : lookup n ms = some m) :
    m.name = n ∧ ∃ before after, ms = before ++ m :: after ∧
      ∀ f, update n f ms = before ++ f m :: after := by
  obtain ⟨hm, before, after, rfl, -⟩ := List.find?_eq_some_iff_append.mp h
  have hn : m.name = n := by simpa using hm
  refine ⟨hn, before, after, rfl, fun f => ?_⟩
  rw [List.map_append, List.map_cons, List.nodup_middle, List.nodup_cons, hn] at hd
  have hkeep (l : List FilterMetric) (hl : n ∉ l.map FilterMetric.name) : update n f l = l := by
    refine (List.map_congr_left fun x hx => ?_).trans (List.map_id l)
    refine if_neg fun he => hl ?_
    exact he ▸ List.mem_map_of_mem hx
  have hna : n ∉ before.map FilterMetric.name ∧ n ∉ after.map FilterMetric.name := by
    simpa [not_or] using hd.1
  unfold update
  rw [List.map_append, List.map_cons, if_pos hn]
  exact congrArg₂ (fun a b => a ++ f m :: b) (hkeep _ hna.1) (hkeep _ hna.2)

theorem total_update (g : FilterMetric → ℕ) {n : Str} {ms : List FilterMetric} {m : FilterMetric}
    (hd : (ms.map FilterMetric.name).Nodup) (h : lookup n ms = some m)
    (f : FilterMetric → FilterMetric) :
    total g (update n f ms) + g m = total g ms + g (f m) := by
  obtain ⟨-, before, after, rfl, hu⟩ := lookup_split hd h
  rw [hu f]
  simp only [total_append, total_cons]
  omega

theorem update_names {n : Str} {f : FilterMetric → FilterMetric} (ms : List FilterMetric)
    (hf : ∀ m, (f m).name = m.name) :
    (update n f ms).map FilterMetric.name = ms.map FilterMetric.name := by
  unfold update
  rw [List.map_map]
  refine List.map_congr_left fun m _ => ?_
  simp only [Function.comp_apply]
  split
  next => exact hf m
  next => rfl

theorem lookup_some {n : Str} {ms : List FilterMetric} (h : n ∈ ms.map FilterMetric.name) :
    ∃ m, lookup n ms = some m := by
  obtain ⟨m, hm, hn⟩ := List.mem_map.mp h
  have hs : (lookup n ms).isSome = true := List.find?_isSome.mpr ⟨m, hm, by simpa using hn⟩
  exact Option.isSome_iff_exists.mp hs

theorem mem_of_lookup {n : Str} {ms : List FilterMetric} {m : FilterMetric}
    (h : lookup n ms = some m) : n ∈ ms.map FilterMetric.name := by
  have hn : m.name = n := by simpa using List.find?_some h
  exact hn ▸ List.mem_map_of_mem (List.mem_of_find?_eq_some h)

/-- A reference to a metric sees the operations on it and no others. -/
theorem lookup_update {n n' : Str} {f : FilterMetric → FilterMetric} (ms : List FilterMetric)
    (hf : ∀ m, (f m).name = m.name) :
    lookup n (update n' f ms) = (lookup n ms).map fun m => if n = n' then f m else m := by
  unfold lookup update
  rw [List.find?_map]
  have hname : ((fun m : FilterMetric => decide (m.name = n)) ∘
      fun m => if m.name = n' then f m else m) = fun m => decide (m.name = n) := by
    funext m
    simp only [Function.comp_apply]
    split
    next => rw [hf]
    next => rfl
  rw [hname]
  refine Option.map_congr fun m hm => ?_
  have hn : m.name = n := by simpa using List.find?_some hm
  rw [hn]

theorem forall_update {P : FilterMetric → Prop} {n : Str} {f : FilterMetric → FilterMetric}
    {ms : List FilterMetric} (h : ∀ m ∈ ms, m.name ≠ n → P m)
    (hf : ∀ m ∈ ms, m.name = n → P (f m)) : ∀ m ∈ update n f ms, P m := by
  intro m hm
  obtain ⟨x, hx, rfl⟩ := List.mem_map.mp hm
  split
  next hn => exact hf x hx hn
  next hn => exact h x hx hn

end Wissbi.MetricReporter
