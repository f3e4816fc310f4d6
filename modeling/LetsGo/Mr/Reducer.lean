import Mathlib.Data.List.Sort
import LetsGo.GoString

/-!
# The grouping loop of `reducer`

Model of the loop of `reducer` (`src/unnamed/part_001`, lines 199-212) over the sorted
intermediate pairs: the outer index `i`, the inner index `j` that walks the run of keys equal to
`intermediate[j-1].Key`, the values `intermediate[i:j]` and the call `reducef(intermediate[i].Key,
values)`. `reduceLoop l i` lists the arguments of the calls from index `i` on, in order; the
lines `reducer` writes are `(k, reducef k vs)` for each.

Keys are Go strings (`GoString`), compared bytewise as `ByKey.Less` does
(`a[i].Key < a[j].Key`).

Results:
* `reduceLoop` is total: the inner loop never stops before `i + 1`.
* `reduceLoop_flatten`: the calls, each value paired back with its key, give the list back, on
  every list; so no pair is skipped or used twice.
* `reduce_calls_spec` (on a list sorted by key): one call per distinct key, in strictly
  increasing key order, each with the values of that key's pairs in list order.
-/

namespace LetsGo.Mr

/-- `KeyValue`. -/
structure KeyValue where
  Key : GoString
  Value : GoString
  deriving DecidableEq, Repr

/-! ## The loop -/

/-- The inner loop: from `j`, advance while `intermediate[j].Key == intermediate[j-1].Key`. -/
def runEnd (l : List KeyValue) (j : Nat) : Nat :=
  if h : j < l.length then
    if l[j].Key = l[j - 1].Key then runEnd l (j + 1) else j
  else j
termination_by l.length - j

theorem le_runEnd (l : List KeyValue) (j : Nat) : j ≤ runEnd l j := by
  induction j using runEnd.induct l with
  | case1 j h _ ih => rw [runEnd, dif_pos h, if_pos ‹_›]; omega
  | case2 j h _ => rw [runEnd, dif_pos h, if_neg ‹_›]
  | case3 j h => rw [runEnd, dif_neg h]

/-- The outer loop from index `i`: the key and values of each `reducef` call, in order. -/
def reduceLoop (l : List KeyValue) (i : Nat) : List (GoString × List GoString) :=
  if h : i < l.length then
    (l[i].Key, ((l.drop i).take (runEnd l (i + 1) - i)).map (·.Value)) ::
      reduceLoop l (runEnd l (i + 1))
  else []
termination_by l.length - i
decreasing_by have := le_runEnd l (i + 1); omega

/-! ## The inner loop -/

/-- Every pair the inner loop walks over has the key of the pair before `j`. -/
theorem runEnd_key (l : List KeyValue) {j k : Nat} (hj : 1 ≤ j) (hk : j - 1 ≤ k)
    (hk' : k < runEnd l j) : l[k]?.map (·.Key) = l[j - 1]?.map (·.Key) := by
  induction j using runEnd.induct l generalizing k with
  | case1 j h heq ih =>
    rw [runEnd, dif_pos h, if_pos heq] at hk'
    rcases Nat.eq_or_lt_of_le hk with e | lt
    · rw [e]
    · rw [ih (by omega) (by omega) hk', Nat.add_sub_cancel, List.getElem?_eq_getElem h,
        List.getElem?_eq_getElem (by omega)]
      simp [heq]
  | case2 j h _ =>
    rw [runEnd, dif_pos h, if_neg ‹_›] at hk'
    rw [show k = j - 1 by omega]
  | case3 j h =>
    rw [runEnd, dif_neg h] at hk'
    rw [show k = j - 1 by omega]

/-- The inner loop stops at a change of key, or at the end. -/
theorem runEnd_stop (l : List KeyValue) {j e : Nat} (hj : 1 ≤ j) (he : runEnd l j = e)
    (h : e < l.length) :
    l[e].Key ≠ (l.get ⟨e - 1, Nat.lt_of_le_of_lt (Nat.sub_le e 1) h⟩).Key := by
  induction j using runEnd.induct l with
  | case1 j hl heq ih =>
    rw [runEnd, dif_pos hl, if_pos heq] at he
    exact ih (by omega) he
  | case2 j hl hne =>
    rw [runEnd, dif_pos hl, if_neg hne] at he
    subst he
    exact hne
  | case3 j hl => rw [runEnd, dif_neg hl] at he; omega

/-- The values of the call at `i`: `intermediate[i:j]`. -/
def runOf (l : List KeyValue) (i : Nat) : List KeyValue :=
  (l.drop i).take (runEnd l (i + 1) - i)

theorem key_of_mem_runOf {l : List KeyValue} {i : Nat} (h : i < l.length) {kv : KeyValue}
    (hkv : kv ∈ runOf l i) : kv.Key = l[i].Key := by
  obtain ⟨n, hn⟩ := List.mem_iff_getElem?.mp hkv
  rw [runOf, List.getElem?_take, List.getElem?_drop] at hn
  split_ifs at hn with hlt
  have := runEnd_key l (j := i + 1) (k := i + n) (by omega) (by omega) (by omega)
  rw [hn, Nat.add_sub_cancel, List.getElem?_eq_getElem h] at this
  simpa using this

theorem runOf_append_drop {l : List KeyValue} (i : Nat) :
    runOf l i ++ l.drop (runEnd l (i + 1)) = l.drop i := by
  have := le_runEnd l (i + 1)
  rw [runOf, show runEnd l (i + 1) = i + (runEnd l (i + 1) - i) by omega, ← List.drop_drop,
    Nat.add_sub_cancel_left, List.take_append_drop]

theorem reduceLoop_cons {l : List KeyValue} {i : Nat} (h : i < l.length) :
    reduceLoop l i =
      (l[i].Key, (runOf l i).map (·.Value)) :: reduceLoop l (runEnd l (i + 1)) := by
  rw [reduceLoop, dif_pos h, runOf]

/-! ## What the calls receive -/

/-- The pairs of one call: each value with the call's key. -/
def callPairs (c : GoString × List GoString) : List KeyValue :=
  c.2.map (KeyValue.mk c.1)

/-- **No pair skipped or used twice**: the calls from `i` on, each value paired back with its
key, are the pairs from `i` on, in order. -/
theorem reduceLoop_flatten (l : List KeyValue) (i : Nat) :
    (reduceLoop l i).flatMap callPairs = l.drop i := by
  induction i using reduceLoop.induct l with
  | case1 i h ih =>
    rw [reduceLoop_cons h, List.flatMap_cons, ih, ← runOf_append_drop i]
    congr 1
    rw [callPairs, List.map_map]
    conv_rhs => rw [← List.map_id (runOf l i)]
    refine List.map_congr_left fun kv hkv => ?_
    rw [Function.comp_apply, ← key_of_mem_runOf h hkv]
    rfl
  | case2 i h =>
    rw [reduceLoop, dif_neg h, List.drop_of_length_le (by omega)]
    rfl

/-- Every call key from index `i` on is the key of a pair from index `i` on. -/
theorem key_mem_of_reduceLoop (l : List KeyValue) (i : Nat) :
    ∀ c ∈ reduceLoop l i, ∃ kv ∈ l.drop i, kv.Key = c.1 := by
  induction i using reduceLoop.induct l with
  | case1 i h ih =>
    rw [reduceLoop_cons h]
    rintro c (_ | ⟨_, hc⟩)
    · exact ⟨l[i], by rw [List.drop_eq_getElem_cons h]; exact List.mem_cons_self _ _, rfl⟩
    · obtain ⟨kv, hkv, e⟩ := ih c hc
      have hle := le_runEnd l (i + 1)
      exact ⟨kv, (List.drop_sublist_drop_left l (by omega)).subset hkv, e⟩
  | case2 i h => simp [reduceLoop, h]

/-! ## On a list sorted by key -/

section Sorted

variable {l : List KeyValue} (hs : l.Sorted (·.Key ≤ ·.Key))
include hs

/-- A run ends at a strictly greater key. -/
theorem key_lt_runEnd {i : Nat} (h : i < l.length) (hj : runEnd l (i + 1) < l.length) :
    l[i].Key < l[runEnd l (i + 1)].Key := by
  have hle := le_runEnd l (i + 1)
  have hstop := runEnd_stop l (j := i + 1) (by omega) rfl hj
  have hrun := runEnd_key l (j := i + 1) (k := runEnd l (i + 1) - 1) (by omega) (by omega)
    (by omega)
  rw [Nat.add_sub_cancel, List.getElem?_eq_getElem h, List.getElem?_eq_getElem (by omega)]
    at hrun
  simp only [Option.map_some', Option.some.injEq] at hrun
  exact lt_of_le_of_ne (List.pairwise_iff_getElem.mp hs _ _ h hj (by omega))
    (fun e => hstop (e.symm.trans hrun.symm))

/-- A pair from index `j` on has a key at least `l[j]`'s. -/
theorem key_le_of_mem_drop {j : Nat} (hj : j < l.length) {kv : KeyValue}
    (hkv : kv ∈ l.drop j) : l[j].Key ≤ kv.Key := by
  have hd : (l.drop j).Sorted (·.Key ≤ ·.Key) := hs.sublist (List.drop_sublist j l)
  rw [List.drop_eq_getElem_cons hj] at hd hkv
  rcases List.mem_cons.mp hkv with rfl | hkv
  · exact le_rfl
  · exact List.rel_of_sorted_cons hd kv hkv

/-- **The calls come in strictly increasing key order.** -/
theorem reduceLoop_keys_lt (i : Nat) : ((reduceLoop l i).map Prod.fst).Sorted (· < ·) := by
  induction i using reduceLoop.induct l with
  | case1 i h ih =>
    rw [reduceLoop_cons h, List.map_cons, List.Sorted, List.pairwise_cons]
    refine ⟨fun k hk => ?_, ih⟩
    obtain ⟨c, hc, rfl⟩ := List.mem_map.mp hk
    obtain ⟨kv, hkv, e⟩ := key_mem_of_reduceLoop l _ c hc
    have hj : runEnd l (i + 1) < l.length := by
      by_contra hj
      simp [List.drop_eq_nil_iff.mpr (not_lt.mp hj)] at hkv
    exact e ▸ (key_lt_runEnd hs h hj).trans_le (key_le_of_mem_drop hs hj hkv)
  | case2 i h => simp [reduceLoop, h]

end Sorted

/-! ## The grouping -/

/-- What the grouping loop is for: the calls `calls` on the pairs `l`. -/
structure GroupsBy (l : List KeyValue) (calls : List (GoString × List GoString)) : Prop where
  /-- Strictly increasing keys, so one call per key. -/
  keys_lt : (calls.map Prod.fst).Sorted (· < ·)
  /-- A call for each key of `l`, and for no other. -/
  keys_mem : ∀ k, (∃ vs, (k, vs) ∈ calls) ↔ ∃ kv ∈ l, kv.Key = k
  /-- Each call gets the values of its key's pairs, in list order. -/
  values : ∀ c ∈ calls, c.2 = (l.filter fun kv => kv.Key = c.1).map (·.Value)
  /-- Together the calls hold each pair of `l` once, in order. -/
  flatten : calls.flatMap callPairs = l

theorem filter_callPairs (c : GoString × List GoString) (k : GoString) :
    (callPairs c).filter (fun kv => kv.Key = k) = if c.1 = k then callPairs c else [] := by
  split_ifs with h
  · exact List.filter_eq_self.mpr fun kv hkv => by
      obtain ⟨v, -, rfl⟩ := List.mem_map.mp hkv
      simpa using h
  · exact List.filter_eq_nil_iff.mpr fun kv hkv => by
      obtain ⟨v, -, rfl⟩ := List.mem_map.mp hkv
      simpa using h

/-- With distinct call keys, the pairs of key `c.1` are the pairs of call `c`. -/
theorem filter_flatMap_callPairs {calls : List (GoString × List GoString)}
    (hd : (calls.map Prod.fst).Pairwise (· ≠ ·)) {c : GoString × List GoString}
    (hc : c ∈ calls) :
    (calls.flatMap callPairs).filter (fun kv => kv.Key = c.1) = callPairs c := by
  induction calls with
  | nil => cases hc
  | cons d ds ih =>
    rw [List.map_cons, List.pairwise_cons] at hd
    rw [List.flatMap_cons, List.filter_append, filter_callPairs]
    rcases List.mem_cons.mp hc with rfl | hc
    · rw [if_pos rfl, List.filter_flatMap, List.flatMap_eq_nil_iff.mpr, List.append_nil]
      intro c' hc'
      rw [filter_callPairs, if_neg (hd.1 _ (List.mem_map_of_mem _ hc')).symm]
    · rw [if_neg (hd.1 _ (List.mem_map_of_mem _ hc)), ih hd.2 hc, List.nil_append]

/-- The grouping loop groups, on every list sorted by key. -/
theorem reduceLoop_groupsBy {l : List KeyValue} (hs : l.Sorted (·.Key ≤ ·.Key)) :
    GroupsBy l (reduceLoop l 0) := by
  have hflat : (reduceLoop l 0).flatMap callPairs = l := reduceLoop_flatten l 0
  have hlt := reduceLoop_keys_lt hs 0
  refine ⟨hlt, fun k => ⟨?_, ?_⟩, fun c hc => ?_, hflat⟩
  · rintro ⟨vs, hc⟩
    obtain ⟨kv, hkv, e⟩ := key_mem_of_reduceLoop l 0 _ hc
    exact ⟨kv, by simpa using hkv, e⟩
  · rintro ⟨kv, hkv, rfl⟩
    rw [← hflat, List.mem_flatMap] at hkv
    obtain ⟨c, hc, hkv⟩ := hkv
    obtain ⟨v, -, rfl⟩ := List.mem_map.mp hkv
    exact ⟨c.2, hc⟩
  · conv_rhs => rw [← hflat]
    rw [filter_flatMap_callPairs (hlt.imp ne_of_lt) hc, callPairs, List.map_map]
    exact (List.map_id' _).symm

/-- **The grouping loop groups**: on every list sorted by key (the order of `ByKey`). -/
theorem reduce_calls_spec (l : List KeyValue) (hs : l.Sorted (·.Key ≤ ·.Key)) :
    GroupsBy l (reduceLoop l 0) :=
  reduceLoop_groupsBy hs

/-- `reduce_calls_spec` on the pairs `a 1`, `a 2`, `b 1`. -/
theorem reduce_calls_spec_three :
    let l : List KeyValue := [⟨[97], [49]⟩, ⟨[97], [50]⟩, ⟨[98], [49]⟩]
    l.Sorted (·.Key ≤ ·.Key) ∧ GroupsBy l (reduceLoop l 0) :=
  have hs : List.Sorted (fun a b : KeyValue => a.Key ≤ b.Key)
      [⟨[97], [49]⟩, ⟨[97], [50]⟩, ⟨[98], [49]⟩] := by decide
  ⟨hs, reduce_calls_spec _ hs⟩

example : reduceLoop [⟨[97], [49]⟩, ⟨[97], [50]⟩, ⟨[98], [49]⟩] 0 =
    [([97], [[49], [50]]), ([98], [[49]])] := by
  simp [reduceLoop, runEnd]

end LetsGo.Mr
