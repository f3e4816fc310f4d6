import LetsGo.Mr.Files

/-!
# The worker: `mapper`, `reducer` and a whole job

`ihash`, `mapper` and `reducer` (`src/unnamed/part_001`, lines 72-76 and 165-218), and the job
they make: map task `i` runs `mapper` on input file `i`, and reduce task `r` then runs `reducer`
on the files `mr-0-r`, …, `mr-(N-1)-r`.

* `ihash` is FNV-1a over the key's bytes (`fnv.New32a`: offset basis `2166136261`, prime
  `16777619`, arithmetic on `uint32`) with the top bit cleared.
* `bucket` is the buffer loop of `mapper`: each pair is appended to
  `buffer[ihash(Key) % NReducer]`; `mapper` writes bucket `r` to `mr-Id-r` with
  `writeToLocalFile`.
* `reducer` reads its files, sorts the pairs by key and writes one line `"%v %v\n"` per call of
  the grouping loop. `sort.Sort` is not stable, so the model takes the sort as a parameter and
  the results hold of every function that returns a key-sorted permutation of its input (the
  specification of `sort.Sort(ByKey(...))`).
* Files are named by their map and reduce indices; the names `fmt.Sprintf` builds, the
  temporary files and the rename are left out.

Results:
* `bucket_getElem?`: bucket `r` holds the pairs whose key hashes to `r`, in emitted order.
* `reduceInput_eq`: reduce task `r` reads back exactly those pairs of all inputs, each string
  through `Utf8.replaceInvalid`.
* `runJob_spec`: when every emitted key and value is valid UTF-8, file `mr-out-r` is one line
  per distinct emitted key of bucket `r`, in strictly increasing key order, each with
  `reducef` applied to a permutation of all the values emitted for that key.
* `invalid_keys_merge`: without valid UTF-8 the job is wrong: two distinct keys `"\xff"` and
  `"\xfe"` come out as one line with the key U+FFFD.
-/

namespace LetsGo.Mr

open Utf8

/-! ## Map -/

/-- `ihash(key)`. -/
def ihash (key : GoString) : Nat :=
  (key.foldl (fun h b => (h ^^^ b.toUInt32) * 16777619) (2166136261 : UInt32)).toNat &&&
    0x7fffffff

/-- The buffer loop of `mapper`. -/
def bucket (nReduce : Nat) (intermediates : List KeyValue) : List (List KeyValue) :=
  intermediates.foldl (fun buffer kv => buffer.modify (· ++ [kv]) (ihash kv.Key % nReduce))
    (List.replicate nReduce [])

/-- `mapper`: the contents of `mr-Id-0`, …, `mr-Id-(NReducer-1)`, for an input file's name and
content. -/
def mapper (nReduce : Nat) (mapf : GoString → GoString → List KeyValue)
    (input : GoString × GoString) : List GoString :=
  (bucket nReduce (mapf input.1 input.2)).map writeToLocalFile

/-! ## Reduce -/

/-- `fmt.Fprintf(tempFile, "%v %v\n", key, output)`. -/
def outputLine (key output : GoString) : GoString := key ++ 32 :: output ++ [10]

/-- `reducer`: the content of `mr-out-Id`, from the intermediate files. -/
def reducer (sortByKey : List KeyValue → List KeyValue)
    (reducef : GoString → List GoString → GoString) (files : List GoString) : GoString :=
  (reduceLoop (sortByKey (readFromLocalFile files)) 0).flatMap fun c =>
    outputLine c.1 (reducef c.1 c.2)

/-- The job: the contents of `mr-out-0`, …, `mr-out-(nReduce-1)`. -/
def runJob (sortByKey : List KeyValue → List KeyValue)
    (mapf : GoString → GoString → List KeyValue) (reducef : GoString → List GoString → GoString)
    (nReduce : Nat) (inputs : List (GoString × GoString)) : List GoString :=
  (List.range nReduce).map fun r =>
    reducer sortByKey reducef ((inputs.map (mapper nReduce mapf)).map fun files => files.getD r [])

/-- Every pair `mapf` emits, input by input. -/
def emitted (mapf : GoString → GoString → List KeyValue) (inputs : List (GoString × GoString)) :
    List KeyValue :=
  inputs.flatMap fun input => mapf input.1 input.2

/-- The pairs of bucket `r`. -/
def inBucket (nReduce r : Nat) (kv : KeyValue) : Bool := ihash kv.Key % nReduce = r

/-! ## What a reduce task reads -/

/-- The buffer loop from any buffer: it keeps the number of buckets, and bucket `r` grows by
the pairs that hash to `r`, in order. -/
theorem foldl_bucket (n : Nat) (l : List KeyValue) (buf : List (List KeyValue)) :
    (l.foldl (fun buffer kv => buffer.modify (· ++ [kv]) (ihash kv.Key % n)) buf).length =
        buf.length ∧
      ∀ r, (l.foldl (fun buffer kv => buffer.modify (· ++ [kv]) (ihash kv.Key % n)) buf)[r]? =
        buf[r]?.map (· ++ l.filter (inBucket n r)) := by
  induction l generalizing buf with
  | nil => simp
  | cons kv l ih =>
    obtain ⟨hlen, hget⟩ := ih (buf.modify (· ++ [kv]) (ihash kv.Key % n))
    refine ⟨by rw [List.foldl_cons, hlen, List.length_modify], fun r => ?_⟩
    rw [List.foldl_cons, hget, List.getElem?_modify]
    cases buf[r]? with
    | none => rfl
    | some a =>
      by_cases h : ihash kv.Key % n = r <;>
        simp [List.filter_cons, inBucket, h]

/-- **Bucket `r` holds the pairs whose key hashes to `r`**, in the order `mapf` emitted them. -/
theorem bucket_getElem? (n : Nat) (l : List KeyValue) {r : Nat} (hr : r < n) :
    (bucket n l)[r]? = some (l.filter (inBucket n r)) := by
  rw [bucket, (foldl_bucket n l _).2 r, List.getElem?_replicate, if_pos hr]
  rfl

theorem mapper_getD (n : Nat) (mapf : GoString → GoString → List KeyValue)
    (input : GoString × GoString) {r : Nat} (hr : r < n) :
    (mapper n mapf input).getD r [] =
      writeToLocalFile ((mapf input.1 input.2).filter (inBucket n r)) := by
  rw [mapper, List.getD_eq_getElem?_getD, List.getElem?_map, bucket_getElem? n _ hr]
  rfl

/-- **What reduce task `r` reads**: the pairs of bucket `r` of every input, in input order,
each string through `replaceInvalid`. -/
theorem reduceInput_eq (n : Nat) (mapf : GoString → GoString → List KeyValue)
    (inputs : List (GoString × GoString)) {r : Nat} (hr : r < n) :
    readFromLocalFile ((inputs.map (mapper n mapf)).map fun files => files.getD r []) =
      ((emitted mapf inputs).filter (inBucket n r)).map KeyValue.replaceInvalid := by
  have hfiles : ((inputs.map (mapper n mapf)).map fun files => files.getD r []) =
      (inputs.map fun input => (mapf input.1 input.2).filter (inBucket n r)).map
        writeToLocalFile := by
    simp only [List.map_map]
    exact List.map_congr_left fun input _ => mapper_getD n mapf input hr
  rw [hfiles, readFromLocalFile_write, emitted, List.filter_flatMap, List.map_flatMap,
    List.flatMap_map]

theorem map_replaceInvalid_of_valid {l : List KeyValue}
    (hv : ∀ kv ∈ l, validUTF8 kv.Key = true ∧ validUTF8 kv.Value = true) :
    l.map KeyValue.replaceInvalid = l := by
  conv_rhs => rw [← List.map_id l]
  refine List.map_congr_left fun kv hkv => ?_
  rw [KeyValue.replaceInvalid, replaceInvalid_of_valid (hv kv hkv).1,
    replaceInvalid_of_valid (hv kv hkv).2]
  rfl

/-! ## The job -/

/-- Bucket `r` of the emitted pairs, filtered to one key of that bucket, is all the pairs of
the key. -/
theorem filter_key_inBucket (l : List KeyValue) {n r : Nat} {k : GoString}
    (hk : ihash k % n = r) :
    (l.filter (inBucket n r)).filter (fun kv => kv.Key = k) = l.filter fun kv => kv.Key = k := by
  rw [List.filter_filter]
  refine List.filter_congr fun kv _ => ?_
  by_cases h : kv.Key = k <;> simp [h, inBucket, hk]

/-- The keys of bucket `r` of the emitted pairs are the emitted keys that hash to `r`. -/
theorem exists_key_inBucket (l : List KeyValue) {n r : Nat} (k : GoString) :
    (∃ kv ∈ l.filter (inBucket n r), kv.Key = k) ↔ (∃ kv ∈ l, kv.Key = k) ∧ ihash k % n = r := by
  simp only [List.mem_filter, inBucket, decide_eq_true_eq]
  constructor
  · rintro ⟨kv, ⟨hkv, hb⟩, rfl⟩
    exact ⟨⟨kv, hkv, rfl⟩, hb⟩
  · rintro ⟨⟨kv, hkv, rfl⟩, hb⟩
    exact ⟨kv, ⟨hkv, hb⟩, rfl⟩

/-- **The job computes the map-reduce of its inputs**, when every key and value `mapf` emits is
valid UTF-8, for every sort by key: the bucket index is in range, and file `mr-out-r` is one
line per distinct emitted key of bucket `r`, in strictly increasing key order, each line the
key and `reducef` of a permutation of all the values emitted for it. -/
theorem runJob_spec (sortByKey : List KeyValue → List KeyValue)
    (hsort : ∀ l, List.Perm (sortByKey l) l ∧ (sortByKey l).Sorted (·.Key ≤ ·.Key))
    (mapf : GoString → GoString → List KeyValue) (reducef : GoString → List GoString → GoString)
    (nReduce : Nat) (hR : 0 < nReduce) (inputs : List (GoString × GoString))
    (hvalid : ∀ kv ∈ emitted mapf inputs, validUTF8 kv.Key = true ∧ validUTF8 kv.Value = true) :
    (∀ k, ihash k % nReduce < nReduce) ∧
    (runJob sortByKey mapf reducef nReduce inputs).length = nReduce ∧
    ∀ r < nReduce, ∃ calls : List (GoString × List GoString),
      (runJob sortByKey mapf reducef nReduce inputs)[r]? =
        some (calls.flatMap fun c => outputLine c.1 (reducef c.1 c.2)) ∧
      (calls.map Prod.fst).Sorted (· < ·) ∧
      (∀ k, k ∈ calls.map Prod.fst ↔
        (∃ kv ∈ emitted mapf inputs, kv.Key = k) ∧ ihash k % nReduce = r) ∧
      ∀ c ∈ calls, List.Perm c.2
        (((emitted mapf inputs).filter fun kv => kv.Key = c.1).map (·.Value)) := by
  refine ⟨fun k => Nat.mod_lt _ hR, by simp [runJob], fun r hr => ?_⟩
  have hin : readFromLocalFile ((inputs.map (mapper nReduce mapf)).map fun files =>
      files.getD r []) = (emitted mapf inputs).filter (inBucket nReduce r) := by
    rw [reduceInput_eq _ _ _ hr, map_replaceInvalid_of_valid fun kv hkv =>
      hvalid kv (List.mem_filter.mp hkv).1]
  obtain ⟨hperm, hsorted⟩ := hsort ((emitted mapf inputs).filter (inBucket nReduce r))
  have hg := reduceLoop_groupsBy hsorted
  have hmem : ∀ k, (∃ vs, (k, vs) ∈ reduceLoop (sortByKey
      ((emitted mapf inputs).filter (inBucket nReduce r))) 0) ↔
      (∃ kv ∈ emitted mapf inputs, kv.Key = k) ∧ ihash k % nReduce = r := fun k => by
    rw [hg.keys_mem k, ← exists_key_inBucket]
    exact exists_congr fun kv => and_congr_left fun _ => hperm.mem_iff
  refine ⟨_, ?_, hg.keys_lt, fun k => ?_, fun c hc => ?_⟩
  · rw [runJob, List.getElem?_map, List.getElem?_range hr, Option.map_some', reducer, hin]
  · rw [← hmem k, List.mem_map]
    exact ⟨fun ⟨c, hc, e⟩ => ⟨c.2, e ▸ hc⟩, fun ⟨vs, hc⟩ => ⟨_, hc, rfl⟩⟩
  · have h := (hperm.filter fun kv => decide (kv.Key = c.1)).map (·.Value)
    rwa [filter_key_inBucket _ ((hmem c.1).mp ⟨c.2, hc⟩).2, ← hg.values c hc] at h

/-- Insertion sort by key is a sort by key. It is also what `sort.Sort` runs on fewer than
thirteen pairs, and is stable, as that is. -/
theorem insertionSort_byKey (l : List KeyValue) :
    List.Perm (l.insertionSort fun a b => a.Key ≤ b.Key) l ∧
      (l.insertionSort fun a b => a.Key ≤ b.Key).Sorted (·.Key ≤ ·.Key) :=
  have : IsTotal KeyValue fun a b => a.Key ≤ b.Key := ⟨fun a b => le_total a.Key b.Key⟩
  have : IsTrans KeyValue fun a b => a.Key ≤ b.Key := ⟨fun _ _ _ => le_trans⟩
  ⟨List.perm_insertionSort _ l, List.sorted_insertionSort _ l⟩

/-- `runJob_spec` on a word count of `"b a b"` into two buckets. -/
theorem runJob_spec_words :
    let mapf : GoString → GoString → List KeyValue := fun _ content =>
      (split content 32).map fun w => ⟨w, [49]⟩
    let reducef : GoString → List GoString → GoString := fun _ vs => join vs 44
    let inputs : List (GoString × GoString) := [([], GoString.ofString "b a b")]
    let sortByKey : List KeyValue → List KeyValue := List.insertionSort fun a b => a.Key ≤ b.Key
    (∀ kv ∈ emitted mapf inputs, validUTF8 kv.Key = true ∧ validUTF8 kv.Value = true) ∧
    (∀ k, ihash k % 2 < 2) ∧
    (runJob sortByKey mapf reducef 2 inputs).length = 2 ∧
    ∀ r < 2, ∃ calls : List (GoString × List GoString),
      (runJob sortByKey mapf reducef 2 inputs)[r]? =
        some (calls.flatMap fun c => outputLine c.1 (reducef c.1 c.2)) ∧
      (calls.map Prod.fst).Sorted (· < ·) ∧
      (∀ k, k ∈ calls.map Prod.fst ↔
        (∃ kv ∈ emitted mapf inputs, kv.Key = k) ∧ ihash k % 2 = r) ∧
      ∀ c ∈ calls, List.Perm c.2
        (((emitted mapf inputs).filter fun kv => kv.Key = c.1).map (·.Value)) := by
  intro mapf reducef inputs sortByKey
  have hv : ∀ kv ∈ emitted mapf inputs, validUTF8 kv.Key = true ∧ validUTF8 kv.Value = true := by
    decide
  exact ⟨hv, runJob_spec sortByKey insertionSort_byKey mapf reducef 2 (by decide) inputs hv⟩

/-- **Invalid UTF-8 merges keys**: `mapf` emits the distinct keys `"\xff"` and `"\xfe"`, and
the job writes a single line, for the key U+FFFD that `mapf` never emitted, with both values. -/
theorem invalid_keys_merge :
    let mapf : GoString → GoString → List KeyValue := fun _ _ => [⟨[0xFF], [49]⟩, ⟨[0xFE], [49]⟩]
    let reducef : GoString → List GoString → GoString := fun _ vs => join vs 44
    runJob (List.insertionSort fun a b => a.Key ≤ b.Key) mapf reducef 1 [([], [])] =
      [outputLine [0xEF, 0xBF, 0xBD] [49, 44, 49]] := by
  intro mapf reducef
  have hin : readFromLocalFile (([([], [])].map (mapper 1 mapf)).map fun files =>
      files.getD 0 []) = [⟨[0xEF, 0xBF, 0xBD], [49]⟩, ⟨[0xEF, 0xBF, 0xBD], [49]⟩] := by
    decide
  have hsort : List.insertionSort (fun a b : KeyValue => a.Key ≤ b.Key)
      [⟨[0xEF, 0xBF, 0xBD], [49]⟩, ⟨[0xEF, 0xBF, 0xBD], [49]⟩] =
      [⟨[0xEF, 0xBF, 0xBD], [49]⟩, ⟨[0xEF, 0xBF, 0xBD], [49]⟩] := by decide
  have hloop : reduceLoop [⟨[0xEF, 0xBF, 0xBD], [49]⟩, ⟨[0xEF, 0xBF, 0xBD], [49]⟩] 0 =
      [([0xEF, 0xBF, 0xBD], [[49], [49]])] := by simp [reduceLoop, runEnd]
  rw [runJob, show List.range 1 = [0] from rfl, List.map_cons, List.map_nil, reducer, hin, hsort,
    hloop]
  rfl

end LetsGo.Mr
