import Libgetar.Lib.Log

/-!
# Dictionaries in insertion order

A Python `dict`: its entries are in the order in which their keys were first set, and no key comes
twice, which `Dict` carries as a field. Every modification but `erase` goes through `upsert`, which
is `d[k] = f(d[k])`: a present key keeps its place, an absent one goes to the end.

Two loops fill a dictionary. Setting the entries of a log in order makes one that finds the last
write (`get?_setAll`), and appending each value of a log to the list under its key, as with a
`defaultdict(list)`, makes one that holds the values of each key in their order (`get?_groupAll`).
-/

namespace Libgetar.Lib

/-- A `dict` from `κ` to `ν`. -/
structure Dict (κ ν : Type*) where
  /-- The entries, in the order in which they are iterated over. -/
  entries : List (κ × ν)
  /-- No key comes twice. -/
  nodup : (entries.map Prod.fst).Nodup

namespace Dict

variable {κ ν : Type*} [DecidableEq κ]

/-- `d[k]`, on the list of entries. -/
def getAux (k : κ) : List (κ × ν) → Option ν
  | [] => none
  | (k', v) :: rest => if k = k' then some v else getAux k rest

/-- `d[k] = f(d[k])`, on the list of entries. -/
def upsertAux (k : κ) (f : Option ν → ν) : List (κ × ν) → List (κ × ν)
  | [] => [(k, f none)]
  | (k', v) :: rest => if k = k' then (k', f (some v)) :: rest else (k', v) :: upsertAux k f rest

/-- The keys after `upsertAux`. -/
theorem mem_keys_upsertAux {k k' : κ} {f : Option ν → ν} {l : List (κ × ν)} :
    k' ∈ (upsertAux k f l).map Prod.fst ↔ k' = k ∨ k' ∈ l.map Prod.fst := by
  induction l with
  | nil => simp [upsertAux]
  | cons e rest ih =>
    obtain ⟨k₀, v⟩ := e
    unfold upsertAux
    split
    · next h =>
      subst h
      simp
    · simp only [List.map_cons, List.mem_cons, ih]
      exact or_left_comm

/-- `upsertAux` makes no key come twice. -/
theorem nodup_upsertAux (k : κ) (f : Option ν → ν) {l : List (κ × ν)}
    (h : (l.map Prod.fst).Nodup) : ((upsertAux k f l).map Prod.fst).Nodup := by
  induction l with
  | nil => simp [upsertAux]
  | cons e rest ih =>
    obtain ⟨k₀, v⟩ := e
    obtain ⟨hfresh, hrest⟩ := List.nodup_cons.mp h
    unfold upsertAux
    split
    · exact h
    · next hne =>
      refine List.nodup_cons.mpr ⟨fun hmem => ?_, ih hrest⟩
      rcases mem_keys_upsertAux.mp hmem with heq | hmem
      · exact hne heq.symm
      · exact hfresh hmem

/-- The empty dictionary. -/
def empty : Dict κ ν := ⟨[], List.nodup_nil⟩

/-- `d.get(k)`. -/
def get? (d : Dict κ ν) (k : κ) : Option ν := getAux k d.entries

/-- `d[k] = f(d[k])`. -/
def upsert (d : Dict κ ν) (k : κ) (f : Option ν → ν) : Dict κ ν :=
  ⟨upsertAux k f d.entries, nodup_upsertAux k f d.nodup⟩

/-- `d[k] = v`. -/
def set (d : Dict κ ν) (k : κ) (v : ν) : Dict κ ν := d.upsert k fun _ => v

/-- `del d[k]`, if the key is there. -/
def erase (d : Dict κ ν) (k : κ) : Dict κ ν :=
  ⟨d.entries.filter fun e => e.1 ≠ k, (List.filter_sublist.map Prod.fst).nodup d.nodup⟩

/-- The keys, in order. -/
def keys (d : Dict κ ν) : List κ := d.entries.map Prod.fst

/-! ## Lookups -/

@[simp] theorem get?_empty (k : κ) : (empty : Dict κ ν).get? k = none := rfl

/-- In a list in which no key comes twice, a lookup finds exactly the entry with the key. -/
theorem getAux_eq_some_iff {k : κ} {v : ν} {l : List (κ × ν)} (h : (l.map Prod.fst).Nodup) :
    getAux k l = some v ↔ (k, v) ∈ l := by
  induction l with
  | nil => simp [getAux]
  | cons e rest ih =>
    obtain ⟨k', v'⟩ := e
    obtain ⟨hfresh, hrest⟩ := List.nodup_cons.mp h
    rw [getAux, List.mem_cons, Prod.mk.injEq]
    split
    · next heq =>
      subst heq
      have hnot : (k, v) ∉ rest := fun hmem => hfresh (List.mem_map.mpr ⟨(k, v), hmem, rfl⟩)
      simp only [Option.some.injEq, hnot, or_false, true_and]
      exact eq_comm
    · next hne => simp only [ih hrest, hne, false_and, false_or]

/-- What is found are the entries. -/
theorem get?_eq_some_iff {d : Dict κ ν} {k : κ} {v : ν} : d.get? k = some v ↔ (k, v) ∈ d.entries :=
  getAux_eq_some_iff d.nodup

/-- A key is there when it is found. -/
theorem mem_keys_iff {d : Dict κ ν} {k : κ} : k ∈ d.keys ↔ ∃ v, d.get? k = some v := by
  simp only [keys, List.mem_map, get?_eq_some_iff]
  constructor
  · rintro ⟨⟨k', v⟩, hmem, rfl⟩
    exact ⟨v, hmem⟩
  · rintro ⟨v, hmem⟩
    exact ⟨(k, v), hmem, rfl⟩

/-- Looking up in a modified list of entries. -/
theorem getAux_upsertAux (k k' : κ) (f : Option ν → ν) (l : List (κ × ν)) :
    getAux k' (upsertAux k f l) = if k' = k then some (f (getAux k l)) else getAux k' l := by
  induction l with
  | nil => rfl
  | cons e rest ih =>
    obtain ⟨k₀, v⟩ := e
    by_cases hk : k = k₀
    · -- The entry has the key.
      subst hk
      rw [upsertAux, if_pos rfl, getAux, getAux, if_pos rfl, getAux]
      by_cases hk' : k' = k
      · rw [if_pos hk', if_pos hk']
      · rw [if_neg hk', if_neg hk', if_neg hk']
    · rw [upsertAux, if_neg hk, getAux, ih, getAux, if_neg hk, getAux]
      by_cases hk' : k' = k₀
      · rw [if_pos hk', if_pos hk', if_neg (fun heq => hk (heq.symm.trans hk'))]
      · rw [if_neg hk', if_neg hk']

/-- Looking up in a modified dictionary. -/
theorem get?_upsert (d : Dict κ ν) (k k' : κ) (f : Option ν → ν) :
    (d.upsert k f).get? k' = if k' = k then some (f (d.get? k)) else d.get? k' :=
  getAux_upsertAux k k' f d.entries

/-- Looking up after `d[k] = v`. -/
@[simp] theorem get?_set (d : Dict κ ν) (k k' : κ) (v : ν) :
    (d.set k v).get? k' = if k' = k then some v else d.get? k' := get?_upsert d k k' _

/-- Looking up after `del d[k]`. -/
@[simp] theorem get?_erase (d : Dict κ ν) (k k' : κ) :
    (d.erase k).get? k' = if k' = k then none else d.get? k' := by
  ext v
  rw [get?_eq_some_iff]
  simp only [erase, List.mem_filter, decide_eq_true_eq, ne_eq]
  split
  · next h => simp [h]
  · next h => simp [h, get?_eq_some_iff]

/-- A new key goes to the end. -/
theorem entries_upsert_of_not_mem {d : Dict κ ν} {k : κ} (h : k ∉ d.keys) (f : Option ν → ν) :
    (d.upsert k f).entries = d.entries ++ [(k, f none)] := by
  have hlist : ∀ l : List (κ × ν), k ∉ l.map Prod.fst → upsertAux k f l = l ++ [(k, f none)] := by
    intro l
    induction l with
    | nil => exact fun _ => rfl
    | cons e rest ih =>
      intro hfresh
      obtain ⟨hne, hrest⟩ := not_or.mp (mt List.mem_cons.mpr hfresh)
      rw [upsertAux, if_neg hne, ih hrest, List.cons_append]
  exact hlist d.entries h

/-! ## Loops that fill a dictionary -/

/-- `d[k] = v` for the entries of a log. -/
def setAll (d : Dict κ ν) (log : List (κ × ν)) : Dict κ ν := log.foldl (fun d e => d.set e.1 e.2) d

/-- A dictionary that is made from a log finds the last write. -/
theorem get?_setAll (log : List (κ × ν)) (k : κ) :
    ((empty : Dict κ ν).setAll log).get? k = lastWrite log k := by
  induction log using List.reverseRecOn with
  | nil => rfl
  | append_singleton log e ih =>
    rw [setAll] at ih
    rw [setAll, List.foldl_append, List.foldl_cons, List.foldl_nil, get?_set, ih, lastWrite_concat]

/-- A loop inside a loop. -/
theorem setAll_flatMap {α : Type*} (d : Dict κ ν) (log : α → List (κ × ν)) (xs : List α) :
    d.setAll (xs.flatMap log) = xs.foldl (fun d x => d.setAll (log x)) d := List.foldl_flatMap

/-- The same value is set for several keys. -/
theorem get?_setAll_map (d : Dict κ ν) (ks : List κ) (v : ν) (k : κ) :
    (d.setAll (ks.map fun k' => (k', v))).get? k = if k ∈ ks then some v else d.get? k := by
  induction ks generalizing d with
  | nil => rfl
  | cons k' ks ih =>
    have hnext := ih (d.set k' v)
    rw [get?_set] at hnext
    rw [List.map_cons, setAll, List.foldl_cons]
    refine hnext.trans ?_
    by_cases hks : k ∈ ks
    · rw [if_pos hks, if_pos (List.mem_cons_of_mem _ hks)]
    · rw [if_neg hks]
      exact if_congr (by rw [List.mem_cons, or_iff_left hks]) rfl rfl

/-- Each of several values is set for its keys: a key has the last of its values. -/
theorem get?_setAll_flatMap (ks : ν → List κ) (vs : List ν) (k : κ) [∀ v, Decidable (k ∈ ks v)] :
    ((empty : Dict κ ν).setAll (vs.flatMap fun v => (ks v).map fun k' => (k', v))).get? k =
      vs.reverse.find? fun v => decide (k ∈ ks v) := by
  induction vs using List.reverseRecOn with
  | nil => rfl
  | append_singleton vs v ih =>
    rw [setAll_flatMap] at ih
    rw [setAll_flatMap, List.foldl_append, List.foldl_cons, List.foldl_nil, get?_setAll_map, ih,
      List.reverse_append, List.reverse_singleton, List.singleton_append, List.find?_cons]
    by_cases hk : k ∈ ks v
    · simp [hk]
    · simp [hk]

/-- `d[k].append(v)`, where a key that is absent has the empty list. -/
def append (d : Dict κ (List ν)) (k : κ) (v : ν) : Dict κ (List ν) :=
  d.upsert k fun found => found.getD [] ++ [v]

/-- `d[k].append(v)` for the entries of a log. -/
def groupAll (d : Dict κ (List ν)) (log : List (κ × ν)) : Dict κ (List ν) :=
  log.foldl (fun d e => d.append e.1 e.2) d

/-- What is grouped under a key are its values, and a key without values is not there. -/
theorem get?_groupAll (log : List (κ × ν)) (k : κ) :
    ((empty : Dict κ (List ν)).groupAll log).get? k =
      if k ∈ log.map Prod.fst then some ((log.filter fun e => e.1 = k).map Prod.snd) else none := by
  induction log using List.reverseRecOn with
  | nil => rfl
  | append_singleton log e ih =>
    obtain ⟨k', v⟩ := e
    rw [groupAll] at ih
    rw [groupAll, List.foldl_append, List.foldl_cons, List.foldl_nil, append, get?_upsert]
    by_cases hk : k = k'
    · subst hk
      have hlast : [(k, v)].filter (fun e => e.1 = k) = [(k, v)] := by simp
      have hmem : k ∈ (log ++ [(k, v)]).map Prod.fst :=
        List.mem_map.mpr ⟨(k, v), List.mem_append_right _ List.mem_cons_self, rfl⟩
      rw [if_pos rfl, ih, if_pos hmem, List.filter_append, hlast, List.map_append]
      by_cases hkey : k ∈ log.map Prod.fst
      · rw [if_pos hkey]
        rfl
      · -- The key is new, so it has no values yet.
        have hnone : log.filter (fun e => e.1 = k) = [] := by
          refine List.filter_eq_nil_iff.mpr fun e he heq => hkey ?_
          exact List.mem_map.mpr ⟨e, he, of_decide_eq_true heq⟩
        rw [if_neg hkey, hnone]
        rfl
    · have hlast : [(k', v)].filter (fun e => e.1 = k) = [] := by simp [Ne.symm hk]
      have hkeys : k ∈ (log ++ [(k', v)]).map Prod.fst ↔ k ∈ log.map Prod.fst := by
        rw [List.map_append, List.mem_append, List.map_singleton, List.mem_singleton, or_iff_left hk]
      rw [if_neg hk, ih, List.filter_append, hlast, List.append_nil]
      exact (if_congr hkeys rfl rfl).symm

/-- Every value that is grouped is under its key. -/
theorem mem_groupAll_iff {log : List (κ × ν)} {k : κ} {v : ν} :
    (∃ vs, (k, vs) ∈ ((empty : Dict κ (List ν)).groupAll log).entries ∧ v ∈ vs) ↔ (k, v) ∈ log := by
  simp only [← get?_eq_some_iff, get?_groupAll]
  constructor
  · rintro ⟨vs, hvs, hv⟩
    split at hvs
    · obtain rfl := Option.some.inj hvs
      obtain ⟨⟨k', v'⟩, hmem, rfl⟩ := List.mem_map.mp hv
      obtain ⟨hlog, hk⟩ := List.mem_filter.mp hmem
      rw [decide_eq_true_eq] at hk
      exact hk ▸ hlog
    · cases hvs
  · intro hmem
    refine ⟨_, if_pos (List.mem_map_of_mem hmem), List.mem_map.mpr ⟨(k, v), ?_, rfl⟩⟩
    exact List.mem_filter.mpr ⟨hmem, by simp⟩

/-- A key that is there has a value. -/
theorem exists_mem_of_groupAll {log : List (κ × ν)} {k : κ} {vs : List ν}
    (h : (k, vs) ∈ ((empty : Dict κ (List ν)).groupAll log).entries) : ∃ v, v ∈ vs := by
  rw [← get?_eq_some_iff, get?_groupAll] at h
  split at h
  · next hkey =>
    obtain ⟨e, he, rfl⟩ := List.mem_map.mp hkey
    obtain rfl := Option.some.inj h
    exact ⟨e.2, List.mem_map.mpr ⟨e, List.mem_filter.mpr ⟨he, decide_eq_true rfl⟩, rfl⟩⟩
  · cases h

end Dict

end Libgetar.Lib
