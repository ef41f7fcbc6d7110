import Libgetar.Python.Frames
import Libgetar.Python.RoundTrip

/-!
# Static records by their name

`staticRecordNamed` of `src/gtar/_gtar.pyx` takes the first record type with a name, as the catalogue
lists them, and reads it without an index. Of the types with the name, the ones in the first group come
first, and of these the ones that are constant. So a static record is found in a group that is asked for,
and in general if it is in no later group than a record with frames of the same name
(`staticRecordNamed_static_iff`). Such a record has no contents without a frame, so that it is read as
an empty string or array, and not reported as missing.
-/

namespace Libgetar

open Lib

section
variable (g : Gtar Store)

/-- The types with a name, in the list comprehension of `staticRecordNamed`. -/
def typesNamed (types : List Record) (n : Bytes) : Except PyError (List Record) :=
  types.foldlM (fun result rec' => do
    let name ← unpy3str rec'.name
    return if name = n then result ++ [rec'] else result) []

/-- `staticRecordNamed`. -/
def staticRecordNamed (n : Bytes) (group groupPrefix : Option Bytes) : Except PyError Contents := do
  let types ← getRecordTypes g group groupPrefix
  let found ← typesNamed types n
  match found with
  | rec' :: _ => MapArchive.getRecord g rec' []
  | [] => .error .keyError

end

/-- The types with a name and the group that is asked for. -/
def named (g : Gtar Store) (n : Bytes) (group groupPrefix : Option Bytes) : List Record :=
  (selected g group groupPrefix).filter fun r => decide (r.name = n)

section

variable {g : Gtar Store} {n : Bytes} {group groupPrefix : Option Bytes} {r s : Record}

/-! ## The type that is read -/

theorem typesNamed_eq_ok {types : List Record} (hnames : ∀ r ∈ types, IsUtf8 r.name) (n : Bytes) :
    typesNamed types n = .ok (types.filter fun r => decide (r.name = n)) := by
  have hfilter : types.filter (fun r => decide (r.name = n)) =
      types.foldl (fun result r => if r.name = n then result ++ [r] else result) [] := by
    induction types using List.reverseRecOn with
    | nil => rfl
    | append_singleton types r ih =>
      rw [List.filter_append, List.foldl_append, List.foldl_cons, List.foldl_nil,
        ih fun s hs => hnames s (List.mem_append_left _ hs)]
      by_cases h : r.name = n
      · rw [if_pos h, List.filter_singleton, decide_eq_true h, cond_true]
      · rw [if_neg h, List.filter_singleton, decide_eq_false h, cond_false, List.append_nil]
  rw [hfilter]
  refine (foldlM_eq_ok_iff fun r _ result result' => ?_).mpr ⟨hnames, rfl⟩
  apply unpy3str_bind_eq_ok_iff

/-- The first type with the name is read, if there is one. -/
theorem staticRecordNamed_eq (hdecodes : Decodes g group groupPrefix) (n : Bytes) :
    staticRecordNamed g n group groupPrefix =
      match named g n group groupPrefix with
      | rec' :: _ => MapArchive.getRecord g rec' []
      | [] => .error .keyError := by
  have htypes := getRecordTypes_eq_ok_iff.mpr ⟨hdecodes.groups, rfl⟩
  unfold staticRecordNamed
  rw [htypes]
  show (typesNamed (selected g group groupPrefix) n >>= _) = _
  rw [typesNamed_eq_ok hdecodes.names]
  rfl

/-- The types with a name are listed by the catalogue, in this order. -/
theorem named_sublist (g : Gtar Store) (n : Bytes) (group groupPrefix : Option Bytes) :
    (named g n group groupPrefix).Sublist g.getRecordTypes := by
  unfold named selected
  split
  · exact List.filter_sublist.trans List.filter_sublist
  · exact List.filter_sublist.trans List.filter_sublist
  · exact List.filter_sublist

theorem mem_named : r ∈ named g n group groupPrefix ↔
    r ∈ selected g group groupPrefix ∧ r.name = n := by
  rw [named, List.mem_filter, decide_eq_true_eq]

/-- Of two types with a name, the lower one is in no later group, and it is constant in the same group
if the other one is. -/
theorem lt_of_name_eq (hname : r.name = s.name) (hlt : r.lt s = true) :
    bytesLt s.group r.group = false ∧
      (s.behavior = .constant → r.behavior ≠ .constant → bytesLt r.group s.group = true) := by
  rw [Record.lt_eq_orderKeyLt] at hlt
  unfold Record.orderKeyLt at hlt
  simp only [lexLt, Record.orderKey, hname, StrictTotal.irrefl, Bool.or_eq_true, Bool.and_eq_true,
    Bool.not_eq_true', Bool.false_eq_true, false_or, true_and] at hlt
  rcases hlt with hgroup | ⟨hgroup, hrest⟩
  · exact ⟨StrictTotal.asymm hgroup, fun _ _ => hgroup⟩
  · refine ⟨hgroup, fun hs hr => ?_⟩
    -- No behavior is below that of constant records.
    rw [hs] at hrest
    cases hbehavior : r.behavior with
    | constant => exact absurd hbehavior hr
    | discrete =>
      rw [hbehavior] at hrest
      exact absurd hrest (by simp [natLt, Behavior.rank])
    | continuous =>
      rw [hbehavior] at hrest
      exact absurd hrest (by simp [natLt, Behavior.rank])

/-- The first type with a name is constant exactly if there is a constant one whose group is not behind
that of any other. -/
theorem constant_first_iff {rest : List Record} (hfirst : named g n group groupPrefix = r :: rest) :
    r.behavior = .constant ↔ ∃ s ∈ named g n group groupPrefix, s.behavior = .constant ∧
      ∀ t ∈ named g n group groupPrefix, t.behavior ≠ .constant → bytesLt t.group s.group = false := by
  have hsorted := (StdMap.keys_sorted g.records).sublist (named_sublist g n group groupPrefix)
  rw [hfirst, List.pairwise_cons] at hsorted
  have hname {t : Record} (ht : t ∈ named g n group groupPrefix) : t.name = n := (mem_named.mp ht).2
  have hlt {t : Record} (ht : t ∈ named g n group groupPrefix) (hne : t ≠ r) : r.lt t = true := by
    rw [hfirst] at ht
    exact hsorted.1 t ((List.mem_cons.mp ht).resolve_left hne)
  have hr : r ∈ named g n group groupPrefix := hfirst ▸ List.mem_cons_self
  constructor
  · intro hconstant
    refine ⟨r, hr, hconstant, fun t ht hbehavior => ?_⟩
    have hne : t ≠ r := fun heq => hbehavior (heq ▸ hconstant)
    exact (lt_of_name_eq ((hname hr).trans (hname ht).symm) (hlt ht hne)).1
  · rintro ⟨s, hs, hconstant, hgroups⟩
    by_contra hbehavior
    -- The constant one is behind the first one, so its group is.
    have hne : s ≠ r := fun heq => hbehavior (heq ▸ hconstant)
    have hgroup := (lt_of_name_eq ((hname hr).trans (hname hs).symm) (hlt hs hne)).2 hconstant hbehavior
    rw [hgroups r hr hbehavior] at hgroup
    cases hgroup

/-- In a group that is asked for, that there is a constant one is enough. -/
theorem constant_first_iff_of_group {G : Bytes} {rest : List Record}
    (hfirst : named g n (some G) groupPrefix = r :: rest) :
    r.behavior = .constant ↔ ∃ s ∈ named g n (some G) groupPrefix, s.behavior = .constant := by
  have hgroup {t : Record} (ht : t ∈ named g n (some G) groupPrefix) : t.group = G := by
    have hselected := (mem_named.mp ht).1
    exact of_decide_eq_true (List.mem_filter.mp hselected).2
  rw [constant_first_iff hfirst]
  refine exists_congr fun s => and_congr_right fun hs => and_iff_left fun t ht _ => ?_
  rw [hgroup ht, hgroup hs]
  exact StrictTotal.irrefl G

/-! ## What is read -/

/-- Reading a type without an index. -/
theorem getRecord_eq {log : Store} (hopen : g.archive = some log) (r : Record) :
    MapArchive.getRecord g r [] = deserialize r ((lastWrite log r.getPath).getD []) := by
  have hread : (g.readBytes mapBackend r.getPath ()).2 = .array (lastWrite log r.getPath) := by
    unfold Gtar.readBytes
    rw [hopen]
    rfl
  show contentsOfAnswer r (g.readBytes mapBackend r.getPath ()).2 = _
  rw [hread, contentsOfAnswer_array]
  rfl

/-- The path of a record has what was written for the record, if all paths are plain. -/
theorem lastWrite_getPath {log : Store} (hplain : ∀ e ∈ log, Gtar.Plain e.1) (hr : r.Canonical) :
    lastWrite log r.getPath = (Gtar.latest log r).map Prod.snd := by
  cases hlatest : Gtar.latest log r with
  | some e =>
    obtain ⟨path, contents⟩ := e
    have hlast := Gtar.lastWrite_of_latest hlatest
    have hpath := (hplain _ (mem_of_lastWrite_eq_some hlast)).getPath
    rw [Gtar.ofPath_of_latest hlatest] at hpath
    rw [hpath, hlast]
    rfl
  | none =>
    rw [Option.map_none, lastWrite_eq_none_iff]
    intro hmem
    obtain ⟨e, he, heq⟩ := List.mem_map.mp hmem
    -- The path would be that of the record.
    have hrecord : Record.ofPath e.1 = r := by
      refine Record.getPath_injective (Record.ofPath_canonical _) hr ?_
      rw [(hplain e he).getPath, heq]
    obtain ⟨found, hfound⟩ := Gtar.exists_latest (List.mem_map_of_mem he)
    rw [hrecord, hlatest] at hfound
    cases hfound

end

/-! ## Runs -/

theorem mapBackend_exact : mapBackend.Exact (fun s log => s = log) fun _ _ _ => True where
  writePtr := by
    rintro s _ rfl w env -
    exact ⟨rfl, rfl⟩
  beginBulkWrites := fun h _ => h
  endBulkWrites := fun h _ => h
  read := by
    rintro s _ rfl path env
    exact ⟨rfl, rfl⟩

/-- After a run that leaves it open, an archive has the log and lists its paths. -/
theorem serves_run {log : Store} (hlength : log.length < 2 ^ 32) {calls : List (GtarOp × Unit)}
    (hclose : ∀ c ∈ calls, c.1 ≠ .close) :
    let start := Gtar.ofArchive mapBackend log
    let log' := log ++ Gtar.written mapBackend start calls
    Gtar.Serves (fun s log => s = log) (exec (Gtar.step mapBackend) start calls)
      (log'.map Prod.fst) log' := by
  intro start log'
  have hlists : Gtar.Lists start (log.map Prod.fst) := by
    have hnames := Gtar.lists_ofArchive (Gtar.names_storeBackend (fun _ => none) log)
    rwa [Gtar.openedNames_of_lt (by rwa [List.length_map])] at hnames
  have hstart : Gtar.Serves (fun s log => s = log) start (log.map Prod.fst) log :=
    ⟨hlists, log, Gtar.archive_ofArchive mapBackend log, rfl⟩
  have hsuccessful : ∀ c ∈ calls, ∀ g : Gtar Store, Gtar.Successful (fun _ _ _ => True) g c := by
    rintro ⟨op, env⟩ hc g
    cases op with
    | close => exact absurd rfl (hclose _ hc)
    | write kind path contents mode immediate => exact fun _ _ => trivial
    | beginBulkWrites => trivial
    | endBulkWrites => trivial
    | readBytes path => trivial
  have hrun := hstart.run mapBackend_exact calls (along_of_forall hsuccessful start)
  rwa [← List.map_append] at hrun

/-- After a run, `staticRecordNamed` reads the first type with the name, or raises a `KeyError` if there
is none. What is read is what was last written for the type, without an index. The type is a static one
exactly if there is a static one whose group is not behind that of a type that has frames, and if a
group is asked for, exactly if there is a static one. -/
theorem staticRecordNamed_static_iff {log : Store} (hlength : log.length < 2 ^ 32)
    {calls : List (GtarOp × Unit)} (hclose : ∀ c ∈ calls, c.1 ≠ .close) :
    let start := Gtar.ofArchive mapBackend log
    let g := exec (Gtar.step mapBackend) start calls
    let log' := log ++ Gtar.written mapBackend start calls
    (∀ e ∈ log', Gtar.Plain e.1) → ∀ n group groupPrefix, Decodes g group groupPrefix →
      (named g n group groupPrefix = [] ∧
        staticRecordNamed g n group groupPrefix = .error .keyError) ∨
      ∃ r ∈ named g n group groupPrefix,
        staticRecordNamed g n group groupPrefix =
          deserialize r (((Gtar.latest log' r).map Prod.snd).getD []) ∧
        (r.behavior = .constant → Gtar.latest log' r ≠ none) ∧
        (r.behavior = .constant ↔ ∃ s ∈ named g n group groupPrefix, s.behavior = .constant ∧
          ∀ t ∈ named g n group groupPrefix, t.behavior ≠ .constant →
            bytesLt t.group s.group = false) ∧
        (group ≠ none → (r.behavior = .constant ↔
          ∃ s ∈ named g n group groupPrefix, s.behavior = .constant)) := by
  intro start g log' hplain n group groupPrefix hdecodes
  obtain ⟨hlists, _, hopen, rfl⟩ := serves_run hlength hclose
  have hread := staticRecordNamed_eq hdecodes n
  cases hnamed : named g n group groupPrefix with
  | nil =>
    rw [hnamed] at hread
    exact Or.inl ⟨rfl, hread⟩
  | cons r rest =>
    rw [hnamed] at hread
    right
    -- The type is that of a path.
    have htype : r ∈ g.records.keys :=
      (named_sublist g n group groupPrefix).subset (hnamed ▸ List.mem_cons_self)
    obtain ⟨p, hp, hrecord⟩ := (hlists.types r).mp htype
    have hcanonical := Record.ofPath_canonical p
    refine ⟨r, List.mem_cons_self, ?_, fun hconstant => ?_, ?_, fun hgroup => ?_⟩
    · refine hread.trans ?_
      show MapArchive.getRecord g r [] = _
      rw [getRecord_eq hopen, lastWrite_getPath hplain (hrecord ▸ hcanonical.withNullifiedIndex)]
    · -- A path of a static record has no index.
      have hbehavior : (Record.ofPath p).behavior = .constant := by
        rw [← hconstant, ← hrecord]
        rfl
      have hsame : Record.ofPath p = r := by
        rw [← hrecord, ← Gtar.setIndex_withNullifiedIndex (Record.ofPath p),
          hcanonical.constant_index hbehavior]
        rfl
      obtain ⟨found, hfound⟩ := Gtar.exists_latest hp
      rw [← hsame, hfound]
      exact Option.some_ne_none found
    · rw [← hnamed]
      exact constant_first_iff hnamed
    · rw [← hnamed]
      obtain ⟨G, rfl⟩ := Option.ne_none_iff_exists'.mp hgroup
      exact constant_first_iff_of_group hnamed

/-- A record with frames in the first group, and a static one of the same name in the second: the first
one is read, without a frame, unless the second group is asked for. -/
theorem staticRecordNamed_groups :
    let g := exec (Gtar.step mapBackend) (Gtar.ofArchive mapBackend [(lit "b/x", lit "static")])
      [(.write .string (lit "a/frames/1/x") (lit "frame") .noCompress true, ())]
    staticRecordNamed g (lit "x") none none = .ok (.str []) ∧
      staticRecordNamed g (lit "x") (some (lit "b")) none = .ok (.str (lit "static")) := by
  intro g
  have hlength : [(lit "b/x", lit "static")].length < 2 ^ 32 := by decide
  have hclose : ∀ c ∈ [((.write .string (lit "a/frames/1/x") (lit "frame") .noCompress true, ()) :
      GtarOp × Unit)], c.1 ≠ .close := by decide
  have hplain : ∀ e ∈ [(lit "b/x", lit "static"), (lit "a/frames/1/x", lit "frame")],
      Gtar.Plain e.1 := by
    intro e he
    have hall : ∀ e ∈ [(lit "b/x", lit "static"), (lit "a/frames/1/x", lit "frame")],
        e.1.head? ≠ some slash ∧ e.1.length + 1 < 100 := by decide
    refine ⟨(hall e he).1, Record.segmentsFit_of_length_lt ?_⟩
    have hshort := (hall e he).2
    unfold Record.segmentBound Record.intBound
    omega
  have hdecodes : Decodes g (some (lit "b")) none := ⟨fun _ => by decide +kernel, by decide +kernel⟩
  have hnamed : named g (lit "x") (some (lit "b")) none = [Record.ofPath (lit "b/x")] := by
    decide +kernel
  refine ⟨rfl, ?_⟩
  obtain ⟨hempty, -⟩ | ⟨r, hr, hread, -⟩ :=
    staticRecordNamed_static_iff hlength hclose hplain (lit "x") (some (lit "b")) none hdecodes
  · exact absurd (hnamed.symm.trans hempty) (List.cons_ne_nil _ _)
  · obtain rfl := List.mem_singleton.mp (hnamed ▸ hr)
    rw [hread]
    rfl

end Libgetar
