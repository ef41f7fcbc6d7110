import Libgetar.Tar.Reopen

/-!
# The item names of a tar file that is opened again

The name that is decoded for a path (`storedName`) is the path for paths of up to 99 bytes. Of a
longer one, `splitPath` takes the last 100 bytes for the name and then only 99 of them, so that the
last byte is lost (`storedName_of_long`).

`reopened_names_iff` says what this means for the items of a file that was written in a session, and
when they are the paths that were written.
-/

namespace Libgetar

open Lib

namespace TarArchive

/-- The names that a loop over the indices below `size()` gets. -/
def itemNames (a : TarArchive) : List (Option Bytes) := (List.range a.size).map a.getItemName

/-- The paths of the calls that have returned normally, in call order. -/
def returnedPaths (calls : List (Write × TarEnv)) (answers : List Answer) : List Bytes :=
  ((calls.zip answers).filter fun c => c.2.isNormal).map fun c => c.1.1.path

/-- The calls of a session that only writes. -/
def writeCalls (calls : List (Write × TarEnv)) : List (Call × TarEnv) :=
  calls.map fun c => (.writePtr c.1, c.2)

/-! ## The decoded name -/

/-- A short path is decoded as it was written. -/
theorem storedName_of_short {path : Bytes} (hnul : (0 : UInt8) ∉ path) (hlen : path.length ≤ 99) :
    storedName path = path := by
  have hsplit : splitPath path = ([], path) := if_neg (by omega)
  rw [storedName, hsplit, List.take_nil, List.take_of_length_le hlen, cStr_eq_self hnul,
    cStr_eq_self (by simp), List.nil_append]

/-- A long path is decoded without its last byte. -/
theorem storedName_of_long {path : Bytes} (hnul : (0 : UInt8) ∉ path) (hlong : 99 < path.length)
    (hlen : path.length ≤ 254) : storedName path = path.dropLast := by
  let front := path.take (path.length - 100)
  let name := (path.drop (path.length - 100)).take 99
  have hsplit : splitPath path = (front, name) := if_pos hlong
  have hfront : front.length = path.length - 100 := by
    rw [List.length_take]
    omega
  have hname : name.length ≤ 99 := List.length_take_le _ _
  have hnulFront : (0 : UInt8) ∉ front := fun h => hnul (List.mem_of_mem_take h)
  have hnulName : (0 : UInt8) ∉ name := fun h => hnul (List.mem_of_mem_drop (List.mem_of_mem_take h))
  rw [storedName, hsplit]
  simp only
  rw [List.take_of_length_le (show front.length ≤ 154 by omega), List.take_of_length_le hname,
    cStr_eq_self hnulFront, cStr_eq_self hnulName, List.dropLast_eq_take]
  -- The front and 99 more bytes are all but one.
  have hcount : path.length - 1 = path.length - 100 + 99 := by omega
  rw [hcount, List.take_add]

/-- Among the paths that are taken, exactly the short ones are decoded as they were written. -/
theorem storedName_eq_self_iff {path : Bytes} (hnul : (0 : UInt8) ∉ path)
    (hlen : path.length ≤ 254) : storedName path = path ↔ path.length ≤ 99 := by
  constructor
  · intro h
    by_contra hlong
    rw [storedName_of_long hnul (by omega) hlen] at h
    have := congrArg List.length h
    rw [List.length_dropLast] at this
    omega
  · exact storedName_of_short hnul

/-! ## The item list -/

/-- The items are as many of the names as `size()` can count. -/
theorem itemNames_eq (a : TarArchive) :
    a.itemNames = (a.fileNames.take a.size).map some := by
  have hle : a.size ≤ a.fileNames.length := Nat.mod_le _ _
  apply List.ext_getElem
  · simp [itemNames, hle]
  · intro i hi hi'
    simp only [itemNames, List.length_map, List.length_range] at hi
    simp [itemNames, getItemName, List.getElem?_eq_getElem (show i < a.fileNames.length by omega)]

/-- The paths that `writePtr` takes. -/
def takenPaths (calls : List (Write × TarEnv)) : List Bytes :=
  (calls.map fun c => c.1.path).filter fun path => path.length ≤ 254

theorem refuses_eq_none_iff (path : Bytes) : refuses path = none ↔ path.length ≤ 254 := by
  unfold refuses
  split
  · simp only [reduceCtorEq, false_iff]
    omega
  · simp only [true_iff]
    omega

theorem not_le_of_refuses {path message : Bytes} (h : refuses path = some message) :
    ¬path.length ≤ 254 := by
  rw [← refuses_eq_none_iff, h]
  simp

/-- The calls that return normally are those with the paths that are taken. -/
theorem returnedPaths_eq (log : Store) (calls : List (Write × TarEnv)) :
    returnedPaths calls (outputs (Store.step refuses) log ((writeCalls calls).map Prod.fst)) =
      takenPaths calls := by
  induction calls generalizing log with
  | nil => rfl
  | cons c calls ih =>
    have hcons : (writeCalls (c :: calls)).map Prod.fst =
        .writePtr c.1 :: (writeCalls calls).map Prod.fst := rfl
    simp only [returnedPaths] at ih
    rw [hcons, outputs_cons, returnedPaths, List.zip_cons_cons, takenPaths, List.map_cons]
    cases hrefuses : refuses c.1.path with
    | some message =>
      have hlong := not_le_of_refuses hrefuses
      rw [List.filter_cons_of_neg (by simp [Store.step, hrefuses, Answer.isNormal]), ih,
        List.filter_cons_of_neg (by simpa using hlong)]
      rfl
    | none =>
      have hshort : c.1.path.length ≤ 254 := (refuses_eq_none_iff _).mp hrefuses
      rw [List.filter_cons_of_pos (by simp [Store.step, hrefuses, Answer.isNormal]), List.map_cons,
        ih, List.filter_cons_of_pos (by simpa using hshort)]
      rfl

/-- The records of a session that only writes are named by the paths that are taken. -/
theorem names_records (calls : List (Write × TarEnv)) :
    (records (writeCalls calls)).map Entry.name = takenPaths calls := by
  induction calls with
  | nil => rfl
  | cons c calls ih =>
    have hcons : writeCalls (c :: calls) = (.writePtr c.1, c.2) :: writeCalls calls := rfl
    rw [records] at ih
    rw [hcons, records, List.filterMap_cons, takenPaths, List.map_cons]
    cases hrefuses : refuses c.1.path with
    | some message =>
      have hlong := not_le_of_refuses hrefuses
      have hnone : record? (.writePtr c.1, c.2) = none := by simp [record?, takes, hrefuses]
      rw [hnone, List.filter_cons_of_neg (by simpa using hlong)]
      exact ih
    | none =>
      have hshort : c.1.path.length ≤ 254 := (refuses_eq_none_iff _).mp hrefuses
      have hsome : record? (.writePtr c.1, c.2) = some (recordOf c.1 c.2) := by
        simp [record?, takes, hrefuses]
      rw [hsome, List.filter_cons_of_pos (by simpa using hshort)]
      simp only [List.map_cons, ih]
      rfl

/-- Names that are cut off at a count are the paths exactly when all are decoded as they were
written and none is cut off. -/
theorem take_map_storedName_iff {paths : List Bytes} (hnul : ∀ path ∈ paths, (0 : UInt8) ∉ path)
    (hlen : ∀ path ∈ paths, path.length ≤ 254) :
    (paths.map storedName).take (paths.length % uintBound) = paths ↔
      (∀ path ∈ paths, path.length ≤ 99) ∧ paths.length < uintBound := by
  constructor
  · intro h
    have hcount : paths.length < uintBound := by
      have := congrArg List.length h
      rw [List.length_take, List.length_map] at this
      have hmod := Nat.mod_lt paths.length (show 0 < uintBound by decide)
      omega
    rw [Nat.mod_eq_of_lt hcount, List.take_of_length_le (by rw [List.length_map])] at h
    refine ⟨fun path hpath => ?_, hcount⟩
    have hself : storedName path = path :=
      List.map_inj_left.mp (h.trans (List.map_id paths).symm) path hpath
    exact (storedName_eq_self_iff (hnul path hpath) (hlen path hpath)).mp hself
  · rintro ⟨hshort, hcount⟩
    rw [Nat.mod_eq_of_lt hcount, List.take_of_length_le (by rw [List.length_map])]
    have hself : ∀ path ∈ paths, storedName path = id path := fun path hpath =>
      storedName_of_short (hnul path hpath) (hshort path hpath)
    rw [List.map_congr_left hself, List.map_id]

/-- A session that writes, with paths without NUL and lengths that fit the size field: what the
items are when the file is opened again. -/
theorem reopened_itemNames (filename : Bytes) (disk : Option Bytes) (calls : List (Write × TarEnv))
    (hsizes : SizesFit (writeCalls calls))
    (hfit : (image (records (writeCalls calls))).length + 1024 < maxOffset) {fuel : ℕ}
    (hfuel : calls.length + 2 ≤ fuel) :
    ∃ a bytes b, ofFile fuel filename .write disk = some (.ok a) ∧
      session fuel filename .write disk (writeCalls calls) = some (.ok bytes) ∧
      ofFile fuel filename .read (some bytes) = some (.ok b) ∧
      returnedPaths calls (outputs step a (writeCalls calls)) = takenPaths calls ∧
      b.itemNames = (((takenPaths calls).map storedName).take
        ((takenPaths calls).length % uintBound)).map some := by
  let es := (records (writeCalls calls)).map Entry.asStored
  obtain ⟨a, hfile, hnew⟩ := ofFile_write filename disk
  obtain ⟨-, hanswers⟩ := hnew.run (writeCalls calls) (by rw [List.nil_append]; omega)
  have hsession := session_write filename disk (writeCalls calls) hfit (show 2 ≤ fuel by omega)
  have hbytes : image (records (writeCalls calls)) ++ trailer = image es ++ trailer := by
    rw [image_asStored]
  have hopen : openFile .read (some (image (records (writeCalls calls)) ++ trailer)) =
      some { bytes := image (records (writeCalls calls)) ++ trailer, out := false } := rfl
  have hlen : (image (records (writeCalls calls)) ++ trailer).length < maxOffset := by
    rw [List.length_append, trailer, List.length_replicate]
    exact hfit
  obtain ⟨b, hagain, hholds, -⟩ := ofFile_holds hopen hbytes (decodes_asStored hsizes)
    endsFile_trailer hlen filename
  have hcount : es.length ≤ calls.length := by
    rw [List.length_map]
    exact (List.length_filterMap_le _ _).trans (by rw [writeCalls, List.length_map])
  have hnames : b.fileNames = (takenPaths calls).map storedName := by
    rw [hholds.names, List.map_map, ← names_records, List.map_map]
    rfl
  refine ⟨a, _, b, hfile fuel (by omega), hsession, hagain fuel (by omega), ?_, ?_⟩
  · rw [hanswers]
    exact returnedPaths_eq _ _
  · rw [itemNames_eq, size, hnames, List.length_map]

/-- The items are the paths of the calls that have returned, in call order, exactly when no path has
between 100 and 254 bytes, and `size()` can count the others that are taken. -/
theorem reopened_names_iff (filename : Bytes) (disk : Option Bytes) (calls : List (Write × TarEnv))
    (hnul : ∀ c ∈ calls, (0 : UInt8) ∉ c.1.path)
    (hsizes : ∀ c ∈ calls, c.1.contents.length < sizeFieldBound)
    (hfit : (image (records (writeCalls calls))).length + 1024 < maxOffset) (fuel : ℕ)
    (hfuel : calls.length + 2 ≤ fuel) :
    ∃ a bytes b, ofFile fuel filename .write disk = some (.ok a) ∧
      session fuel filename .write disk (writeCalls calls) = some (.ok bytes) ∧
      ofFile fuel filename .read (some bytes) = some (.ok b) ∧
      (b.itemNames = (returnedPaths calls (outputs step a (writeCalls calls))).map some ↔
        (∀ c ∈ calls, c.1.path.length ≤ 99 ∨ 254 < c.1.path.length) ∧
          (calls.countP fun c => c.1.path.length ≤ 254) < uintBound) := by
  have hfits : SizesFit (writeCalls calls) := by
    intro w env h
    obtain ⟨c, hc, he⟩ := List.mem_map.mp h
    cases he
    exact hsizes c hc
  obtain ⟨a, bytes, b, hfile, hsession, hagain, hreturned, hitems⟩ :=
    reopened_itemNames filename disk calls hfits hfit hfuel
  have hmem {path : Bytes} : path ∈ takenPaths calls ↔
      ∃ c ∈ calls, c.1.path = path ∧ path.length ≤ 254 := by
    simp only [takenPaths, List.mem_filter, List.mem_map, decide_eq_true_eq]
    constructor
    · rintro ⟨⟨c, hc, rfl⟩, hlen⟩
      exact ⟨c, hc, rfl, hlen⟩
    · rintro ⟨c, hc, rfl, hlen⟩
      exact ⟨⟨c, hc, rfl⟩, hlen⟩
  have hnulTaken : ∀ path ∈ takenPaths calls, (0 : UInt8) ∉ path := by
    intro path hpath
    obtain ⟨c, hc, rfl, -⟩ := hmem.mp hpath
    exact hnul c hc
  have hlenTaken : ∀ path ∈ takenPaths calls, path.length ≤ 254 := by
    intro path hpath
    obtain ⟨c, -, -, hlen⟩ := hmem.mp hpath
    exact hlen
  have hcount : (takenPaths calls).length = calls.countP fun c => c.1.path.length ≤ 254 := by
    rw [takenPaths, ← List.countP_eq_length_filter, List.countP_map]
    rfl
  refine ⟨a, bytes, b, hfile, hsession, hagain, ?_⟩
  rw [hitems, hreturned, (List.map_injective_iff.mpr (Option.some_injective _)).eq_iff,
    take_map_storedName_iff hnulTaken hlenTaken, hcount]
  refine and_congr_left fun _ => ?_
  constructor
  · intro h c hc
    by_cases hlen : c.1.path.length ≤ 254
    · exact Or.inl (h _ (hmem.mpr ⟨c, hc, rfl, hlen⟩))
    · exact Or.inr (by omega)
  · intro h path hpath
    obtain ⟨c, hc, rfl, hlen⟩ := hmem.mp hpath
    rcases h c hc with hshort | hlong
    · exact hshort
    · omega

/-- A path of 99 bytes, and one that is refused. -/
theorem reopened_names_short :
    ∃ a bytes b, ofFile 4 (lit "a.tar") .write none = some (.ok a) ∧
      session 4 (lit "a.tar") .write none (writeCalls
        [(⟨List.replicate 99 97, lit "hi", .noCompress, false⟩, { now := 7 }),
          (⟨List.replicate 255 97, lit "no", .noCompress, false⟩, { now := 7 })]) =
            some (.ok bytes) ∧
      ofFile 4 (lit "a.tar") .read (some bytes) = some (.ok b) ∧
      b.itemNames = (returnedPaths
        [(⟨List.replicate 99 97, lit "hi", .noCompress, false⟩, { now := 7 }),
          (⟨List.replicate 255 97, lit "no", .noCompress, false⟩, { now := 7 })]
        (outputs step a (writeCalls
          [(⟨List.replicate 99 97, lit "hi", .noCompress, false⟩, { now := 7 }),
            (⟨List.replicate 255 97, lit "no", .noCompress, false⟩, { now := 7 })]))).map some := by
  let w₁ : Write := ⟨List.replicate 99 97, lit "hi", .noCompress, false⟩
  let w₂ : Write := ⟨List.replicate 255 97, lit "no", .noCompress, false⟩
  let env : TarEnv := { now := 7 }
  have hlen₁ : w₁.path.length = 99 := List.length_replicate
  have hlen₂ : w₂.path.length = 255 := List.length_replicate
  have hfit : (image (records (writeCalls [(w₁, env), (w₂, env)]))).length + 1024 < maxOffset := by
    have hshort : refuses w₁.path = none := (refuses_eq_none_iff _).mpr (by omega)
    have hlong : refuses w₂.path = some (nameTooLong w₂.path) := if_pos (by omega)
    have hrecords : records (writeCalls [(w₁, env), (w₂, env)]) = [recordOf w₁ env] := by
      simp only [records, writeCalls, List.map_cons, List.map_nil, List.filterMap_cons,
        List.filterMap_nil, record?, takes, hshort, hlong, Option.isNone_none, Option.isNone_some,
        Bool.false_eq_true, if_true, if_false]
    rw [hrecords, image_singleton, Entry.length_bytes]
    decide
  have hnul : ∀ c ∈ [(w₁, env), (w₂, env)], (0 : UInt8) ∉ c.1.path := by
    intro c hc h
    simp only [List.mem_cons, List.not_mem_nil, or_false] at hc
    rcases hc with rfl | rfl
    · exact absurd (List.eq_of_mem_replicate h) (by decide)
    · exact absurd (List.eq_of_mem_replicate h) (by decide)
  have hsizes : ∀ c ∈ [(w₁, env), (w₂, env)], c.1.contents.length < sizeFieldBound := by
    intro c hc
    simp only [List.mem_cons, List.not_mem_nil, or_false] at hc
    rcases hc with rfl | rfl
    · decide
    · decide
  obtain ⟨a, bytes, b, hfile, hsession, hagain, hiff⟩ :=
    reopened_names_iff (lit "a.tar") none [(w₁, env), (w₂, env)] hnul hsizes hfit 4 (by decide)
  refine ⟨a, bytes, b, hfile, hsession, hagain, hiff.mpr ⟨?_, ?_⟩⟩
  · intro c hc
    simp only [List.mem_cons, List.not_mem_nil, or_false] at hc
    rcases hc with rfl | rfl
    · exact Or.inl (le_of_eq hlen₁)
    · exact Or.inr (by rw [hlen₂]; decide)
  · exact lt_of_le_of_lt List.countP_le_length (by decide)

/-- A path of 100 bytes is taken, and listed without its last byte. -/
theorem reopened_names_counterexample :
    ∃ bytes b, session 4 (lit "a.tar") .write none
        (writeCalls [(⟨List.replicate 100 97, lit "hi", .noCompress, false⟩, { now := 7 })]) =
          some (.ok bytes) ∧
      ofFile 4 (lit "a.tar") .read (some bytes) = some (.ok b) ∧
      b.itemNames = [some (List.replicate 99 97)] ∧
      b.itemNames ≠ [some (List.replicate 100 97)] := by
  let w : Write := ⟨List.replicate 100 97, lit "hi", .noCompress, false⟩
  let env : TarEnv := { now := 7 }
  have hlen : w.path.length = 100 := List.length_replicate
  have htaken : takenPaths [(w, env)] = [w.path] := by
    rw [takenPaths, List.map_singleton, List.filter_singleton, hlen]
    rfl
  have hsizes : SizesFit (writeCalls [(w, env)]) := by
    intro w' env' h
    cases List.mem_singleton.mp h
    decide
  have hfit : (image (records (writeCalls [(w, env)]))).length + 1024 < maxOffset := by
    have htakes : refuses w.path = none := (refuses_eq_none_iff _).mpr (by omega)
    have hrecords : records (writeCalls [(w, env)]) = [recordOf w env] := by
      simp only [records, writeCalls, List.map_singleton, List.filterMap_cons, List.filterMap_nil,
        record?, takes, htakes, Option.isNone_none, if_true]
    rw [hrecords, image_singleton, Entry.length_bytes]
    decide
  have hnul : (0 : UInt8) ∉ w.path := fun h => absurd (List.eq_of_mem_replicate h) (by decide)
  obtain ⟨a, bytes, b, -, hsession, hagain, -, hitems⟩ :=
    reopened_itemNames (lit "a.tar") none [(w, env)] hsizes hfit (show 3 ≤ 4 by decide)
  have hstored : storedName w.path = List.replicate 99 97 := by
    rw [storedName_of_long hnul (by omega) (by omega)]
    exact List.dropLast_replicate
  have hlisted : b.itemNames = [some (List.replicate 99 97)] := by
    rw [hitems, htaken, List.map_singleton, hstored]
    rfl
  refine ⟨bytes, b, hsession, hagain, hlisted, ?_⟩
  rw [hlisted]
  intro h
  have := congrArg List.length (Option.some.inj (List.cons.inj h).1)
  simp only [List.length_replicate] at this
  omega

end TarArchive

end Libgetar
