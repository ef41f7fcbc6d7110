import Libgetar.Dir.Search

/-!
# A directory that is opened again

`writePtr` puts a file at the base name with the path behind it, and lists the path. The search of a
directory that is opened again lists the names that lead from the stripped base name downwards. So the
base name is in front of every path in the list, while `read` puts it in front once more.
`restores_iff` is what follows: the list holds the written paths only if nothing was written, although
every written path can still be read.

`Session` is what the calls keep: the tree, the directory that the base name stands for, and that the
files below it are the last writes to their places. A file name with a null byte ends there, so two
paths can have one place.
-/

namespace Libgetar

open Lib

namespace DirArchive

open FileTree

variable {env : DirEnv} {fs : FileTree} {d : Bytes} {B : List Bytes}

/-! ## The base name -/

/-- A name is the stripped one with slashes behind it. -/
theorem exists_eq_stripped_append (d : Bytes) :
    ∃ k, d = stripped d ++ List.replicate k separator := by
  induction d using List.reverseRecOn with
  | nil => exact ⟨0, rfl⟩
  | append_singleton d c ih =>
    obtain ⟨k, hk⟩ := ih
    by_cases hc : (c == separator) = true
    · refine ⟨k + 1, ?_⟩
      rw [stripped, List.rdropWhile_concat_pos _ d c hc, ← stripped, List.replicate_succ',
        ← List.append_assoc, ← hk, beq_iff_eq.mp hc]
    · exact ⟨0, by rw [stripped, List.rdropWhile_concat_neg _ d c hc]; simp⟩

/-- A base name is the stripped one with slashes behind it, of which there is one. -/
theorem exists_base_eq (d : Bytes) : ∃ k, d ++ [separator] =
    stripped (d ++ [separator]) ++ separator :: List.replicate k separator := by
  obtain ⟨k, hk⟩ := exists_eq_stripped_append d
  refine ⟨k, ?_⟩
  rw [stripped, List.rdropWhile_concat_pos _ _ _ (by simp), ← stripped, ← List.replicate_succ,
    List.replicate_succ', ← List.append_assoc, ← hk]

/-- Where a path behind the base name leads. -/
theorem locate_base (hzero : 0 ∉ stripped (d ++ [separator]))
    (hopen : fs.opendir (stripped (d ++ [separator])) = some B) (path : Bytes) :
    fs.locate (d ++ [separator] ++ path) = fs.walk B ((cStr path).splitOn separator) := by
  obtain ⟨k, hk⟩ := exists_base_eq d
  rw [hk, List.append_assoc, List.cons_append]
  exact locate_append_replicate hzero hopen k path

/-- With a null byte in the base name, every path behind it leads to the base directory. -/
theorem locate_base_of_mem (fs : FileTree) (hzero : 0 ∈ stripped (d ++ [separator]))
    (path : Bytes) :
    fs.locate (d ++ [separator] ++ path) = fs.locate (stripped (d ++ [separator])) := by
  obtain ⟨k, hk⟩ := exists_base_eq d
  rw [hk, List.append_assoc, locate_append_of_mem fs hzero, ← hk]

/-- The base name itself leads to the base directory. -/
theorem lookup_base (hopen : fs.opendir (stripped (d ++ [separator])) = some B) :
    fs.lookup (d ++ [separator]) = some .dir := by
  obtain ⟨hlocate, hdir⟩ := opendir_eq_some_iff.mp hopen
  have hbase : fs.locate (d ++ [separator]) = some B := by
    rw [← List.append_nil (d ++ [separator])]
    by_cases hzero : 0 ∈ stripped (d ++ [separator])
    · rw [locate_base_of_mem fs hzero, hlocate]
    · rw [locate_base hzero hopen]
      exact walk_replicate_nil fs hdir 1
  rw [lookup, hbase, Option.bind_some, hdir]

/-! ## Opening -/

/-- Opening a directory that is there leaves the file system as it is. -/
theorem ofFile_of_opendir (fuel : ℕ) (mode : OpenMode)
    (hopen : fs.opendir (stripped (d ++ [separator])) = some B) :
    ofFile env fuel fs (d ++ [separator]) mode =
      (searchDirectory env fs fuel (stripped (d ++ [separator])) []).map fun result =>
        result.map fun fileNames => (⟨d ++ [separator], mode, [], fileNames⟩, fs) := by
  have hbase : createBase fs (d ++ [separator]) mode = .ok fs := by
    rw [createBase]
    split
    · rfl
    · rw [lookup_base hopen]
  rw [ofFile, hbase]

/-- What opening leaves. -/
theorem ofFile_spec {fs₀ : FileTree} (hfs : fs₀.Tree) {fuel : ℕ} {mode : OpenMode}
    {a : DirArchive} (h : ofFile env fuel fs₀ (d ++ [separator]) mode = some (.ok (a, fs))) :
    fs.Tree ∧ a.filename = d ++ [separator] ∧
      (∃ B, fs.opendir (stripped (d ++ [separator])) = some B) ∧
      searchDirectory env fs fuel (stripped (d ++ [separator])) [] = some (.ok a.fileNames) := by
  rw [ofFile] at h
  split at h
  · cases h
  · next fs₁ hbase =>
    rw [Option.map_eq_some_iff] at h
    obtain ⟨result, hsearch, hresult⟩ := h
    obtain _ | fileNames := result
    · cases hresult
    · cases hresult
      have htree : fs.Tree := by
        rw [createBase] at hbase
        split at hbase
        · cases hbase
          exact hfs
        · split at hbase
          · cases hbase
            exact hfs
          · cases hbase
          · cases hbase
            exact (hfs.mkdir _).1
      refine ⟨htree, rfl, ?_, hsearch⟩
      obtain _ | fuel := fuel
      · cases hsearch
      · rw [searchDirectory] at hsearch
        split at hsearch
        · cases hsearch
        · next B hopen => exact ⟨B, hopen⟩

/-! ## Writing -/

/-- A relative path: none of its segments is empty, `.` or `..`. -/
def Relative (path : Bytes) : Prop :=
  ∀ segment ∈ path.splitOn separator, segment ≠ [] ∧ segment ≠ lit "." ∧ segment ≠ lit ".."

/-- Where a write goes below the base directory, and what it puts there. -/
def placed (w : Write) : List Bytes × Bytes := ((cStr w.path).splitOn separator, w.contents)

/-- An open archive: its base name stands for a directory. -/
structure Based (d : Bytes) (B : List Bytes) (s : DirArchive × FileTree) : Prop where
  tree : s.2.Tree
  filename : s.1.filename = d ++ [separator]
  base : s.2.opendir (stripped (d ++ [separator])) = some B

/-- What the calls keep. -/
structure Session (d : Bytes) (B : List Bytes) (s : DirArchive × FileTree) (ws : List Write) :
    Prop extends Based d B s where
  file : ∀ r contents, s.2.node (B ++ r) = some (.file contents) ↔
    lastWrite (ws.map placed) r = some contents

/-- The directories of a path are created, and nothing else is. -/
theorem createParents_spec (path : Bytes) (fuel pos : ℕ) {s : DirArchive × FileTree}
    (h : s.2.Tree) :
    (createParents path fuel pos s).1.filename = s.1.filename ∧
      (createParents path fuel pos s).2.Tree ∧ s.2.Deeper (createParents path fuel pos s).2 := by
  induction fuel generalizing pos s with
  | zero => exact ⟨rfl, h, Deeper.refl _⟩
  | succ fuel ih =>
    rw [createParents]
    split
    · exact ⟨rfl, h, Deeper.refl _⟩
    · next i hfind =>
      have hparent : ∀ segment, (createParent s segment).1.filename = s.1.filename ∧
          (createParent s segment).2.Tree ∧ s.2.Deeper (createParent s segment).2 := by
        intro segment
        rw [createParent]
        split
        · exact ⟨rfl, h, Deeper.refl _⟩
        · exact ⟨rfl, h.mkdir _⟩
      obtain ⟨hname, htree, hdeeper⟩ := hparent (substr path 0 i)
      obtain ⟨hname', htree', hdeeper'⟩ := ih (i + 1) htree
      exact ⟨hname'.trans hname, htree', hdeeper.trans hdeeper'⟩

/-- A relative path that leads to no directory leads to its place below the base directory. -/
theorem eq_append_of_relative (hfs : fs.Tree) {path : Bytes} (hrelative : Relative path)
    {q : List Bytes} (hwalk : fs.walk B ((cStr path).splitOn separator) = some q)
    (hq : fs.node q ≠ some .dir) : q = B ++ (cStr path).splitOn separator := by
  obtain ⟨init, last, hsplit⟩ : ∃ init last, (cStr path).splitOn separator = init ++ [last] :=
    ⟨_, _, (List.dropLast_append_getLast (List.splitOn_ne_nil _ _)).symm⟩
  have hsegment : ∀ name ∈ (cStr path).splitOn separator, separator ∉ name ∧ 0 ∉ name := by
    intro name hname
    refine ⟨not_mem_of_mem_splitOn hname, fun hzero => ?_⟩
    exact zero_not_mem_cStr path (mem_of_mem_splitOn hname hzero)
  -- All segments but the last one are segments of the whole path.
  have hinit : ∀ name ∈ init, Proper name := by
    intro name hname
    have hmem : name ∈ (cStr path).splitOn separator := by
      rw [hsplit]
      exact List.mem_append_left _ hname
    have hwhole : name ∈ path.splitOn separator := by
      rw [← List.takeWhile_append_dropWhile (p := (· != 0)) (l := path), ← cStr,
        splitOn_append_of_concat hsplit]
      exact List.mem_append_left _ hname
    obtain ⟨hnil, hdot, hdotdot⟩ := hrelative name hwhole
    exact ⟨hnil, hdot, hdotdot, (hsegment name hmem).1, (hsegment name hmem).2⟩
  obtain ⟨hseparator, hzero⟩ := hsegment last (by rw [hsplit]; simp)
  rw [hsplit] at hwalk ⊢
  exact (hfs.eq_append_of_walk hinit hseparator hzero hwalk hq).1

/-- A write that returns has written a file behind its directories. -/
theorem Based.writePtr {s : DirArchive × FileTree} (h : Based d B s) {w : Write}
    (hdone : (writePtr env s w).2 = .done) :
    Based d B (writePtr env s w).1 ∧ ∃ fs, fs.Tree ∧ s.2.Deeper fs ∧
      fs.writeFile (d ++ [separator] ++ w.path) w.contents = some (writePtr env s w).1.2 := by
  unfold DirArchive.writePtr at hdone ⊢
  split at hdone
  · cases hdone
  · next hmode =>
    rw [if_neg hmode]
    obtain ⟨hname, htree, hdeeper⟩ := createParents_spec w.path (w.path.length + 1) 0 h.tree
    generalize createParents w.path (w.path.length + 1) 0 s = s₁ at hname htree hdeeper hdone ⊢
    obtain ⟨a, fs⟩ := s₁
    simp only at hname htree hdeeper hdone ⊢
    rw [hname.trans h.filename] at hdone ⊢
    split at hdone
    · cases hdone
    · next fs' hwrite =>
      obtain ⟨htree', hgrown, -⟩ := htree.writeFile hwrite
      have hopen := (hdeeper.toGrown.trans hgrown).opendir h.base
      exact ⟨⟨htree', rfl, hopen⟩, fs, htree, hdeeper, hwrite⟩

/-- Behind a base name with a null byte no file can be written: it would have to be the base
directory. -/
theorem Based.zero_not_mem {s : DirArchive × FileTree} (h : Based d B s) {w : Write}
    (hdone : (DirArchive.writePtr env s w).2 = .done) : 0 ∉ stripped (d ++ [separator]) := by
  intro hzero
  obtain ⟨-, fs, htree, hdeeper, hwrite⟩ := h.writePtr hdone
  obtain ⟨-, -, q, hlocate, hq, -⟩ := htree.writeFile hwrite
  obtain ⟨hbase, hdir⟩ := opendir_eq_some_iff.mp (hdeeper.toGrown.opendir h.base)
  rw [locate_base_of_mem fs hzero, hbase, Option.some.injEq] at hlocate
  exact hq (hlocate ▸ hdir)

/-- A write that returns puts its contents at its place. -/
theorem Session.writePtr {s : DirArchive × FileTree} {ws : List Write} (h : Session d B s ws)
    {w : Write} (hrelative : Relative w.path) (hdone : (DirArchive.writePtr env s w).2 = .done) :
    Session d B (DirArchive.writePtr env s w).1 (ws ++ [w]) := by
  obtain ⟨hbased, fs, htree, hdeeper, hwrite⟩ := h.toBased.writePtr hdone
  obtain ⟨-, -, q, hlocate, hq, hnode⟩ := htree.writeFile hwrite
  have hopen := hdeeper.toGrown.opendir h.base
  rw [locate_base (h.toBased.zero_not_mem hdone) hopen] at hlocate
  have hplace := eq_append_of_relative htree hrelative hlocate hq
  refine ⟨hbased, fun r contents => ?_⟩
  have hlast : lastWrite ((ws ++ [w]).map placed) r =
      if r = (cStr w.path).splitOn separator then some w.contents
      else lastWrite (ws.map placed) r := by
    rw [List.map_append, List.map_singleton]
    exact lastWrite_concat _ _ _
  rw [hnode, hplace, hlast]
  simp only [List.append_cancel_left_eq]
  by_cases hr : r = (cStr w.path).splitOn separator
  · rw [if_pos hr, if_pos hr, Option.some.injEq, Option.some.injEq, Node.file.injEq]
  · rw [if_neg hr, if_neg hr, hdeeper.file, h.file]

/-- The archive and the file system behind some writes. -/
def written (env : DirEnv) (s : DirArchive × FileTree) (ws : List Write) :
    DirArchive × FileTree :=
  exec (step env) s (ws.map .writePtr)

/-- Every write returns. -/
def AllDone (env : DirEnv) (s : DirArchive × FileTree) (ws : List Write) : Prop :=
  ∀ answer ∈ outputs (step env) s (ws.map .writePtr), answer = .done

/-- Writes that return put their contents at their places, the last one at each place counting. -/
theorem Session.written {s : DirArchive × FileTree} {before ws : List Write}
    (h : Session d B s before) (hrelative : ∀ w ∈ ws, Relative w.path)
    (hdone : AllDone env s ws) : Session d B (written env s ws) (before ++ ws) := by
  induction ws generalizing s before with
  | nil => rwa [List.append_nil]
  | cons w ws ih =>
    obtain ⟨hfirst, hrest⟩ := List.forall_mem_cons.mp hrelative
    obtain ⟨hdone, hdones⟩ := List.forall_mem_cons.mp hdone
    have hnext := h.writePtr hfirst hdone
    have hend := ih hnext hrest hdones
    rwa [List.append_assoc, List.singleton_append] at hend

/-! ## Opening again -/

/-- The files of a session are found under their paths behind the stripped base name. -/
theorem Session.mem_found_iff {s : DirArchive × FileTree} {ws : List Write}
    (h : Session d B s ws) {found : List Bytes}
    (hfinds : Finds s.2 B (stripped (d ++ [separator])) found) (x : Bytes) :
    x ∈ found ↔ ∃ w ∈ ws, x = stripped (d ++ [separator]) ++ separator :: cStr w.path := by
  have hname : ∀ w : Write,
      (placed w).1.flatMap (separator :: ·) = separator :: cStr w.path := by
    intro w
    rw [← List.nil_append (List.flatMap _ _), ← intercalate_cons_eq_flatMap, placed,
      List.intercalate_cons_of_ne_nil (List.splitOn_ne_nil _ _), List.intercalate_splitOn]
    rfl
  rw [hfinds.mem_iff]
  constructor
  · rintro ⟨r, contents, hnode, hx⟩
    have hmem := mem_of_lastWrite_eq_some ((h.file r contents).mp hnode)
    obtain ⟨w, hw, hplaced⟩ := List.mem_map.mp hmem
    refine ⟨w, hw, ?_⟩
    rw [hx, ← hname w, hplaced]
  · rintro ⟨w, hw, hx⟩
    obtain ⟨contents, hcontents⟩ :=
      exists_lastWrite (List.mem_map_of_mem (List.mem_map_of_mem hw) : (placed w).1 ∈ _)
    exact ⟨_, contents, (h.file _ contents).mpr hcontents, by rw [hx, hname]⟩

/-- Under each written path, the base name reads what was last written to its place. -/
theorem Session.read_eq {s : DirArchive × FileTree} {ws : List Write} (h : Session d B s ws)
    (hzero : 0 ∉ stripped (d ++ [separator])) {a : DirArchive}
    (hname : a.filename = d ++ [separator]) {w : Write} (hw : w ∈ ws) :
    read env a s.2 w.path = .array (lastWrite (ws.map placed) (placed w).1) := by
  obtain ⟨contents, hcontents⟩ :=
    exists_lastWrite (List.mem_map_of_mem (List.mem_map_of_mem hw) : (placed w).1 ∈ _)
  have hnode := (h.file _ contents).mpr hcontents
  have hwalk : s.2.walk B (placed w).1 = some (B ++ (placed w).1) :=
    h.tree.walk_of_node (by rw [hnode]; simp)
  have hlocate : s.2.locate (a.filename ++ w.path) = some (B ++ (placed w).1) := by
    rw [hname, locate_base hzero h.base]
    exact hwalk
  rw [read, lookup, hlocate, Option.bind_some, hnode, hcontents]

/-- The archive lists the paths of a log, each once, and under each of the names in its list it reads
what was last written there. -/
structure Restores (env : DirEnv) (s : DirArchive × FileTree) (log : Store) : Prop where
  nodup : s.1.fileNames.Nodup
  mem_iff : ∀ x, x ∈ s.1.fileNames ↔ x ∈ log.map Prod.fst
  read_eq : ∀ k x, s.1.getItemName k = some x → read env s.1 s.2 x = .array (lastWrite log x)

/-- Paths with the base name in front of them are not the paths themselves: a path of greatest length
would be longer than it is. -/
theorem eq_nil_of_mem_iff {s : Bytes} (hzero : 0 ∉ s) {ws : List Write}
    (h : ∀ x, (∃ w ∈ ws, x = s ++ separator :: cStr w.path) ↔ x ∈ ws.map Write.path) :
    ws = [] := by
  by_contra hne
  have hnonempty : ws.toFinset.Nonempty := by
    rwa [List.toFinset_nonempty_iff]
  obtain ⟨w, hw, hmax⟩ := Finset.exists_max_image ws.toFinset (fun w => w.path.length) hnonempty
  rw [List.mem_toFinset] at hw
  -- The path has no null byte, because it is one of those with the base name in front.
  have hcut : cStr w.path = w.path := by
    obtain ⟨w', -, hpath⟩ := (h w.path).mpr (List.mem_map_of_mem hw)
    rw [hpath]
    refine cStr_eq_self ?_
    rw [List.mem_append, List.mem_cons, not_or, not_or]
    exact ⟨hzero, by decide, zero_not_mem_cStr w'.path⟩
  have hlisted := (h (s ++ separator :: w.path)).mp ⟨w, hw, by rw [hcut]⟩
  obtain ⟨w', hw', hpath⟩ := List.mem_map.mp hlisted
  have hle := hmax w' (List.mem_toFinset.mpr hw')
  simp only [hpath, List.length_append, List.length_cons] at hle
  omega

/-- A directory in which nothing is found has no file below it. -/
theorem no_file_of_search (hfs : fs.Tree) {path : Bytes} (hzero : 0 ∉ path)
    (hopen : fs.opendir path = some B) {fuel : ℕ}
    (hsearch : searchDirectory env fs fuel path [] = some (.ok [])) (r : List Bytes)
    (contents : Bytes) : fs.node (B ++ r) ≠ some (.file contents) := by
  intro hnode
  obtain ⟨found, hfinds, enough, hfound⟩ := exists_searchDirectory env hfs hzero hopen
  -- Both searches are the one with the greater fuel.
  have hnone := searchDirectory_mono (le_max_left fuel enough) hsearch
  rw [hfound _ (le_max_right fuel enough), Option.some.injEq, Except.ok.injEq] at hnone
  have hmem := (hfinds.mem_iff _).mpr ⟨r, contents, hnode, rfl⟩
  rw [hnone] at hmem
  cases hmem

/-- Files are written below a base directory without files, and the directory is opened again. The
search ends, and it lists the written paths with the stripped base name in front of them, each once.
Under the written paths the contents are read, but these are the paths in the list only if nothing
was written. -/
theorem restores_iff (env : DirEnv) {fs₀ fs₁ : FileTree} (hfs : fs₀.Tree) {fuel : ℕ} {d : Bytes}
    {mode : OpenMode} {a : DirArchive}
    (hopen : ofFile env fuel fs₀ (d ++ [separator]) mode = some (.ok (a, fs₁)))
    (hempty : a.fileNames = []) {ws : List Write} (hrelative : ∀ w ∈ ws, Relative w.path)
    (hdone : AllDone env (a, fs₁) ws) (mode' : OpenMode) :
    ∃ enough a', (∀ fuel', enough ≤ fuel' →
        ofFile env fuel' (written env (a, fs₁) ws).2 (d ++ [separator]) mode' =
          some (.ok (a', (written env (a, fs₁) ws).2))) ∧
      a'.fileNames.Nodup ∧
      (∀ x, x ∈ a'.fileNames ↔
        ∃ w ∈ ws, x = stripped (d ++ [separator]) ++ separator :: cStr w.path) ∧
      (∀ w ∈ ws, read env a' (written env (a, fs₁) ws).2 w.path =
        .array (lastWrite (ws.map placed) (placed w).1)) ∧
      (Restores env (a', (written env (a, fs₁) ws).2) (ws.map fun w => (w.path, w.contents)) ↔
        ws = []) := by
  obtain ⟨htree, hname, ⟨B, hbase⟩, hsearch⟩ := ofFile_spec hfs hopen
  rw [hempty] at hsearch
  rcases eq_or_ne ws [] with rfl | hne
  · -- The directory is opened as it was before.
    refine ⟨fuel, ⟨d ++ [separator], mode', [], []⟩, fun fuel' hle => ?_, List.nodup_nil, ?_, ?_,
      ?_⟩
    · rw [show (written env (a, fs₁) []).2 = fs₁ from rfl, ofFile_of_opendir fuel' mode' hbase,
        searchDirectory_mono hle hsearch]
      rfl
    · simp
    · simp
    · refine iff_of_true ⟨List.nodup_nil, by simp, fun k x hk => ?_⟩ rfl
      simp [getItemName] at hk
  · -- Every file that was written is found, under a name with the directory in front of it.
    have hbased : Based d B (a, fs₁) := ⟨htree, hname, hbase⟩
    have hzero : 0 ∉ stripped (d ++ [separator]) := by
      obtain ⟨w, rest, rfl⟩ := List.exists_cons_of_ne_nil hne
      exact hbased.zero_not_mem (hdone _ List.mem_cons_self)
    have hfresh := no_file_of_search htree hzero hbase hsearch
    have hstart : Session d B (a, fs₁) [] := by
      refine ⟨hbased, fun r contents => iff_of_false (hfresh r contents) ?_⟩
      simp
    have hend := hstart.written hrelative hdone
    rw [List.nil_append] at hend
    generalize written env (a, fs₁) ws = s₂ at hend
    obtain ⟨found, hfinds, enough, hfound⟩ := exists_searchDirectory env hend.tree hzero hend.base
    have hmem := hend.mem_found_iff hfinds
    refine ⟨enough, ⟨d ++ [separator], mode', [], found⟩, fun fuel' hle => ?_, hfinds.nodup, hmem,
      fun w hw => hend.read_eq hzero rfl hw, iff_of_false (fun hrestores => hne ?_) hne⟩
    · rw [ofFile_of_opendir fuel' mode' hend.base, hfound fuel' hle]
      rfl
    · refine eq_nil_of_mem_iff hzero fun x => ?_
      rw [← hmem x, hrestores.mem_iff x, List.map_map]
      rfl

/-- A file in a directory below the base directory. -/
theorem nested_restores_iff :
    ∃ enough a', (∀ fuel', enough ≤ fuel' →
        ofFile {} fuel' (written {} (⟨lit "d/", .write, [], []⟩, ⟨[], [([lit "d"], .dir)]⟩)
            [⟨lit "x/a", lit "hi", .noCompress, false⟩]).2 (lit "d" ++ [separator]) .read =
          some (.ok (a', (written {} (⟨lit "d/", .write, [], []⟩, ⟨[], [([lit "d"], .dir)]⟩)
            [⟨lit "x/a", lit "hi", .noCompress, false⟩]).2))) ∧ ¬ Restores {} (a',
        (written {} (⟨lit "d/", .write, [], []⟩, ⟨[], [([lit "d"], .dir)]⟩)
          [⟨lit "x/a", lit "hi", .noCompress, false⟩]).2) [(lit "x/a", lit "hi")] := by
  have hopen : ofFile {} 1 {} (lit "d" ++ [separator]) .write =
      some (.ok (⟨lit "d/", .write, [], []⟩, ⟨[], [([lit "d"], .dir)]⟩)) := by decide +kernel
  have hrelative : ∀ w ∈ [(⟨lit "x/a", lit "hi", .noCompress, false⟩ : Write)],
      Relative w.path := by
    unfold Relative
    decide +kernel
  have hdone : AllDone {} (⟨lit "d/", .write, [], []⟩, ⟨[], [([lit "d"], .dir)]⟩)
      [⟨lit "x/a", lit "hi", .noCompress, false⟩] := by
    unfold AllDone
    decide +kernel
  obtain ⟨enough, a', hreopen, -, -, -, hiff⟩ :=
    restores_iff {} tree_empty hopen rfl hrelative hdone .read
  exact ⟨enough, a', hreopen, fun h => absurd (hiff.mp h) (by simp)⟩

/-- The file `x/a` in `d/` is listed as `d/x/a`, and nothing is read under that name. -/
theorem nested_file_not_restored :
    ∃ a fs₁ a', ofFile {} 1 {} (lit "d/") .write = some (.ok (a, fs₁)) ∧ a.fileNames = [] ∧
      AllDone {} (a, fs₁) [⟨lit "x/a", lit "hi", .noCompress, false⟩] ∧
      ofFile {} 3 (written {} (a, fs₁) [⟨lit "x/a", lit "hi", .noCompress, false⟩]).2 (lit "d/")
          .read =
        some (.ok (a', (written {} (a, fs₁) [⟨lit "x/a", lit "hi", .noCompress, false⟩]).2)) ∧
      a'.fileNames = [lit "d/x/a"] ∧
      read {} a' (written {} (a, fs₁) [⟨lit "x/a", lit "hi", .noCompress, false⟩]).2
        (lit "d/x/a") = .array none ∧
      ¬ Restores {} (a', (written {} (a, fs₁) [⟨lit "x/a", lit "hi", .noCompress, false⟩]).2)
        [(lit "x/a", lit "hi")] := by
  refine ⟨⟨lit "d/", .write, [], []⟩, ⟨[], [([lit "d"], .dir)]⟩,
    ⟨lit "d/", .read, [], [lit "d/x/a"]⟩, by decide +kernel, rfl, ?_, by decide +kernel, rfl,
    by decide +kernel, fun hrestores => ?_⟩
  · unfold AllDone
    decide +kernel
  · have hlisted := (hrestores.mem_iff (lit "d/x/a")).mp List.mem_cons_self
    exact absurd hlisted (by decide +kernel)

end DirArchive

end Libgetar
