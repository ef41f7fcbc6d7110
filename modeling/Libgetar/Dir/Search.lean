import Libgetar.Dir.Model

/-!
# What the search of a directory finds

`searchDirectory` goes through a directory and the ones in it. It finds every file below the directory
once, under the name of the directory that it was started on with the names on the way to the file
behind it (`searchDirectory_spec`): the base directory is part of what is found.

The proof is an induction on the fuel, which has to exceed the depth of the tree below the directory.
In the step the entries of a directory are those of `children` in any order, `.` and `..` apart
(`searchEntries_spec`), and two of them lead to different names because no name on the way contains a
slash (`flatMap_separator_inj`). With more fuel the search ends in the same way
(`searchDirectory_mono`).
-/

namespace Libgetar

open Lib

namespace DirArchive

open FileTree

variable {env : DirEnv} {fs : FileTree} {path : Bytes} {p : List Bytes}

/-- The names on the way to a file can be read off the name that is found for it. -/
theorem flatMap_separator_inj {r r' : List Bytes} (hr : ∀ name ∈ r, separator ∉ name)
    (hr' : ∀ name ∈ r', separator ∉ name)
    (h : r.flatMap (separator :: ·) = r'.flatMap (separator :: ·)) : r = r' := by
  have hsplit : ∀ {r : List Bytes}, (∀ name ∈ r, separator ∉ name) →
      (r.flatMap (separator :: ·)).splitOn separator = [] :: r := by
    intro r hr
    rw [← List.nil_append (r.flatMap _), ← intercalate_cons_eq_flatMap]
    refine List.splitOn_intercalate _ ?_ (by simp)
    intro name hname
    rcases List.mem_cons.mp hname with rfl | hname
    · exact List.not_mem_nil
    · exact hr name hname
  have heq := hsplit hr
  rw [h, hsplit hr', List.cons.injEq] at heq
  exact heq.2.symm

/-- `found` has the files below the place `p`, once each, under their names behind `path`. -/
structure Finds (fs : FileTree) (p : List Bytes) (path : Bytes) (found : List Bytes) : Prop where
  nodup : found.Nodup
  mem_iff : ∀ x, x ∈ found ↔ ∃ r contents, fs.node (p ++ r) = some (.file contents) ∧
    x = path ++ r.flatMap (separator :: ·)

/-- The files that one entry of a directory leads to. -/
structure FindsAt (fs : FileTree) (p : List Bytes) (path name : Bytes) (found : List Bytes) :
    Prop where
  nodup : found.Nodup
  mem_iff : ∀ x, x ∈ found ↔ ∃ r contents, fs.node (p ++ name :: r) = some (.file contents) ∧
    x = path ++ (name :: r).flatMap (separator :: ·)

/-- The entries that the search looks at. -/
def isLookedAt (name : Bytes) : Bool := !(name = lit "." || name = lit "..")

theorem isLookedAt_of_proper {name : Bytes} (h : Proper name) : isLookedAt name = true := by
  rw [isLookedAt, decide_eq_false h.ne_dot, decide_eq_false h.ne_dotdot]
  rfl

/-- What each entry leads to is added behind what was found before. -/
theorem searchEntries_spec (hfs : fs.Tree) (hzero : 0 ∉ path) (hopen : fs.opendir path = some p)
    {search : Bytes → List Bytes → Option (Except Bytes (List Bytes))}
    {below : Bytes → List Bytes}
    (hsearch : ∀ name, fs.node (p ++ [name]) = some .dir →
      ∀ found, search (path ++ separator :: name) found = some (.ok (found ++ below name)))
    (hfile : ∀ name contents, fs.node (p ++ [name]) = some (.file contents) →
      below name = [path ++ separator :: name])
    {entries : List Bytes} (hentries : ∀ name ∈ entries.filter isLookedAt, name ∈ fs.children p)
    (curStat : Option Node) (found : List Bytes) :
    searchEntries search fs path entries curStat found =
      some (.ok (found ++ (entries.filter isLookedAt).flatMap below)) := by
  induction entries generalizing curStat found with
  | nil => rw [searchEntries, List.filter_nil, List.flatMap_nil, List.append_nil]
  | cons name entries ih =>
    rw [searchEntries]
    split
    · -- The entries `.` and `..` are skipped.
      next hdots =>
      have hskip : ¬ isLookedAt name = true := by
        rcases hdots with rfl | rfl
        · decide
        · decide
      rw [List.filter_cons_of_neg hskip] at hentries ⊢
      exact ih hentries curStat found
    · next hdots =>
      rw [not_or] at hdots
      have hlooked : isLookedAt name = true := by
        rw [isLookedAt, decide_eq_false hdots.1, decide_eq_false hdots.2]
        rfl
      rw [List.filter_cons_of_pos hlooked] at hentries ⊢
      obtain ⟨hname, hrest⟩ := List.forall_mem_cons.mp hentries
      have hnode := (mem_children_iff fs p name).mp hname
      have hproper : Proper name := hfs.proper _ hnode name (by simp)
      have hlookup : fs.lookup (path ++ separator :: name) = fs.node (p ++ [name]) := by
        rw [lookup, locate_child hzero hopen hproper]
        rfl
      obtain ⟨node, hnode⟩ := Option.ne_none_iff_exists'.mp hnode
      simp only [hlookup, hnode, Option.some_or, List.flatMap_cons, ← List.append_assoc]
      cases node with
      | dir =>
        rw [hsearch name hnode found]
        exact ih hrest (some .dir) (found ++ below name)
      | file contents =>
        rw [hfile name contents hnode]
        exact ih hrest (some (.file contents)) (found ++ [path ++ separator :: name])

/-- A file in the directory is found under its own name. -/
theorem findsAt_file (hfs : fs.Tree) {name contents : Bytes}
    (hnode : fs.node (p ++ [name]) = some (.file contents)) :
    FindsAt fs p path name [path ++ separator :: name] := by
  refine ⟨List.nodup_singleton _, fun x => ?_⟩
  rw [List.mem_singleton]
  constructor
  · intro hx
    exact ⟨[], contents, hnode, by rw [hx]; simp⟩
  · rintro ⟨r, contents', hr, hx⟩
    rcases eq_or_ne r [] with rfl | hne
    · rw [hx]
      simp
    · -- There is nothing below a file.
      have hdir := hfs.dir_of_append (p ++ [name]) hne (by
        rw [List.append_assoc, List.singleton_append, hr]
        simp)
      rw [hnode] at hdir
      cases hdir

/-- What is found in a directory is found at it. -/
theorem Finds.findsAt {name : Bytes} {found : List Bytes}
    (h : Finds fs (p ++ [name]) (path ++ separator :: name) found) :
    FindsAt fs p path name found := by
  refine ⟨h.nodup, fun x => ?_⟩
  rw [h.mem_iff]
  simp only [List.append_assoc, List.flatMap_cons, List.cons_append, List.nil_append]

/-- What the entries of a directory lead to is what is below the directory. -/
theorem finds_flatMap (hfs : fs.Tree) (hdir : fs.node p = some .dir) {below : Bytes → List Bytes}
    (hbelow : ∀ name ∈ fs.children p, FindsAt fs p path name (below name)) {names : List Bytes}
    (hnames : names.Perm (fs.children p)) : Finds fs p path (names.flatMap below) := by
  have hnodup : names.Nodup := hnames.symm.nodup (List.nodup_dedup _)
  have hmem : ∀ name, name ∈ names ↔ fs.node (p ++ [name]) ≠ none := by
    intro name
    rw [hnames.mem_iff, mem_children_iff]
  constructor
  · refine List.nodup_flatMap.mpr ⟨fun name hname => (hbelow name (hnames.subset hname)).nodup, ?_⟩
    refine hnodup.pairwise_of_forall_ne fun name hname name' hname' hne => ?_
    -- Two entries lead to different names: the first name on the way is that of the entry.
    intro x hx hx'
    obtain ⟨r, contents, hr, hway⟩ := ((hbelow name (hnames.subset hname)).mem_iff x).mp hx
    obtain ⟨r', contents', hr', hway'⟩ := ((hbelow name' (hnames.subset hname')).mem_iff x).mp hx'
    have hproper : ∀ {r contents}, fs.node (p ++ r) = some (.file contents) →
        ∀ name ∈ r, separator ∉ name := by
      intro r contents hr name hmem
      exact (hfs.proper _ (by rw [hr]; simp) name (List.mem_append_right p hmem)).separator_not_mem
    have heq := flatMap_separator_inj (hproper hr) (hproper hr')
      (List.append_cancel_left (hway.symm.trans hway'))
    exact hne (List.cons.inj heq).1
  · intro x
    rw [List.mem_flatMap]
    constructor
    · rintro ⟨name, hname, hx⟩
      obtain ⟨r, contents, hr, hway⟩ := ((hbelow name (hnames.subset hname)).mem_iff x).mp hx
      exact ⟨name :: r, contents, hr, hway⟩
    · rintro ⟨r, contents, hr, hway⟩
      obtain _ | ⟨name, r⟩ := r
      · rw [List.append_nil, hdir] at hr
        cases hr
      · have hname : name ∈ names := by
          rw [hmem]
          rcases eq_or_ne r [] with rfl | hne
          · rw [hr]
            simp
          · rw [hfs.dir_of_append (p ++ [name]) hne (by simp [hr])]
            simp
        exact ⟨name, hname, ((hbelow name (hnames.subset hname)).mem_iff x).mpr
          ⟨r, contents, hr, hway⟩⟩

/-- The entries that are looked at are the nodes in the directory. -/
theorem readdir_filter (env : DirEnv) (hfs : fs.Tree) (p : List Bytes) :
    ((env.readdir fs p).filter isLookedAt).Perm (fs.children p) := by
  have hchildren : (fs.children p).filter isLookedAt = fs.children p := by
    refine List.filter_eq_self.mpr fun name hname => isLookedAt_of_proper ?_
    exact hfs.proper _ ((mem_children_iff fs p name).mp hname) name (by simp)
  have hfilter := (env.readdir_perm fs p).filter isLookedAt
  rwa [List.filter_cons_of_neg (by decide), List.filter_cons_of_neg (by decide),
    hchildren] at hfilter

/-- With more fuel than the tree is deep below the directory, the search finds the files below it. -/
theorem searchDirectory_spec (env : DirEnv) (hfs : fs.Tree) (fuel : ℕ) {path : Bytes}
    {p : List Bytes} (hzero : 0 ∉ path) (hopen : fs.opendir path = some p)
    (hdepth : ∀ r, fs.node (p ++ r) ≠ none → r.length < fuel) :
    ∃ new, Finds fs p path new ∧
      ∀ found, searchDirectory env fs fuel path found = some (.ok (found ++ new)) := by
  induction fuel generalizing path p with
  | zero =>
    obtain ⟨-, hdir⟩ := opendir_eq_some_iff.mp hopen
    have hpos := hdepth [] (by rw [List.append_nil, hdir]; simp)
    exact absurd hpos (Nat.not_lt_zero _)
  | succ fuel ih =>
    obtain ⟨hlocate, hdir⟩ := opendir_eq_some_iff.mp hopen
    -- What every entry leads to, be it a directory or a file.
    have hentry : ∀ name, ∃ new, name ∈ fs.children p → FindsAt fs p path name new ∧
        (fs.node (p ++ [name]) = some .dir → ∀ found,
          searchDirectory env fs fuel (path ++ separator :: name) found =
            some (.ok (found ++ new))) ∧
        ∀ contents, fs.node (p ++ [name]) = some (.file contents) →
          new = [path ++ separator :: name] := by
      intro name
      match hnode : fs.node (p ++ [name]) with
      | none =>
        refine ⟨[], fun hname => absurd hnode ?_⟩
        exact (mem_children_iff fs p name).mp hname
      | some (.file contents) =>
        refine ⟨_, fun _ => ⟨findsAt_file hfs hnode, ?_, fun _ _ => rfl⟩⟩
        intro h
        cases h
      | some .dir =>
        have hproper : Proper name := hfs.proper _ (by rw [hnode]; simp) name (by simp)
        have hzero' : 0 ∉ path ++ separator :: name := by
          rw [List.mem_append, List.mem_cons, not_or, not_or]
          exact ⟨hzero, by decide, hproper.zero_not_mem⟩
        have hopen' : fs.opendir (path ++ separator :: name) = some (p ++ [name]) :=
          opendir_eq_some_iff.mpr ⟨locate_child hzero hopen hproper, hnode⟩
        obtain ⟨new, hnew, hsearch⟩ := ih hzero' hopen' fun r hr => by
          have hlt := hdepth (name :: r) (by
            rwa [List.append_assoc, List.singleton_append] at hr)
          rw [List.length_cons] at hlt
          omega
        refine ⟨new, fun _ => ⟨hnew.findsAt, fun _ => hsearch, fun contents h => ?_⟩⟩
        cases h
    choose below hbelow using hentry
    have hperm := readdir_filter env hfs p
    refine ⟨((env.readdir fs p).filter isLookedAt).flatMap below,
      finds_flatMap hfs hdir (fun name hname => (hbelow name hname).1) hperm, fun found => ?_⟩
    simp only [searchDirectory, hopen]
    have hchild : ∀ name node, fs.node (p ++ [name]) = some node → name ∈ fs.children p := by
      intro name node hnode
      rw [mem_children_iff, hnode]
      simp
    exact searchEntries_spec hfs hzero hopen
      (fun name hnode => (hbelow name (hchild name _ hnode)).2.1 hnode)
      (fun name contents hnode => (hbelow name (hchild name _ hnode)).2.2 contents hnode)
      (fun name hname => hperm.subset hname) _ found

/-- A loop over the entries that ends in some way ends so with a better search too. -/
theorem searchEntries_mono {search search' : Bytes → List Bytes → Option (Except Bytes (List Bytes))}
    (hsearch : ∀ path found result, search path found = some result →
      search' path found = some result) {entries : List Bytes} {curStat : Option Node}
    {found : List Bytes} {result : Except Bytes (List Bytes)}
    (h : searchEntries search fs path entries curStat found = some result) :
    searchEntries search' fs path entries curStat found = some result := by
  induction entries generalizing curStat found with
  | nil => exact h
  | cons name entries ih =>
    rw [searchEntries] at h ⊢
    split
    · next hdots =>
      rw [if_pos hdots] at h
      exact ih h
    · next hdots =>
      rw [if_neg hdots] at h
      simp only at h ⊢
      split at h
      · next hstat =>
        split at h
        · next found' hfound =>
          rw [hsearch _ _ _ hfound]
          exact ih h
        · next hother =>
          rw [hsearch _ _ _ h]
          split
          · next found' heq =>
            rw [h] at hother
            exact absurd heq (hother found')
          · rfl
      · exact ih h
      · exact ih h

/-- A search that ends in some way ends so with more fuel too. -/
theorem searchDirectory_mono {fuel fuel' : ℕ} (hle : fuel ≤ fuel') {found : List Bytes}
    {result : Except Bytes (List Bytes)}
    (h : searchDirectory env fs fuel path found = some result) :
    searchDirectory env fs fuel' path found = some result := by
  induction fuel generalizing fuel' path found result with
  | zero => cases h
  | succ fuel ih =>
    obtain ⟨fuel', rfl⟩ := Nat.exists_eq_succ_of_ne_zero (show fuel' ≠ 0 by omega)
    rw [searchDirectory] at h ⊢
    split
    · next hopen => rwa [hopen] at h
    · next p hopen =>
      rw [hopen] at h
      exact searchEntries_mono (fun _ _ _ => ih (by omega)) h

/-- With enough fuel, a search finds the files below its directory. -/
theorem exists_searchDirectory (env : DirEnv) (hfs : fs.Tree) (hzero : 0 ∉ path)
    (hopen : fs.opendir path = some p) :
    ∃ found, Finds fs p path found ∧ ∃ enough, ∀ fuel, enough ≤ fuel →
      searchDirectory env fs fuel path [] = some (.ok found) := by
  obtain ⟨depth, hdepth⟩ := fs.exists_depth
  obtain ⟨found, hfinds, hsearch⟩ := searchDirectory_spec env hfs depth hzero hopen fun r hr => by
    have hlt := hdepth (p ++ r) hr
    rw [List.length_append] at hlt
    omega
  exact ⟨found, hfinds, depth, fun fuel hle => searchDirectory_mono hle (hsearch [])⟩

end DirArchive

end Libgetar
