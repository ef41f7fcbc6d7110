import Libgetar.Dir.Reopen

/-!
# The calls of a directory

Two plain paths cannot both be files of a directory when the one leads through the other. So a
directory is a store that refuses a write whose path crosses one that was taken (`Crosses`), and it
has nodes where its log says (`nodeOf`): a file at each path that was taken, and directories on the
way to it.

`writePtr` creates directories before it knows whether the file can be opened, and it does not create
those again that it remembers. Neither can be seen. A write is refused because there is a file on its
way or a directory in its place, and then the directories on its way were there already, as far as
there can be any (`Passed`). What is remembered stays that way, because no node is ever removed.

`session_as_store` is the result over every run: the answers, except to reads of directories, the list
of file names and the nodes below the base directory are those of the log, and the nodes elsewhere are
left alone.
-/

namespace Libgetar

open Lib

/-- The path that a call is about. -/
def Call.path : Call → Bytes
  | .writePtr w => w.path
  | .read path => path

/-- How a call ends, without the text that an error of the system has. -/
def Answer.untold : Answer → Answer
  | .threw _ => .threw []
  | answer => answer

namespace DirArchive

open FileTree

variable {env : DirEnv} {fs fs' : FileTree} {d : Bytes} {B r q : List Bytes} {path : Bytes}
  {log : Store}

/-! ## Plain paths -/

/-- The names on the way to a file. -/
def segments (path : Bytes) : List Bytes := path.splitOn separator

/-- A relative path without a null byte. -/
def Plain (path : Bytes) : Prop := Relative path ∧ 0 ∉ path

theorem segments_ne_nil (path : Bytes) : segments path ≠ [] := List.splitOn_ne_nil _ _

theorem segments_intercalate (hr : ∀ name ∈ r, Proper name) (hne : r ≠ []) :
    segments ([separator].intercalate r) = r :=
  List.splitOn_intercalate _ (fun name hname => (hr name hname).separator_not_mem) hne

/-- All the names in a plain path are proper. -/
theorem Plain.proper (h : Plain path) : ∀ name ∈ segments path, Proper name := by
  intro name hname
  obtain ⟨hnil, hdot, hdotdot⟩ := h.1 name hname
  refine ⟨hnil, hdot, hdotdot, not_mem_of_mem_splitOn hname, fun hzero => ?_⟩
  exact h.2 (mem_of_mem_splitOn hname hzero)

/-- What is on the way from the base directory to a place is on the way to the places behind it. -/
theorem zero_not_mem_intercalate (hr : ∀ name ∈ r, Proper name) :
    0 ∉ [separator].intercalate r := by
  induction r with
  | nil => simp
  | cons name r ih =>
    obtain ⟨hname, hrest⟩ := List.forall_mem_cons.mp hr
    rcases eq_or_ne r [] with rfl | hne
    · simpa using hname.zero_not_mem
    · rw [List.intercalate_cons_of_ne_nil hne, List.mem_append, List.mem_append, not_or, not_or]
      exact ⟨⟨hname.zero_not_mem, by decide⟩, ih hrest⟩

/-- A base name without a null byte. -/
theorem zero_not_mem_base (hd : 0 ∉ stripped (d ++ [separator])) : 0 ∉ d ++ [separator] := by
  obtain ⟨k, hk⟩ := exists_base_eq d
  rw [hk, List.mem_append, List.mem_cons, List.mem_replicate, not_or, not_or]
  exact ⟨hd, by decide, fun h => absurd h.2 (by decide)⟩

/-- A file name that ends in a proper name is what `mkdir` looks for. -/
theorem rdropWhile_base (hd : 0 ∉ stripped (d ++ [separator])) {done : List Bytes} {name : Bytes}
    (hr : ∀ n ∈ done ++ [name], Proper n) :
    (cStr (d ++ [separator] ++ [separator].intercalate (done ++ [name]))).rdropWhile
      (· == separator) = d ++ [separator] ++ [separator].intercalate (done ++ [name]) := by
  have hzero : 0 ∉ d ++ [separator] ++ [separator].intercalate (done ++ [name]) := by
    rw [List.mem_append, not_or]
    exact ⟨zero_not_mem_base hd, zero_not_mem_intercalate hr⟩
  have hname : Proper name := hr name (by simp)
  rw [cStr_eq_self hzero, List.rdropWhile_eq_self_iff, intercalate_concat_eq_flatMap]
  intro hne
  rw [List.getLast_append_of_ne_nil _ (by simp [hname.ne_nil]),
    List.getLast_append_of_ne_nil _ hname.ne_nil, beq_iff_eq]
  intro hlast
  exact hname.separator_not_mem (hlast ▸ List.getLast_mem hname.ne_nil)

/-- Where a file name behind the base name leads. -/
theorem locate_intercalate (hd : 0 ∉ stripped (d ++ [separator]))
    (hopen : fs.opendir (stripped (d ++ [separator])) = some B) (hr : ∀ name ∈ r, Proper name)
    (hne : r ≠ []) : fs.locate (d ++ [separator] ++ [separator].intercalate r) = fs.walk B r := by
  rw [locate_base hd hopen, cStr_eq_self (zero_not_mem_intercalate hr)]
  exact congrArg _ (segments_intercalate hr hne)

/-- A plain path stands for its place below the base directory. -/
theorem lookup_plain (hfs : fs.Tree) (hd : 0 ∉ stripped (d ++ [separator]))
    (hopen : fs.opendir (stripped (d ++ [separator])) = some B) (hplain : Plain path) :
    fs.lookup (d ++ [separator] ++ path) = fs.node (B ++ segments path) := by
  rw [lookup, locate_base hd hopen, cStr_eq_self hplain.2]
  change (fs.walk B (segments path)).bind fs.node = _
  by_cases hnode : fs.node (B ++ segments path) = none
  · rw [hnode, Option.bind_eq_none_iff]
    intro q hwalk
    rw [eq_append_of_walk hplain.proper hwalk, hnode]
  · rw [hfs.walk_of_node hnode, Option.bind_some]

/-! ## The directories on the way -/

/-- `mkdir` is of no use at the place `r` any more: it is a directory, or there is a file on the way. -/
def Passed (fs : FileTree) (B r : List Bytes) : Prop :=
  fs.node (B ++ r) = some .dir ∨ ∃ q contents, q <+: r ∧ fs.node (B ++ q) = some (.file contents)

/-- Directories stay, and files stay files. -/
theorem Passed.mono (h : Passed fs B r)
    (hdir : ∀ p, fs.node p = some .dir → fs'.node p = some .dir)
    (hfile : ∀ p contents, fs.node p = some (.file contents) →
      ∃ contents', fs'.node p = some (.file contents')) : Passed fs' B r := by
  rcases h with hnode | ⟨q, contents, hq, hnode⟩
  · exact Or.inl (hdir _ hnode)
  · obtain ⟨contents', hnode'⟩ := hfile _ contents hnode
    exact Or.inr ⟨q, contents', hq, hnode'⟩

theorem Passed.deeper (h : Passed fs B r) (hdeeper : fs.Deeper fs') : Passed fs' B r :=
  h.mono hdeeper.dir fun p contents hnode => ⟨contents, (hdeeper.file p contents).mpr hnode⟩

/-- Making a directory behind those that were made. -/
theorem mkdir_spec (hd : 0 ∉ stripped (d ++ [separator]))
    (hopen : fs.opendir (stripped (d ++ [separator])) = some B) {done : List Bytes} {name : Bytes}
    (hr : ∀ n ∈ done ++ [name], Proper n) (hpassed : ∀ q, q <+: done → Passed fs B q) :
    Passed (fs.mkdir (d ++ [separator] ++ [separator].intercalate (done ++ [name]))) B
        (done ++ [name]) ∧
      ∀ p, p ≠ B ++ (done ++ [name]) →
        (fs.mkdir (d ++ [separator] ++ [separator].intercalate (done ++ [name]))).node p =
          fs.node p := by
  have hplace : B ++ (done ++ [name]) ≠ [] := by simp
  rw [mkdir, rdropWhile_base hd hr, locate_intercalate hd hopen hr (by simp)]
  by_cases hfile : ∃ q contents, q <+: done ∧ fs.node (B ++ q) = some (.file contents)
  · -- There is a file on the way.
    obtain ⟨q, contents, hq, hnode⟩ := hfile
    have hlonger : q ≠ done ++ [name] := by
      rintro rfl
      have hle := hq.length_le
      rw [List.length_append, List.length_singleton] at hle
      omega
    have hbehind : q <+: done ++ [name] := hq.trans (List.prefix_append _ _)
    rw [walk_eq_none hr hbehind hlonger (by rw [hnode]; simp)]
    exact ⟨Or.inr ⟨q, contents, hbehind, hnode⟩, fun _ _ => rfl⟩
  · -- There are directories on the way.
    have hdirs : ∀ q, q <+: done ++ [name] → q ≠ done ++ [name] → fs.node (B ++ q) = some .dir := by
      intro q hq hne
      have hq' := (List.prefix_concat_iff.mp hq).resolve_left hne
      rcases hpassed q hq' with hnode | ⟨q', contents, hq'', hnode⟩
      · exact hnode
      · exact absurd ⟨q', contents, hq''.trans hq', hnode⟩ hfile
    rw [walk_of_dirs hr hdirs]
    dsimp only
    split
    · refine ⟨Or.inl ?_, fun p hp => ?_⟩
      · rw [node_make fs hplace, if_pos rfl]
      · rw [node_make fs hplace, if_neg hp]
    · next hnode =>
      refine ⟨?_, fun _ _ => rfl⟩
      obtain ⟨node, hsome⟩ := Option.ne_none_iff_exists'.mp hnode
      cases node with
      | dir => exact Or.inl hsome
      | file contents => exact Or.inr ⟨_, contents, List.prefix_rfl, hsome⟩

/-- The loop over the slashes, as an induction over the names on the way. -/
theorem createParents_induct {P : List Bytes → DirArchive × FileTree → Prop}
    (hstep : ∀ done name s, done ++ [name] <+: (segments path).dropLast → P done s →
      P (done ++ [name]) (createParent s ([separator].intercalate (done ++ [name]))))
    {s : DirArchive × FileTree} (hs : P [] s) :
    P (segments path).dropLast (createParents path (path.length + 1) 0 s) := by
  -- `done` are the names in front of `pos`, and `todo` the ones behind it.
  have hloop : ∀ (todo done : List Bytes) (s : DirArchive × FileTree) (fuel : ℕ),
      segments path = done ++ todo → todo ≠ [] → todo.length ≤ fuel → P done s →
      P (segments path).dropLast
        (createParents path fuel (done.flatMap (· ++ [separator])).length s) := by
    intro todo
    induction todo with
    | nil => exact fun _ _ _ _ hne => absurd rfl hne
    | cons name todo ih =>
      intro done s fuel hsplit _ hfuel hdone
      obtain ⟨fuel, rfl⟩ := Nat.exists_eq_succ_of_ne_zero (show fuel ≠ 0 by
        rintro rfl
        simp at hfuel)
      have hname : separator ∉ name :=
        not_mem_of_mem_splitOn (s := path) (show name ∈ segments path by simp [hsplit])
      have hpath : path = [separator].intercalate (done ++ name :: todo) := by
        rw [← hsplit]
        exact (List.intercalate_splitOn separator).symm
      rw [createParents]
      rcases eq_or_ne todo [] with rfl | hne
      · -- The last name has no slash behind it.
        rw [intercalate_concat_eq_flatMap] at hpath
        have hfind := find_append_eq_none (done.flatMap (· ++ [separator])) hname
        rw [← hpath] at hfind
        rw [hfind, hsplit, List.dropLast_concat]
        exact hdone
      · -- The directory of the names up to this one is created.
        have hcut : path = done.flatMap (· ++ [separator]) ++
            (name ++ separator :: [separator].intercalate todo) := by
          rw [hpath, intercalate_append_eq_flatMap separator done (by simp),
            List.intercalate_cons_of_ne_nil hne, List.append_assoc, List.singleton_append]
        have hfind := find_append_cons (done.flatMap (· ++ [separator])) hname
          ([separator].intercalate todo)
        rw [← hcut] at hfind
        have hfront : substr path 0 ((done.flatMap (· ++ [separator])).length + name.length) =
            [separator].intercalate (done ++ [name]) := by
          rw [intercalate_concat_eq_flatMap, substr, List.drop_zero, hcut, ← List.append_assoc,
            ← List.length_append, List.take_left]
        have hbehind : (done.flatMap (· ++ [separator])).length + name.length + 1 =
            ((done ++ [name]).flatMap (· ++ [separator])).length := by simp [Nat.add_assoc]
        rw [hfind]
        dsimp only
        rw [hfront, hbehind]
        refine ih (done ++ [name]) _ fuel (by rw [hsplit]; simp) hne ?_ (hstep done name s ?_ hdone)
        · rw [List.length_cons] at hfuel
          omega
        · rw [hsplit, List.dropLast_append_of_ne_nil (by simp),
            List.dropLast_cons_of_ne_nil hne, List.append_cons done name todo.dropLast]
          exact List.prefix_append _ _
  refine hloop (segments path) [] s (path.length + 1) rfl (segments_ne_nil path) ?_ hs
  rw [segments, length_splitOn]
  exact Nat.succ_le_succ List.count_le_length

/-! ## Creating the directories -/

/-- What is seen of an archive after some directories below its base were created. -/
structure Climbed (d : Bytes) (B : List Bytes) (s : DirArchive × FileTree) (done : List Bytes)
    (s' : DirArchive × FileTree) : Prop extends Based d B s' where
  mode : s'.1.mode = s.1.mode
  fileNames : s'.1.fileNames = s.1.fileNames
  deeper : s.2.Deeper s'.2
  dir : ∀ q, s'.2.node (B ++ q) = some .dir → s.2.node (B ++ q) = some .dir ∨ q <+: done
  outside : ∀ p, ¬ B <+: p → s'.2.node p = s.2.node p
  passed : ∀ q, q <+: done → Passed s'.2 B q
  cached : ∀ c ∈ s'.1.createdDirectories, Passed s'.2 B (segments c)

variable {s s' : DirArchive × FileTree} {done : List Bytes} {name : Bytes}

/-- One directory more. -/
theorem Climbed.createParent (hd : 0 ∉ stripped (d ++ [separator])) (h : Climbed d B s done s')
    (hr : ∀ n ∈ done ++ [name], Proper n) :
    Climbed d B s (done ++ [name])
      (createParent s' ([separator].intercalate (done ++ [name]))) := by
  have hback := segments_intercalate hr (by simp)
  rw [DirArchive.createParent]
  split
  · -- The archive remembers the directory.
    next hmem =>
    have hpassed := h.cached _ hmem
    rw [hback] at hpassed
    refine ⟨h.toBased, h.mode, h.fileNames, h.deeper, fun q hq => ?_, h.outside, fun q hq => ?_,
      h.cached⟩
    · exact (h.dir q hq).imp_right fun hfront => hfront.trans (List.prefix_append _ _)
    · rcases List.prefix_concat_iff.mp hq with rfl | hq
      · exact hpassed
      · exact h.passed q hq
  · obtain ⟨htree, hdeeper⟩ := h.tree.mkdir (d ++ [separator] ++ [separator].intercalate (done ++ [name]))
    obtain ⟨hnew, hother⟩ := mkdir_spec hd h.base hr h.passed
    rw [h.filename]
    refine ⟨⟨htree, h.filename, hdeeper.toGrown.opendir h.base⟩, h.mode, h.fileNames,
      h.deeper.trans hdeeper, fun q hq => ?_, fun p hp => ?_, fun q hq => ?_, fun c hc => ?_⟩
    · by_cases hplace : q = done ++ [name]
      · exact Or.inr (hplace ▸ List.prefix_rfl)
      · rw [hother _ (by simpa using hplace)] at hq
        exact (h.dir q hq).imp_right fun hfront => hfront.trans (List.prefix_append _ _)
    · rw [hother p (by rintro rfl; exact hp (List.prefix_append _ _)), h.outside p hp]
    · rcases List.prefix_concat_iff.mp hq with rfl | hq
      · exact hnew
      · exact (h.passed q hq).deeper hdeeper
    · rcases List.mem_cons.mp hc with rfl | hc
      · rw [hback]
        exact hnew
      · exact (h.cached c hc).deeper hdeeper

/-- The directories on the way to a plain path. -/
theorem climbed_createParents (hd : 0 ∉ stripped (d ++ [separator])) (h : Based d B s)
    (hcached : ∀ c ∈ s.1.createdDirectories, Passed s.2 B (segments c)) (hplain : Plain path) :
    Climbed d B s (segments path).dropLast (createParents path (path.length + 1) 0 s) := by
  refine createParents_induct (fun done name s' hfront hclimbed => ?_) ?_
  · refine hclimbed.createParent hd fun n hn => hplain.proper n ?_
    exact List.mem_of_mem_dropLast (hfront.subset hn)
  · have hbase := (opendir_eq_some_iff.mp h.base).2
    refine ⟨h, rfl, rfl, Deeper.refl _, fun q hq => Or.inl hq, fun _ _ => rfl, fun q hq => ?_,
      hcached⟩
    rw [List.prefix_nil.mp hq]
    exact Or.inl (by rwa [List.append_nil])

/-- Without a file on the way, the directories are those that were there and the ones on the way. -/
theorem Climbed.node_eq (h : Climbed d B s done s')
    (hway : ∀ q, q <+: done → ∀ contents, s.2.node (B ++ q) ≠ some (.file contents)) (q : List Bytes) :
    s'.2.node (B ++ q) = if q <+: done then some .dir else s.2.node (B ++ q) := by
  split
  · next hq =>
    rcases h.passed q hq with hdir | ⟨q', contents, hq', hfile⟩
    · exact hdir
    · exact absurd ((h.deeper.file _ _).mp hfile) (hway q' (hq'.trans hq) contents)
  · next hq =>
    refine Option.ext fun node => ?_
    cases node with
    | dir => exact ⟨fun hdir => (h.dir q hdir).resolve_right hq, h.deeper.dir _⟩
    | file contents => exact h.deeper.file _ contents

/-- With a node behind the places on the way, nothing was created. -/
theorem Climbed.node_eq_self (h : Climbed d B s done s')
    (hway : ∀ q, q <+: done → s'.2.node (B ++ q) = some .dir → s.2.node (B ++ q) = some .dir)
    (q : List Bytes) : s'.2.node (B ++ q) = s.2.node (B ++ q) := by
  refine Option.ext fun node => ?_
  cases node with
  | dir => exact ⟨fun hdir => (h.dir q hdir).elim id fun hq => hway q hq hdir, h.deeper.dir _⟩
  | file contents => exact h.deeper.file _ contents

/-! ## The store of a directory -/

/-- The one place is on the way to the other. -/
def Crosses (r r' : List Bytes) : Prop := r ≠ r' ∧ (r <+: r' ∨ r' <+: r)

instance (r r' : List Bytes) : Decidable (Crosses r r') :=
  inferInstanceAs (Decidable (r ≠ r' ∧ (r <+: r' ∨ r' <+: r)))

/-- The node that a log has at a place below the base directory. -/
def nodeOf (log : Store) (r : List Bytes) : Option Node :=
  if r = [] ∨ ∃ e ∈ log, r <+: segments e.1 ∧ r ≠ segments e.1 then some .dir
  else (lastWrite (log.map fun e => (segments e.1, e.2)) r).map .file

/-- One call of the store. -/
def logStep (log : Store) : Call → Store × Answer
  | .writePtr w =>
    if ∃ e ∈ log, Crosses (segments e.1) (segments w.path) then (log, .threw [])
    else (log ++ [(w.path, w.contents)], .done)
  | .read path => (log, .array (lastWrite log path))

/-- The path is that of a directory: it is on the way to a file. -/
def OnTheWay (log : Store) (path : Bytes) : Prop :=
  ∃ e ∈ log, segments path <+: segments e.1 ∧ segments path ≠ segments e.1

instance (log : Store) (path : Bytes) : Decidable (OnTheWay log path) :=
  inferInstanceAs (Decidable (∃ e ∈ log, segments path <+: segments e.1 ∧ segments path ≠ segments e.1))

/-- The call reads a directory. -/
def ReadsDirectory (log : Store) : Call → Prop
  | .writePtr _ => False
  | .read path => OnTheWay log path

theorem segments_injective : Function.Injective segments := fun path path' h => by
  have hjoined := congrArg ([separator].intercalate) h
  rwa [segments, segments, List.intercalate_splitOn, List.intercalate_splitOn] at hjoined

/-- The places on the way to a file. -/
theorem prefix_dropLast_iff (hr : r ≠ []) : q <+: r.dropLast ↔ q <+: r ∧ q ≠ r := by
  obtain ⟨init, name, rfl⟩ : ∃ init name, r = init ++ [name] :=
    ⟨_, _, (List.dropLast_append_getLast hr).symm⟩
  rw [List.dropLast_concat, List.prefix_concat_iff]
  constructor
  · intro hq
    refine ⟨Or.inr hq, ?_⟩
    rintro rfl
    have hle := hq.length_le
    rw [List.length_append, List.length_singleton] at hle
    omega
  · rintro ⟨hq, hne⟩
    exact hq.resolve_left hne

/-- One more file. -/
theorem nodeOf_concat {contents : Bytes}
    (hcross : ¬ ∃ e ∈ log, Crosses (segments e.1) (segments path)) (q : List Bytes) :
    nodeOf (log ++ [(path, contents)]) q =
      if q = segments path then some (.file contents)
      else if q <+: (segments path).dropLast then some .dir else nodeOf log q := by
  have hlast : lastWrite ((log ++ [(path, contents)]).map fun e => (segments e.1, e.2)) q =
      if q = segments path then some contents
      else lastWrite (log.map fun e => (segments e.1, e.2)) q := by
    rw [List.map_append, List.map_singleton, lastWrite_concat]
  have hdrop : q <+: (segments path).dropLast ↔ q <+: segments path ∧ q ≠ segments path :=
    prefix_dropLast_iff (segments_ne_nil path)
  unfold nodeOf
  rw [hlast]
  by_cases hq : q = segments path
  · -- A path that does not cross the others is not on the way to one of them.
    subst hq
    rw [if_pos rfl, if_pos rfl, if_neg]
    · rfl
    · rintro (hnil | ⟨e, he, hfront, hne⟩)
      · exact segments_ne_nil path hnil
      · rcases List.mem_append.mp he with he | he
        · exact hcross ⟨e, he, hne.symm, Or.inr hfront⟩
        · rw [List.mem_singleton.mp he] at hne
          exact hne rfl
  · rw [if_neg hq, if_neg hq]
    by_cases hway : q <+: segments path
    · rw [if_pos (hdrop.mpr ⟨hway, hq⟩), if_pos]
      exact Or.inr ⟨_, List.mem_append_right _ List.mem_cons_self, hway, hq⟩
    · rw [if_neg fun h => hway (hdrop.mp h).1]
      refine if_congr (or_congr_right ?_) rfl rfl
      constructor
      · rintro ⟨e, he, hfront⟩
        rcases List.mem_append.mp he with he | he
        · exact ⟨e, he, hfront⟩
        · rw [List.mem_singleton.mp he] at hfront
          exact absurd hfront.1 hway
      · rintro ⟨e, he, hfront⟩
        exact ⟨e, List.mem_append_left _ he, hfront⟩

/-! ## An archive and its store -/

/-- A directory that is written to is a store. -/
structure Live (d : Bytes) (B : List Bytes) (fs₀ : FileTree) (s : DirArchive × FileTree)
    (log : Store) : Prop extends Based d B s where
  mode : s.1.mode ≠ .read
  fileNames : s.1.fileNames = log.map Prod.fst
  node : ∀ r, s.2.node (B ++ r) = nodeOf log r
  file : ∀ e ∈ log, ∃ contents, s.2.node (B ++ segments e.1) = some (.file contents)
  outside : ∀ p, ¬ B <+: p → s.2.node p = fs₀.node p
  cached : ∀ c ∈ s.1.createdDirectories, Passed s.2 B (segments c)

variable {fs₀ : FileTree}

/-- A file of the tree is in the log. -/
theorem Live.mem_of_file (h : Live d B fs₀ s log) {contents : Bytes}
    (hnode : s.2.node (B ++ r) = some (.file contents)) : ∃ e ∈ log, segments e.1 = r := by
  rw [h.node, nodeOf] at hnode
  split at hnode
  · cases hnode
  · obtain ⟨contents', hlast, -⟩ := Option.map_eq_some_iff.mp hnode
    obtain ⟨e, he, heq⟩ := List.mem_map.mp (mem_of_lastWrite_eq_some hlast)
    exact ⟨e, he, (Prod.mk.inj heq).1⟩

/-- A path crosses one that was taken if there is a file on its way, or a directory in its place. -/
theorem Live.crosses_iff (h : Live d B fs₀ s log) (path : Bytes) :
    (∃ e ∈ log, Crosses (segments e.1) (segments path)) ↔
      (∃ q contents, q <+: (segments path).dropLast ∧ s.2.node (B ++ q) = some (.file contents)) ∨
        s.2.node (B ++ segments path) = some .dir := by
  constructor
  · rintro ⟨e, he, hne, hfront⟩
    obtain ⟨contents, hfile⟩ := h.file e he
    rcases hfront with hfront | ⟨behind, hbehind⟩
    · exact Or.inl
        ⟨_, contents, (prefix_dropLast_iff (segments_ne_nil path)).mpr ⟨hfront, hne⟩, hfile⟩
    · refine Or.inr (h.tree.dir_of_append _ (r := behind) ?_ ?_)
      · rintro rfl
        exact hne (by rw [← hbehind, List.append_nil])
      · rw [List.append_assoc, hbehind, hfile]
        simp
  · rintro (⟨q, contents, hq, hfile⟩ | hdir)
    · obtain ⟨e, he, rfl⟩ := h.mem_of_file hfile
      obtain ⟨hfront, hne⟩ := (prefix_dropLast_iff (segments_ne_nil path)).mp hq
      exact ⟨e, he, hne, Or.inl hfront⟩
    · rw [h.node, nodeOf] at hdir
      split at hdir
      · next hway =>
        obtain ⟨e, he, hfront, hne⟩ := hway.resolve_left (segments_ne_nil path)
        exact ⟨e, he, hne.symm, Or.inr hfront⟩
      · simp at hdir

/-- A read of a path that is not on the way to a file. -/
theorem Live.read (hd : 0 ∉ stripped (d ++ [separator])) (h : Live d B fs₀ s log)
    (hplain : Plain path) (hfile : ¬OnTheWay log path) :
    read env s.1 s.2 path = .array (lastWrite log path) := by
  have hnode : nodeOf log (segments path) = (lastWrite log path).map .file := by
    unfold OnTheWay at hfile
    rw [nodeOf, if_neg (not_or.mpr ⟨segments_ne_nil path, hfile⟩),
      lastWrite_map_key_injective segments_injective]
  rw [DirArchive.read, h.filename, lookup_plain h.tree hd h.base hplain, h.node, hnode]
  cases lastWrite log path
  all_goals rfl

/-- The file of a plain path is opened behind its directories if nothing is in its way. -/
theorem Climbed.locate (hd : 0 ∉ stripped (d ++ [separator])) (hplain : Plain path)
    (h : Climbed d B s (segments path).dropLast s')
    (hway : ∀ q, q <+: (segments path).dropLast →
      ∀ contents, s.2.node (B ++ q) ≠ some (.file contents)) :
    s'.2.locate (d ++ [separator] ++ path) = some (B ++ segments path) := by
  rw [locate_base hd h.base, cStr_eq_self hplain.2]
  refine walk_of_dirs hplain.proper fun q hq hne => ?_
  rw [h.node_eq hway, if_pos ((prefix_dropLast_iff (segments_ne_nil path)).mpr ⟨hq, hne⟩)]

/-- With a file on its way it is not. -/
theorem Climbed.locate_eq_none (hd : 0 ∉ stripped (d ++ [separator])) (hplain : Plain path)
    (h : Climbed d B s (segments path).dropLast s') (hq : q <+: (segments path).dropLast)
    {contents : Bytes} (hfile : s.2.node (B ++ q) = some (.file contents)) :
    s'.2.locate (d ++ [separator] ++ path) = none := by
  obtain ⟨hfront, hne⟩ := (prefix_dropLast_iff (segments_ne_nil path)).mp hq
  rw [locate_base hd h.base, cStr_eq_self hplain.2]
  refine walk_eq_none hplain.proper hfront hne ?_
  rw [(h.deeper.file _ _).mpr hfile]
  simp

/-- A write whose path crosses one that was taken. -/
theorem Live.refuse (hd : 0 ∉ stripped (d ++ [separator])) (hplain : Plain path)
    (h : Live d B fs₀ s log) (hclimbed : Climbed d B s (segments path).dropLast s')
    (hcross : ∃ e ∈ log, Crosses (segments e.1) (segments path)) (contents : Bytes) :
    s'.2.writeFile (d ++ [separator] ++ path) contents = none ∧ Live d B fs₀ s' log := by
  have hseg := segments_ne_nil path
  -- Every directory on the way that is there now was there before.
  have hknown : s'.2.writeFile (d ++ [separator] ++ path) contents = none ∧
      ∀ q, q <+: (segments path).dropLast → s'.2.node (B ++ q) = some .dir →
        s.2.node (B ++ q) = some .dir := by
    by_cases hfile : ∃ q contents, q <+: (segments path).dropLast ∧
        s.2.node (B ++ q) = some (.file contents)
    · obtain ⟨q₀, contents₀, hq₀, hfile⟩ := hfile
      refine ⟨by rw [writeFile, hclimbed.locate_eq_none hd hplain hq₀ hfile], fun q hq hdir => ?_⟩
      have hfile' := (hclimbed.deeper.file _ _).mpr hfile
      rcases List.prefix_or_prefix_of_prefix hq hq₀ with ⟨behind, rfl⟩ | ⟨behind, rfl⟩
      · rcases eq_or_ne behind [] with rfl | hne
        · rw [List.append_nil, hdir] at hfile'
          cases hfile'
        · rw [← List.append_assoc] at hfile
          exact h.tree.dir_of_append _ hne (by rw [hfile]; simp)
      · rcases eq_or_ne behind [] with rfl | hne
        · rw [List.append_nil, hfile'] at hdir
          cases hdir
        · rw [← List.append_assoc] at hdir
          have habove := hclimbed.tree.dir_of_append _ hne (by rw [hdir]; simp)
          rw [habove] at hfile'
          cases hfile'
    · have hdir := ((h.crosses_iff path).mp hcross).resolve_left hfile
      have hway : ∀ q, q <+: (segments path).dropLast →
          ∀ contents, s.2.node (B ++ q) ≠ some (.file contents) := by
        intro q hq contents hnode
        exact hfile ⟨q, contents, hq, hnode⟩
      refine ⟨?_, fun q hq _ => ?_⟩
      · rw [writeFile, hclimbed.locate hd hplain hway]
        exact if_pos (hclimbed.deeper.dir _ hdir)
      · obtain ⟨⟨behind, hbehind⟩, hne⟩ := (prefix_dropLast_iff hseg).mp hq
        rw [← hbehind, ← List.append_assoc] at hdir
        refine h.tree.dir_of_append _ ?_ (by rw [hdir]; simp)
        rintro rfl
        exact hne (by rw [← hbehind, List.append_nil])
  obtain ⟨hnone, hway⟩ := hknown
  refine ⟨hnone, hclimbed.toBased, ?_, ?_, fun r => ?_, fun e he => ?_, fun p hp => ?_,
    hclimbed.cached⟩
  · rw [hclimbed.mode]
    exact h.mode
  · rw [hclimbed.fileNames, h.fileNames]
  · rw [hclimbed.node_eq_self hway, h.node]
  · rw [hclimbed.node_eq_self hway]
    exact h.file e he
  · rw [hclimbed.outside p hp, h.outside p hp]

/-- A write whose path crosses none. -/
theorem Live.accept (hd : 0 ∉ stripped (d ++ [separator])) (hplain : Plain path)
    (h : Live d B fs₀ s log) (hclimbed : Climbed d B s (segments path).dropLast s')
    (hcross : ¬ ∃ e ∈ log, Crosses (segments e.1) (segments path)) (contents : Bytes) :
    ∃ fs, s'.2.writeFile (d ++ [separator] ++ path) contents = some fs ∧
      Live d B fs₀ ({ s'.1 with fileNames := s'.1.fileNames ++ [path] }, fs)
        (log ++ [(path, contents)]) := by
  have hseg := segments_ne_nil path
  have hfree := mt (h.crosses_iff path).mpr hcross
  rw [not_or] at hfree
  have hway : ∀ q, q <+: (segments path).dropLast →
      ∀ contents, s.2.node (B ++ q) ≠ some (.file contents) := by
    intro q hq contents hnode
    exact hfree.1 ⟨q, contents, hq, hnode⟩
  have hitself : ¬ segments path <+: (segments path).dropLast := by
    rw [prefix_dropLast_iff hseg]
    exact fun hne => hne.2 rfl
  have hnode := hclimbed.node_eq hway
  have hwrite : s'.2.writeFile (d ++ [separator] ++ path) contents =
      some (s'.2.make (B ++ segments path) (.file contents)) := by
    rw [writeFile, hclimbed.locate hd hplain hway]
    refine if_neg ?_
    rw [hnode, if_neg hitself]
    exact hfree.2
  obtain ⟨htree, hgrown, -⟩ := hclimbed.tree.writeFile hwrite
  have hplace : B ++ segments path ≠ [] := by simp [hseg]
  have hmake := node_make s'.2 hplace (.file contents)
  -- Files stay files.
  have hfile : ∀ p contents', s'.2.node p = some (.file contents') → ∃ contents'',
      (s'.2.make (B ++ segments path) (.file contents)).node p = some (.file contents'') := by
    intro p contents' hp
    rw [hmake]
    split
    · exact ⟨contents, rfl⟩
    · exact ⟨contents', hp⟩
  refine ⟨_, hwrite, ⟨htree, hclimbed.filename, hgrown.opendir hclimbed.base⟩, ?_, ?_, fun r => ?_,
    fun e he => ?_, fun p hp => ?_, fun c hc => (hclimbed.cached c hc).mono hgrown.dir hfile⟩
  · change s'.1.mode ≠ .read
    rw [hclimbed.mode]
    exact h.mode
  · change s'.1.fileNames ++ [path] = _
    rw [hclimbed.fileNames, h.fileNames, List.map_append, List.map_singleton]
  · rw [hmake, hnode, nodeOf_concat hcross, h.node]
    simp only [List.append_cancel_left_eq]
  · rcases List.mem_append.mp he with he | he
    · obtain ⟨contents', hold⟩ := h.file e he
      exact hfile _ contents' ((hclimbed.deeper.file _ _).mpr hold)
    · rw [List.mem_singleton.mp he, hmake, if_pos rfl]
      exact ⟨contents, rfl⟩
  · have hne : p ≠ B ++ segments path := by
      rintro rfl
      exact hp (List.prefix_append _ _)
    rw [hmake, if_neg hne, hclimbed.outside p hp, h.outside p hp]

/-- One call. -/
theorem Live.step (hd : 0 ∉ stripped (d ++ [separator])) (h : Live d B fs₀ s log) {c : Call}
    (hplain : Plain c.path) :
    Live d B fs₀ (step env s c).1 (logStep log c).1 ∧
      (¬ReadsDirectory log c → (step env s c).2.untold = (logStep log c).2.untold) := by
  cases c with
  | read path =>
    change Plain path at hplain
    refine ⟨h, fun hfile => ?_⟩
    rw [DirArchive.step, h.read hd hplain hfile, logStep]
  | writePtr w =>
    change Plain w.path at hplain
    have hclimbed := climbed_createParents hd h.toBased h.cached hplain
    rw [DirArchive.step, writePtr, if_neg h.mode, logStep]
    generalize createParents w.path (w.path.length + 1) 0 s = s' at hclimbed ⊢
    dsimp only
    by_cases hcross : ∃ e ∈ log, Crosses (segments e.1) (segments w.path)
    · obtain ⟨hnone, hnext⟩ := h.refuse hd hplain hclimbed hcross w.contents
      rw [← hclimbed.filename] at hnone
      rw [hnone, if_pos hcross]
      exact ⟨hnext, fun _ => rfl⟩
    · obtain ⟨fs, hsome, hnext⟩ := h.accept hd hplain hclimbed hcross w.contents
      rw [← hclimbed.filename] at hsome
      rw [hsome, if_neg hcross]
      exact ⟨hnext, fun _ => rfl⟩

/-- A run. -/
theorem Live.run (hd : 0 ∉ stripped (d ++ [separator])) {calls : List Call}
    (hplain : ∀ c ∈ calls, Plain c.path) :
    ∀ {s : DirArchive × FileTree} {log : Store}, Live d B fs₀ s log →
      Live d B fs₀ (exec (DirArchive.step env) s calls) (exec logStep log calls) := by
  induction calls with
  | nil => exact fun h => h
  | cons c calls ih =>
    intro s log h
    obtain ⟨hfirst, hrest⟩ := List.forall_mem_cons.mp hplain
    exact ih hrest (h.step hd hfirst).1

/-! ## A whole session -/

/-- There is nothing in the directory of a name. -/
def Vacant (fs : FileTree) (name : Bytes) : Prop :=
  ∀ p, fs.opendir name = some p → fs.children p = []

/-- A directory with nothing in it has been opened. -/
theorem live_of_ofFile {fs₀ fs₁ : FileTree} (hfs : fs₀.Tree) (hd : 0 ∉ stripped (d ++ [separator]))
    {fuel : ℕ} {mode : OpenMode} (hmode : mode ≠ .read) {a : DirArchive}
    (hopen : ofFile env fuel fs₀ (d ++ [separator]) mode = some (.ok (a, fs₁)))
    (hvacant : Vacant fs₁ (stripped (d ++ [separator]))) :
    ∃ B, fs₁.opendir (stripped (d ++ [separator])) = some B ∧ Live d B fs₁ (a, fs₁) [] := by
  obtain ⟨htree, hname, ⟨B, hbase⟩, hsearch⟩ := ofFile_spec hfs hopen
  obtain ⟨-, hdir⟩ := opendir_eq_some_iff.mp hbase
  have hnothing : ∀ r, r ≠ [] → fs₁.node (B ++ r) = none := by
    intro r hr
    obtain ⟨name, behind, rfl⟩ := List.exists_cons_of_ne_nil hr
    by_contra hnode
    have hchild : fs₁.node (B ++ [name]) ≠ none := by
      rcases eq_or_ne behind [] with rfl | hne
      · exact hnode
      · rw [List.append_cons] at hnode
        rw [htree.dir_of_append _ hne hnode]
        simp
    rw [← mem_children_iff, hvacant B hbase] at hchild
    cases hchild
  obtain ⟨fileNames, rfl⟩ : ∃ fileNames, a = ⟨d ++ [separator], mode, [], fileNames⟩ := by
    rw [ofFile] at hopen
    split at hopen
    · cases hopen
    · obtain ⟨result, -, hresult⟩ := Option.map_eq_some_iff.mp hopen
      cases result with
      | error message => cases hresult
      | ok fileNames =>
        cases hresult
        exact ⟨fileNames, rfl⟩
  -- So the search has found no file.
  obtain ⟨found, hfinds, enough, hfound⟩ := exists_searchDirectory env htree hd hbase
  have hsame := searchDirectory_mono (le_max_left fuel enough) hsearch
  rw [hfound _ (le_max_right fuel enough), Option.some.injEq, Except.ok.injEq] at hsame
  have hnil : fileNames = [] := by
    rw [← show found = fileNames from hsame, List.eq_nil_iff_forall_not_mem]
    intro x hx
    obtain ⟨r, contents, hnode, -⟩ := (hfinds.mem_iff x).mp hx
    rcases eq_or_ne r [] with rfl | hr
    · rw [List.append_nil, hdir] at hnode
      cases hnode
    · rw [hnothing r hr] at hnode
      cases hnode
  refine ⟨B, hbase, ⟨htree, rfl, hbase⟩, hmode, hnil, fun r => ?_, fun e he => ?_, fun _ _ => rfl,
    fun c hc => ?_⟩
  · rcases eq_or_ne r [] with rfl | hr
    · rw [List.append_nil, hdir]
      rfl
    · rw [hnothing r hr, nodeOf, if_neg]
      · rfl
      · simp [hr]
  · cases he
  · cases hc

/-- An archive that was opened on an empty directory, or has created it, is written to and read under
plain paths in any order. Every write is taken unless its path crosses one that was taken, and a read
gives the last contents that were, unless its path is that of a directory; the list of file names is
that of the log. Below the base directory there are the files of the log and the directories on the way
to them, and what is elsewhere is left as it was. -/
theorem session_as_store (env : DirEnv) {fs₀ fs₁ : FileTree} (hfs : fs₀.Tree) {d : Bytes}
    (hd : 0 ∉ stripped (d ++ [separator])) {fuel : ℕ} {mode : OpenMode} (hmode : mode ≠ .read)
    {a : DirArchive} (hopen : ofFile env fuel fs₀ (d ++ [separator]) mode = some (.ok (a, fs₁)))
    (hvacant : Vacant fs₁ (stripped (d ++ [separator]))) {calls : List Call}
    (hplain : ∀ c ∈ calls, Plain c.path) :
    let log := exec logStep [] calls
    let s := exec (step env) (a, fs₁) calls
    (∀ before c after, calls = before ++ c :: after → ¬ReadsDirectory (exec logStep [] before) c →
        (step env (exec (step env) (a, fs₁) before) c).2.untold =
          (logStep (exec logStep [] before) c).2.untold) ∧
      s.1.fileNames = log.map Prod.fst ∧
      ∃ B, fs₁.opendir (stripped (d ++ [separator])) = some B ∧
        (∀ r, s.2.node (B ++ r) = nodeOf log r) ∧ ∀ p, ¬ B <+: p → s.2.node p = fs₁.node p := by
  intro log s
  obtain ⟨B, hbase, hstart⟩ := live_of_ofFile hfs hd hmode hopen hvacant
  have hend : Live d B fs₁ s log := hstart.run hd hplain
  refine ⟨?_, hend.fileNames, B, hbase, hend.node, hend.outside⟩
  rintro before c after rfl
  obtain ⟨hbefore, hrest⟩ := List.forall_mem_append.mp hplain
  exact ((hstart.run hd hbefore).step hd (hrest c List.mem_cons_self)).2

/-- A file below a directory, two writes that cross it, and a read of the file. -/
theorem crossing_session_as_store :
    (step {} (exec (step {}) (⟨lit "d/", .write, [], []⟩, ⟨[], [([lit "d"], .dir)]⟩)
        [.writePtr ⟨lit "x/a", lit "hi", .noCompress, false⟩,
          .writePtr ⟨lit "x", lit "no", .noCompress, false⟩,
          .writePtr ⟨lit "x/a/b", lit "no", .noCompress, false⟩]) (.read (lit "x/a"))).2.untold =
      .array (some (lit "hi")) := by
  have hopen : ofFile {} 1 {} (lit "d" ++ [separator]) .write =
      some (.ok (⟨lit "d/", .write, [], []⟩, ⟨[], [([lit "d"], .dir)]⟩)) := by decide +kernel
  have hvacant : Vacant ⟨[], [([lit "d"], .dir)]⟩ (stripped (lit "d" ++ [separator])) := by
    intro p hp
    have hbase : FileTree.opendir ⟨[], [([lit "d"], .dir)]⟩ (stripped (lit "d" ++ [separator])) =
        some [lit "d"] := by decide +kernel
    rw [hbase, Option.some.injEq] at hp
    rw [← hp]
    decide +kernel
  have hplain : ∀ c ∈ [Call.writePtr ⟨lit "x/a", lit "hi", .noCompress, false⟩,
      .writePtr ⟨lit "x", lit "no", .noCompress, false⟩,
      .writePtr ⟨lit "x/a/b", lit "no", .noCompress, false⟩, .read (lit "x/a")],
      Plain c.path := by
    unfold Plain Relative
    decide +kernel
  have hanswers := (session_as_store {} tree_empty (by decide +kernel) (by decide) hopen hvacant
    hplain).1 [_, _, _] _ [] rfl
  have hfile : ¬OnTheWay (exec logStep [] [.writePtr ⟨lit "x/a", lit "hi", .noCompress, false⟩,
      .writePtr ⟨lit "x", lit "no", .noCompress, false⟩,
      .writePtr ⟨lit "x/a/b", lit "no", .noCompress, false⟩]) (lit "x/a") := by decide +kernel
  rw [hanswers hfile]
  decide +kernel

end DirArchive

end Libgetar
