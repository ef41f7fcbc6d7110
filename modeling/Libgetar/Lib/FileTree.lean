import Libgetar.Lib.Bytes
import Libgetar.Lib.Log

/-!
# A plain tree of directories and files

What a program uses of a file system in which `mkdir`, `open` and `readdir` do not fail by chance. A
node is found by the names on the way from the root; the tree is kept as the log of the nodes that
were made, where a file is made again when it is overwritten. `locate` follows a file name from the
working directory or from the root, through directories only. File names are C strings, which end at
their first null byte.

`Tree` is the invariant: above every node there are directories, and their names can be written in a
file name. `Tree.mkdir` and `Tree.writeFile` say that it is kept, and what the new tree holds.
`locate_append` says that a file name behind a slash is followed from where the name in front of it
leads.
-/

namespace Libgetar.Lib

/-- A node of the tree. -/
inductive Node where
  | dir
  | file (contents : Bytes)
deriving DecidableEq

/-- The slash between the names in a file name. -/
def separator : UInt8 := 47

/-- A name that can stand for a node of a directory. -/
structure Proper (name : Bytes) : Prop where
  ne_nil : name ≠ []
  ne_dot : name ≠ lit "."
  ne_dotdot : name ≠ lit ".."
  separator_not_mem : separator ∉ name
  zero_not_mem : 0 ∉ name

/-- A file system. -/
structure FileTree where
  /-- The working directory. -/
  cwd : List Bytes := []
  /-- The nodes that were made, the oldest first. The root is not among them. -/
  log : List (List Bytes × Node) := []
deriving DecidableEq

namespace FileTree

/-- The node at a place. -/
def node (fs : FileTree) (p : List Bytes) : Option Node :=
  if p = [] then some .dir else lastWrite fs.log p

/-- A node is made. -/
def make (fs : FileTree) (p : List Bytes) (node : Node) : FileTree :=
  { fs with log := fs.log ++ [(p, node)] }

/-- Where a segment of a file name leads. -/
def visit (p : List Bytes) (segment : Bytes) : List Bytes :=
  if segment = [] ∨ segment = lit "." then p
  else if segment = lit ".." then p.dropLast
  else p ++ [segment]

/-- Where the segments of a file name lead. Every segment is looked up in a directory. -/
def walk (fs : FileTree) : List Bytes → List Bytes → Option (List Bytes)
  | p, [] => some p
  | p, segment :: rest => if fs.node p = some .dir then fs.walk (visit p segment) rest else none

/-- Where a file name starts. -/
def start (fs : FileTree) (name : Bytes) : List Bytes :=
  if name.head? = some separator then [] else fs.cwd

/-- The place that a file name stands for, which need not have a node. -/
def locate (fs : FileTree) (name : Bytes) : Option (List Bytes) :=
  if cStr name = [] then none
  else fs.walk (fs.start name) ((cStr name).splitOn separator)

/-- `stat`. -/
def lookup (fs : FileTree) (name : Bytes) : Option Node := (fs.locate name).bind fs.node

/-- `opendir`: the place of the directory. -/
def opendir (fs : FileTree) (name : Bytes) : Option (List Bytes) :=
  (fs.locate name).filter fun p => fs.node p = some .dir

/-- `mkdir`. It does nothing where there is a node, or no directory to make one in. The slashes at the
end of the name do not count. -/
def mkdir (fs : FileTree) (name : Bytes) : FileTree :=
  match fs.locate ((cStr name).rdropWhile (· == separator)) with
  | none => fs
  | some p => if fs.node p = none then fs.make p .dir else fs

/-- A file is opened for writing, and its contents are replaced. -/
def writeFile (fs : FileTree) (name : Bytes) (contents : Bytes) : Option FileTree :=
  match fs.locate name with
  | none => none
  | some p => if fs.node p = some .dir then none else some (fs.make p (.file contents))

/-- The names of the nodes in a directory. -/
def children (fs : FileTree) (p : List Bytes) : List Bytes :=
  ((fs.log.map Prod.fst).filterMap fun q => if q.dropLast = p then q.getLast? else none).dedup

/-- Above every node there are directories, and their names are proper. -/
structure Tree (fs : FileTree) : Prop where
  parent : ∀ p name, fs.node (p ++ [name]) ≠ none → fs.node p = some .dir
  proper : ∀ p, fs.node p ≠ none → ∀ name ∈ p, Proper name
  cwd : ∀ name ∈ fs.cwd, Proper name

/-- The directories of the first tree are directories of the second one. -/
structure Grown (fs fs' : FileTree) : Prop where
  cwd : fs'.cwd = fs.cwd
  dir : ∀ p, fs.node p = some .dir → fs'.node p = some .dir

/-- The second tree has the files of the first one, and perhaps more directories. -/
structure Deeper (fs fs' : FileTree) : Prop extends Grown fs fs' where
  file : ∀ p contents, fs'.node p = some (.file contents) ↔ fs.node p = some (.file contents)

variable {fs fs' : FileTree} {p q : List Bytes} {name : Bytes}

/-! ## Nodes -/

@[simp] theorem node_nil (fs : FileTree) : fs.node [] = some .dir := if_pos rfl

theorem node_make (fs : FileTree) {p : List Bytes} (hp : p ≠ []) (node : Node) (q : List Bytes) :
    (fs.make p node).node q = if q = p then some node else fs.node q := by
  unfold FileTree.node make
  by_cases hq : q = []
  · have hne : q ≠ p := by
      rw [hq]
      exact hp.symm
    rw [if_pos hq, if_pos hq, if_neg hne]
  · rw [if_neg hq, if_neg hq, lastWrite_concat]

/-- The names in a directory are those of its nodes, once each. -/
theorem mem_children_iff (fs : FileTree) (p : List Bytes) (name : Bytes) :
    name ∈ fs.children p ↔ fs.node (p ++ [name]) ≠ none := by
  unfold children node
  rw [if_neg (by simp), ne_eq, lastWrite_eq_none_iff, not_not, List.mem_dedup, List.mem_filterMap]
  constructor
  · rintro ⟨q, hq, hname⟩
    split at hname
    · next hparent =>
      have hne : q ≠ [] := by
        intro hnil
        rw [hnil, List.getLast?_nil] at hname
        cases hname
      rw [List.getLast?_eq_some_getLast hne, Option.some.injEq] at hname
      rwa [← hparent, ← hname, List.dropLast_append_getLast hne]
    · cases hname
  · intro hmem
    refine ⟨p ++ [name], hmem, ?_⟩
    rw [if_pos List.dropLast_concat, List.getLast?_concat]

/-- Everything above a node is a directory. -/
theorem Tree.dir_of_append (h : fs.Tree) (p : List Bytes) {r : List Bytes} (hr : r ≠ [])
    (hnode : fs.node (p ++ r) ≠ none) : fs.node p = some .dir := by
  induction r using List.reverseRecOn with
  | nil => exact absurd rfl hr
  | append_singleton r name ih =>
    rw [← List.append_assoc] at hnode
    have hparent := h.parent (p ++ r) name hnode
    rcases eq_or_ne r [] with rfl | hne
    · rwa [List.append_nil] at hparent
    · exact ih hne (by rw [hparent]; exact nofun)

/-- The tree with nothing but the root. -/
theorem tree_empty : ({} : FileTree).Tree := by
  have hnode : ∀ p, ({} : FileTree).node p ≠ none → p = [] := by
    intro p hp
    by_contra hne
    exact hp (if_neg hne)
  refine ⟨fun p name hp => ?_, fun p hp name hname => ?_, fun name hname => ?_⟩
  · exact absurd (hnode _ hp) (by simp)
  · rw [hnode p hp] at hname
    cases hname
  · cases hname

/-- A node that is made in a directory, not in the place of one. -/
theorem Tree.make (h : fs.Tree) {p : List Bytes} {name : Bytes} (hdir : fs.node p = some .dir)
    (hname : Proper name) (hnew : fs.node (p ++ [name]) ≠ some .dir) (node : Node) :
    (fs.make (p ++ [name]) node).Tree := by
  have hne : p ++ [name] ≠ [] := by simp
  -- There is nothing below the new node.
  have hbelow : ∀ name', fs.node (p ++ [name] ++ [name']) = none := by
    intro name'
    by_contra hnode
    exact hnew (h.parent _ _ hnode)
  constructor
  · intro q name' hnode
    rw [node_make _ hne] at hnode ⊢
    by_cases hq : q = p ++ [name]
    · rw [hq, if_neg (by simp), hbelow] at hnode
      exact absurd rfl hnode
    · rw [if_neg hq]
      split at hnode
      · next heq => rw [(List.append_inj_left' heq rfl), hdir]
      · exact h.parent q name' hnode
  · intro q hnode name' hmem
    rw [node_make _ hne] at hnode
    split at hnode
    · next heq =>
      rw [heq, List.mem_append, List.mem_singleton] at hmem
      rcases hmem with hmem | rfl
      · exact h.proper p (by rw [hdir]; exact nofun) name' hmem
      · exact hname
    · exact h.proper q hnode name' hmem
  · exact h.cwd

theorem opendir_eq_some_iff : fs.opendir name = some p ↔
    fs.locate name = some p ∧ fs.node p = some .dir := by
  rw [opendir, Option.filter_eq_some_iff, decide_eq_true_iff]

/-! ## File names -/

/-- A proper name is one segment. -/
theorem splitOn_proper (h : Proper name) : name.splitOn separator = [name] :=
  List.splitOn_eq_singleton h.separator_not_mem

theorem visit_proper (h : Proper name) (p : List Bytes) : visit p name = p ++ [name] := by
  rw [FileTree.visit, if_neg (not_or.mpr ⟨h.ne_nil, h.ne_dot⟩), if_neg h.ne_dotdot]

/-! ## Where a file name leads -/

theorem walk_append (fs : FileTree) (p r r' : List Bytes) :
    fs.walk p (r ++ r') = (fs.walk p r).bind fun q => fs.walk q r' := by
  induction r generalizing p with
  | nil => rfl
  | cons segment r ih =>
    rw [List.cons_append, walk, walk]
    split
    · exact ih _
    · rfl

/-- Slashes without a name between them lead nowhere else. -/
theorem walk_replicate_nil (fs : FileTree) (h : fs.node p = some .dir) (n : ℕ) :
    fs.walk p (List.replicate n []) = some p := by
  induction n with
  | zero => rfl
  | succ n ih => rw [List.replicate_succ, walk, if_pos h, visit, if_pos (Or.inl rfl), ih]

/-- Proper names lead to the place that they name. -/
theorem eq_append_of_walk {r : List Bytes} (hr : ∀ name ∈ r, Proper name)
    (h : fs.walk p r = some q) : q = p ++ r := by
  induction r generalizing p with
  | nil =>
    rw [walk, Option.some.injEq] at h
    rw [← h, List.append_nil]
  | cons name r ih =>
    obtain ⟨hname, hrest⟩ := List.forall_mem_cons.mp hr
    rw [walk] at h
    split at h
    · rw [visit_proper hname] at h
      rw [ih hrest h, List.append_assoc, List.singleton_append]
    · cases h

/-- Proper names lead to a node that has them. -/
theorem Tree.walk_of_node (h : fs.Tree) {r : List Bytes} (hnode : fs.node (p ++ r) ≠ none) :
    fs.walk p r = some (p ++ r) := by
  induction r generalizing p with
  | nil => rw [walk, List.append_nil]
  | cons name r ih =>
    have hname : Proper name := h.proper _ hnode name (by simp)
    have hdir := h.dir_of_append p (List.cons_ne_nil name r) hnode
    rw [← List.singleton_append, ← List.append_assoc] at hnode ⊢
    rw [List.singleton_append, walk, if_pos hdir, visit_proper hname, ih hnode]

/-- Proper names lead through directories to the place that they name. -/
theorem walk_of_dirs {r : List Bytes} (hr : ∀ name ∈ r, Proper name)
    (hdir : ∀ q, q <+: r → q ≠ r → fs.node (p ++ q) = some .dir) : fs.walk p r = some (p ++ r) := by
  induction r generalizing p with
  | nil => rw [walk, List.append_nil]
  | cons name r ih =>
    obtain ⟨hname, hrest⟩ := List.forall_mem_cons.mp hr
    have hfirst := hdir [] List.nil_prefix (List.cons_ne_nil name r).symm
    rw [List.append_nil] at hfirst
    rw [walk, if_pos hfirst, visit_proper hname, ih hrest, List.append_assoc, List.singleton_append]
    intro q hq hne
    rw [List.append_assoc, List.singleton_append]
    refine hdir (name :: q) (List.cons_prefix_cons.mpr ⟨rfl, hq⟩) ?_
    rwa [ne_eq, List.cons_inj_right]

/-- Proper names lead nowhere if there is something else than a directory on the way. -/
theorem walk_eq_none {r q : List Bytes} (hr : ∀ name ∈ r, Proper name) (hq : q <+: r) (hne : q ≠ r)
    (hdir : fs.node (p ++ q) ≠ some .dir) : fs.walk p r = none := by
  induction r generalizing p q with
  | nil => exact absurd (List.prefix_nil.mp hq) hne
  | cons name r ih =>
    obtain ⟨hname, hrest⟩ := List.forall_mem_cons.mp hr
    rw [walk]
    split
    · next hfirst =>
      rcases q with - | ⟨name', q⟩
      · rw [List.append_nil] at hdir
        exact absurd hfirst hdir
      · obtain ⟨rfl, hq'⟩ := List.cons_prefix_cons.mp hq
        rw [visit_proper hname]
        refine ih hrest hq' ?_ ?_
        · rintro rfl
          exact hne rfl
        · rwa [List.append_assoc, List.singleton_append]
    · rfl

/-- More directories change nothing of where a file name leads. -/
theorem Grown.walk (h : fs.Grown fs') {r : List Bytes} (hwalk : fs.walk p r = some q) :
    fs'.walk p r = some q := by
  induction r generalizing p with
  | nil => exact hwalk
  | cons segment r ih =>
    rw [FileTree.walk] at hwalk ⊢
    split at hwalk
    · next hdir =>
      rw [if_pos (h.dir p hdir)]
      exact ih hwalk
    · cases hwalk

theorem Grown.locate (h : fs.Grown fs') {name : Bytes} (hlocate : fs.locate name = some p) :
    fs'.locate name = some p := by
  unfold FileTree.locate at hlocate ⊢
  split at hlocate
  · cases hlocate
  · next hne =>
    rw [if_neg hne]
    rw [show fs'.start name = fs.start name by rw [start, start, h.cwd]]
    exact h.walk hlocate

theorem Grown.refl (fs : FileTree) : fs.Grown fs := ⟨rfl, fun _ h => h⟩

theorem Grown.trans {fs'' : FileTree} (h : fs.Grown fs') (h' : fs'.Grown fs'') : fs.Grown fs'' :=
  ⟨h'.cwd.trans h.cwd, fun p hp => h'.dir p (h.dir p hp)⟩

theorem Grown.opendir (h : fs.Grown fs') (hopen : fs.opendir name = some p) :
    fs'.opendir name = some p := by
  obtain ⟨hlocate, hdir⟩ := opendir_eq_some_iff.mp hopen
  exact opendir_eq_some_iff.mpr ⟨h.locate hlocate, h.dir p hdir⟩

theorem Deeper.refl (fs : FileTree) : fs.Deeper fs := ⟨Grown.refl fs, fun _ _ => Iff.rfl⟩

theorem Deeper.trans {fs'' : FileTree} (h : fs.Deeper fs') (h' : fs'.Deeper fs'') :
    fs.Deeper fs'' :=
  ⟨h.toGrown.trans h'.toGrown, fun p contents => (h'.file p contents).trans (h.file p contents)⟩

/-- Behind a null byte a file name leads nowhere else. -/
theorem locate_append_of_mem (fs : FileTree) (h : 0 ∈ name) (rel : Bytes) :
    fs.locate (name ++ rel) = fs.locate name := by
  have hstart : fs.start (name ++ rel) = fs.start name := by
    rw [start, start, List.head?_append_of_ne_nil _ (List.ne_nil_of_mem h)]
  rw [locate, locate, cStr_append_of_mem h, hstart]

/-- A file name behind a slash is followed from where the name in front of it leads. -/
theorem locate_append {fs : FileTree} {name : Bytes} (hzero : 0 ∉ name)
    (h : fs.locate name = some p) (rel : Bytes) :
    fs.locate (name ++ separator :: rel) = fs.walk p ((cStr rel).splitOn separator) := by
  unfold locate at h ⊢
  have hcut : cStr (name ++ separator :: rel) = name ++ separator :: cStr rel := by
    rw [cStr_append_of_not_mem hzero]
    rfl
  rw [cStr_eq_self hzero] at h
  split at h
  · cases h
  · next hne =>
    have hstart : fs.start (name ++ separator :: rel) = fs.start name := by
      rw [start, start, List.head?_append_of_ne_nil _ hne]
    rw [hcut, if_neg (by simp), hstart, List.splitOn_append_cons_self, walk_append, h]
    rfl

/-- The slashes in front of the relative name do not count. -/
theorem locate_append_replicate {fs : FileTree} {name : Bytes} (hzero : 0 ∉ name)
    (h : fs.opendir name = some p) (k : ℕ) (rel : Bytes) :
    fs.locate (name ++ separator :: (List.replicate k separator ++ rel)) =
      fs.walk p ((cStr rel).splitOn separator) := by
  obtain ⟨hlocate, hdir⟩ := opendir_eq_some_iff.mp h
  have hslashes : (0 : UInt8) ∉ List.replicate k separator := by
    intro hmem
    exact absurd (List.eq_of_mem_replicate hmem) (by decide)
  rw [locate_append hzero hlocate, cStr_append_of_not_mem hslashes]
  clear hslashes
  induction k with
  | zero => rfl
  | succ k ih =>
    rw [List.replicate_succ, List.cons_append, List.splitOn_cons_eq_if_modifyHead,
      if_pos (by simp), walk, if_pos hdir, visit, if_pos (Or.inl rfl), ih]

/-- What is in a directory is found by its name behind that of the directory. -/
theorem locate_child {fs : FileTree} {path : Bytes} (hzero : 0 ∉ path)
    (h : fs.opendir path = some p) (hname : Proper name) :
    fs.locate (path ++ separator :: name) = some (p ++ [name]) := by
  obtain ⟨hlocate, hdir⟩ := opendir_eq_some_iff.mp h
  rw [locate_append hzero hlocate, cStr_eq_self hname.zero_not_mem, splitOn_proper hname, walk,
    if_pos hdir, visit_proper hname]
  rfl

/-! ## Making directories and files -/

/-- From a directory a segment leads to a directory, or to the place that it names. -/
theorem Tree.visit_cases (h : fs.Tree) (hdir : fs.node p = some .dir) {segment : Bytes}
    (hseparator : separator ∉ segment) (hzero : 0 ∉ segment) :
    fs.node (visit p segment) = some .dir ∨
      (visit p segment = p ++ [segment] ∧ Proper segment) := by
  unfold visit
  split
  · exact Or.inl hdir
  · next hdot =>
    rw [not_or] at hdot
    split
    · -- Above a directory there is a directory.
      left
      rcases List.eq_nil_or_concat p with rfl | ⟨p', name, rfl⟩
      · exact node_nil fs
      · rw [List.concat_eq_append] at hdir ⊢
        rw [List.dropLast_concat]
        exact h.parent p' name (by rw [hdir]; simp)
    · next hdotdot => exact Or.inr ⟨rfl, hdot.1, hdot.2, hdotdot, hseparator, hzero⟩

/-- Where segments lead there is a directory, or the last of them is a proper name for it. -/
theorem Tree.place_of_walk (h : fs.Tree) {r : List Bytes} (hr : r ≠ [])
    (hsegments : ∀ segment ∈ r, separator ∉ segment ∧ 0 ∉ segment)
    (hwalk : fs.walk p r = some q) (hq : fs.node q ≠ some .dir) :
    ∃ p' name, q = p' ++ [name] ∧ fs.node p' = some .dir ∧ Proper name := by
  induction r generalizing p with
  | nil => exact absurd rfl hr
  | cons segment r ih =>
    obtain ⟨⟨hseparator, hzero⟩, hrest⟩ := List.forall_mem_cons.mp hsegments
    rw [walk] at hwalk
    split at hwalk
    · next hdir =>
      rcases eq_or_ne r [] with rfl | hne
      · rw [walk, Option.some.injEq] at hwalk
        rcases h.visit_cases hdir hseparator hzero with hvisit | ⟨hvisit, hproper⟩
        · rw [hwalk] at hvisit
          exact absurd hvisit hq
        · exact ⟨p, segment, hwalk.symm.trans hvisit, hdir, hproper⟩
      · exact ih hne hrest hwalk
    · cases hwalk

/-- Proper names with one more segment lead to a directory, or to the place that they name. -/
theorem Tree.eq_append_of_walk (h : fs.Tree) {init : List Bytes} {last : Bytes}
    (hinit : ∀ name ∈ init, Proper name) (hseparator : separator ∉ last) (hzero : 0 ∉ last)
    (hwalk : fs.walk p (init ++ [last]) = some q) (hq : fs.node q ≠ some .dir) :
    q = p ++ (init ++ [last]) ∧ Proper last := by
  rw [walk_append, Option.bind_eq_some_iff] at hwalk
  obtain ⟨q', hfirst, hlast⟩ := hwalk
  rw [walk] at hlast
  split at hlast
  · next hdir =>
    rw [walk, Option.some.injEq] at hlast
    rcases h.visit_cases hdir hseparator hzero with hvisit | ⟨hvisit, hproper⟩
    · rw [hlast] at hvisit
      exact absurd hvisit hq
    · refine ⟨?_, hproper⟩
      rw [← hlast, hvisit, FileTree.eq_append_of_walk hinit hfirst, List.append_assoc]
  · cases hlast

theorem Tree.place_of_locate (h : fs.Tree) (hlocate : fs.locate name = some q)
    (hq : fs.node q ≠ some .dir) :
    ∃ p' name, q = p' ++ [name] ∧ fs.node p' = some .dir ∧ Proper name := by
  unfold locate at hlocate
  split at hlocate
  · cases hlocate
  · refine h.place_of_walk (List.splitOn_ne_nil _ _) ?_ hlocate hq
    intro segment hsegment
    refine ⟨not_mem_of_mem_splitOn hsegment, ?_⟩
    intro hzero
    exact zero_not_mem_cStr name (mem_of_mem_splitOn hsegment hzero)

/-- Names in a tree are bounded in depth. -/
theorem exists_depth (fs : FileTree) : ∃ depth, ∀ p, fs.node p ≠ none → p.length < depth := by
  refine ⟨(fs.log.map fun e => e.1.length).sum + 1, fun p hp => ?_⟩
  unfold FileTree.node at hp
  split at hp
  · next hnil =>
    rw [hnil]
    exact Nat.succ_pos _
  · rw [ne_eq, lastWrite_eq_none_iff, not_not, List.mem_map] at hp
    obtain ⟨e, he, rfl⟩ := hp
    have hle : e.1.length ≤ (fs.log.map fun e => e.1.length).sum :=
      List.single_le_sum (by simp) _ (List.mem_map_of_mem he)
    omega

theorem grown_make (hp : p ≠ []) (hnew : fs.node p ≠ some .dir) (node : Node) :
    fs.Grown (fs.make p node) := by
  refine ⟨rfl, fun q hq => ?_⟩
  have hne : q ≠ p := by
    rintro rfl
    exact hnew hq
  rw [node_make fs hp, if_neg hne, hq]

/-- `mkdir` keeps the tree, with perhaps one directory more. -/
theorem Tree.mkdir (h : fs.Tree) (name : Bytes) :
    (fs.mkdir name).Tree ∧ fs.Deeper (fs.mkdir name) := by
  unfold FileTree.mkdir
  split
  · exact ⟨h, Deeper.refl fs⟩
  · next q hlocate =>
    split
    · next hnone =>
      have hnew : fs.node q ≠ some .dir := by
        rw [hnone]
        simp
      obtain ⟨p, name', rfl, hdir, hname⟩ := h.place_of_locate hlocate hnew
      refine ⟨h.make hdir hname hnew .dir, grown_make (by simp) hnew .dir, fun r contents => ?_⟩
      rw [node_make fs (by simp)]
      split
      · next heq =>
        rw [heq, hnone]
        simp
      · exact Iff.rfl
    · exact ⟨h, Deeper.refl fs⟩

/-- A file that is written stands where its name leads, and the others are left. -/
theorem Tree.writeFile (h : fs.Tree) {name contents : Bytes}
    (hwrite : fs.writeFile name contents = some fs') :
    fs'.Tree ∧ fs.Grown fs' ∧ ∃ p, fs.locate name = some p ∧ fs.node p ≠ some .dir ∧
      ∀ q, fs'.node q = if q = p then some (.file contents) else fs.node q := by
  unfold FileTree.writeFile at hwrite
  split at hwrite
  · cases hwrite
  · next q hlocate =>
    split at hwrite
    · cases hwrite
    · next hnew =>
      cases hwrite
      obtain ⟨p, name', rfl, hdir, hname⟩ := h.place_of_locate hlocate hnew
      exact ⟨h.make hdir hname hnew _, grown_make (by simp) hnew _, _, hlocate, hnew,
        node_make fs (by simp) _⟩

end FileTree

end Libgetar.Lib
