import Libgetar.Lib.Endian
import Libgetar.Zip.Format

/-!
# Binary properties

`writeIndividual`, `writeUniform`, `readIndividual` and `readUniform`: what is written are the elements
of an array as they lie in memory, with their bytes swapped on a big-endian machine. Whether the
machine is one is said by `IS_BIG_ENDIAN`, a constant whose initialiser is commented out; here it is a
parameter, and `isBigEndian` is the value in the source.

What is read are the elements that were written if both sides put them into the file in the same order
(`readIndividual_portable_iff`). With the constant, elements that read differently from both ends do
not come back on a machine of the other kind.

`readIndividual` looks twice at the number of bytes, and the second look never finds anything
(`coerceIndividual_eq`). The functions that read use the archive without asking whether it is closed.
-/

namespace Libgetar

open Lib

variable {σ ε φ : Type*}

/-- `IS_BIG_ENDIAN`. -/
def isBigEndian : Bool := false

/-- `maybeSwapEndian` on all the bytes of `target`, for elements of `size` bytes. -/
def maybeSwapEndian (bigEndian : Bool) (size : ℕ) (target : Bytes) : Except Bytes Bytes :=
  if target.length % size ≠ 0 then
    .error (lit "Trying to convert an incorrect number of bytes to little-endian")
  else if bigEndian then .ok (swapElements size target)
  else .ok target

/-- A `SharedArray` of elements: the memory that it points to, and its size. -/
structure TypedArray where
  target : Option Bytes
  size : ℕ
deriving DecidableEq

/-- The memory of each element. -/
def TypedArray.elements (a : TypedArray) (size : ℕ) : List Bytes :=
  (List.range a.size).map fun i => substr (a.target.getD []) (i * size) size

/-- How `readIndividual` and `readUniform` end. -/
inductive TypedAnswer where
  | array (a : TypedArray)
  | threw (message : Bytes)
  /-- The archive has copied past the end of a buffer. -/
  | overflow
  /-- There is no archive to read from. -/
  | nullPointer
deriving DecidableEq

/-- What `readIndividual` makes of the bytes of a record. -/
def coerceIndividual (bigEndian : Bool) (size : ℕ) (contents : Option Bytes) : TypedAnswer :=
  match maybeSwapEndian bigEndian size (contents.getD []) with
  | .error message => .threw message
  | .ok bytes =>
    let resultSize := bytes.length / size
    if resultSize * size ≠ bytes.length then
      .threw (lit "Trying to coerce the wrong number of bytes into an individual property")
    else .array ⟨contents.map fun _ => bytes, resultSize⟩

/-- What `readUniform` makes of them. The shim of the bytes is kept, with its length. -/
def coerceUniform (bigEndian : Bool) (size : ℕ) (contents : Option Bytes) : TypedAnswer :=
  match maybeSwapEndian bigEndian size (contents.getD []) with
  | .error message => .threw message
  | .ok bytes => if bytes.length ≠ 0 then .array ⟨some bytes, bytes.length⟩ else .array ⟨none, 0⟩

namespace Gtar

/-- `writeIndividual`, for the elements of a range in memory. -/
def writeIndividual (bigEndian : Bool) (size : ℕ) (B : Backend σ ε) (g : Gtar σ) (path : Bytes)
    (buffer : List Bytes) (mode : CompressMode) (immediate : Bool) (env : ε) : Gtar σ × Answer :=
  match maybeSwapEndian bigEndian size buffer.flatten with
  | .error message => (g, .threw message)
  | .ok bytes => g.writePtr B path bytes mode immediate env

/-- `writeUniform`. -/
def writeUniform (bigEndian : Bool) (size : ℕ) (B : Backend σ ε) (g : Gtar σ) (path val : Bytes)
    (immediate : Bool) (env : ε) : Gtar σ × Answer :=
  match maybeSwapEndian bigEndian size val with
  | .error message => (g, .threw message)
  | .ok bytes => g.writePtr B path bytes .noCompress immediate env

/-- The body that the functions that read share. -/
def readTyped (coerce : Option Bytes → TypedAnswer) (B : Backend σ ε) (g : Gtar σ) (path : Bytes)
    (env : ε) : Gtar σ × TypedAnswer :=
  match g.archive with
  | none => (g, .nullPointer)
  | some archive =>
    let (archive, answer) := B.read archive path env
    ({ g with archive := some archive },
      match answer with
      | .array contents => coerce contents
      | .threw message => .threw message
      | _ => .overflow)

/-- `readIndividual`. -/
def readIndividual (bigEndian : Bool) (size : ℕ) (B : Backend σ ε) (g : Gtar σ) (path : Bytes)
    (env : ε) : Gtar σ × TypedAnswer :=
  readTyped (coerceIndividual bigEndian size) B g path env

/-- `readUniform`. -/
def readUniform (bigEndian : Bool) (size : ℕ) (B : Backend σ ε) (g : Gtar σ) (path : Bytes)
    (env : ε) : Gtar σ × TypedAnswer :=
  readTyped (coerceUniform bigEndian size) B g path env

end Gtar

/-! ## Swapping -/

variable {bigEndian : Bool} {size : ℕ}

/-- A number of bytes that is no multiple of the size of an element is the only error. -/
theorem coerceIndividual_eq (contents : Option Bytes) :
    coerceIndividual bigEndian size contents =
      if (contents.getD []).length % size = 0 then
        .array ⟨contents.map fun bytes => if bigEndian then swapElements size bytes else bytes,
          (contents.getD []).length / size⟩
      else .threw (lit "Trying to convert an incorrect number of bytes to little-endian") := by
  rw [coerceIndividual, maybeSwapEndian]
  by_cases hmod : (contents.getD []).length % size = 0
  · have hlength : (contents.getD []).length / size * size = (contents.getD []).length :=
      Nat.div_mul_cancel (Nat.dvd_of_mod_eq_zero hmod)
    rw [if_neg (not_not.mpr hmod), if_pos hmod]
    cases bigEndian with
    | false =>
      simp only [Bool.false_eq_true, if_false, hlength, ne_eq, not_true_eq_false]
      cases contents <;> rfl
    | true =>
      simp only [if_true, length_swapElements, hlength, ne_eq, not_true_eq_false, if_false]
      cases contents <;> rfl
  · rw [if_pos hmod, if_neg hmod]

/-- The elements of an array are put into the file as on a machine of one kind. -/
theorem maybeSwapEndian_represent (hsize : 0 < size) (bigEndian machine : Bool) (ns : List ℕ) :
    maybeSwapEndian bigEndian size (ns.map (represent machine size)).flatten =
      .ok (ns.map (represent (bigEndian ^^ machine) size)).flatten := by
  have hes : ∀ e ∈ ns.map (represent machine size), e.length = size :=
    List.forall_mem_map.mpr fun n _ => length_represent machine size n
  rw [maybeSwapEndian, length_flatten_of_forall hes, Nat.mul_mod_left, if_neg (not_not.mpr rfl)]
  cases bigEndian with
  | false => rw [if_neg Bool.false_ne_true, Bool.false_xor]
  | true =>
    rw [if_pos rfl, swapElements_flatten hsize hes, List.map_map, Bool.true_xor]
    exact congrArg (fun es => Except.ok es.flatten)
      (List.map_congr_left fun n _ => reverse_represent machine size n)

/-- `writeIndividual` does not throw before it calls `writePtr`. -/
theorem Gtar.writeIndividual_represent (hsize : 0 < size) (bigEndian machine : Bool)
    (B : Backend σ ε) (g : Gtar σ) (path : Bytes) (ns : List ℕ) (mode : CompressMode)
    (immediate : Bool) (env : ε) :
    g.writeIndividual bigEndian size B path (ns.map (represent machine size)) mode immediate env =
      g.writePtr B path (ns.map (represent (bigEndian ^^ machine) size)).flatten mode immediate
        env := by
  rw [Gtar.writeIndividual, maybeSwapEndian_represent hsize]

/-- `writeUniform` writes a number as `writeIndividual` writes a range of one, without compression. -/
theorem Gtar.writeUniform_represent (bigEndian machine : Bool) (B : Backend σ ε) (g : Gtar σ)
    (path : Bytes) (n : ℕ) (immediate : Bool) (env : ε) :
    g.writeUniform bigEndian size B path (represent machine size n) immediate env =
      g.writeIndividual bigEndian size B path ([n].map (represent machine size)) .noCompress immediate
        env := by
  have hone : ([n].map (represent machine size)).flatten = represent machine size n := by
    rw [List.map_singleton, List.flatten_singleton]
  rw [Gtar.writeUniform, Gtar.writeIndividual, hone]

/-- `readUniform` has the memory that `readIndividual` has, with its length in bytes, unless there are
no bytes. -/
theorem coerceUniform_of_coerceIndividual {contents : Option Bytes} {a : TypedArray}
    (h : coerceIndividual bigEndian size contents = .array a) :
    coerceUniform bigEndian size contents =
      .array (if a.size * size = 0 then ⟨none, 0⟩ else ⟨a.target, a.size * size⟩) := by
  rw [coerceIndividual_eq] at h
  split at h
  · next hmod =>
    cases h
    have hlength : (contents.getD []).length / size * size = (contents.getD []).length :=
      Nat.div_mul_cancel (Nat.dvd_of_mod_eq_zero hmod)
    have hswap (bytes : Bytes) :
        (if bigEndian then swapElements size bytes else bytes).length = bytes.length := by
      split
      · exact length_swapElements size bytes
      · rfl
    rw [coerceUniform, maybeSwapEndian, if_neg (not_not.mpr hmod), ← apply_ite Except.ok]
    simp only [hswap, hlength]
    by_cases hzero : (contents.getD []).length = 0
    · rw [if_neg (not_not.mpr hzero), if_pos hzero]
    · -- A record with bytes is not the null array.
      rw [if_pos hzero, if_neg hzero]
      cases contents with
      | none => exact absurd rfl hzero
      | some bytes => rfl
  · cases h

/-- The elements that lie one behind the other. -/
theorem elements_flatten {es : List Bytes} (hes : ∀ e ∈ es, e.length = size) :
    (TypedArray.mk (some es.flatten) es.length).elements size = es := by
  induction es with
  | nil => rfl
  | cons e es ih =>
    obtain ⟨he, hrest⟩ := List.forall_mem_cons.mp hes
    have hfirst : substr (e ++ es.flatten) (0 * size) size = e := by
      rw [Nat.zero_mul, substr, List.drop_zero, ← he, List.take_left]
    have hlater (i : ℕ) :
        substr (e ++ es.flatten) ((i + 1) * size) size = substr es.flatten (i * size) size := by
      rw [substr, substr, Nat.succ_mul, Nat.add_comm, ← List.drop_drop, ← he, List.drop_left]
    have hes' := ih hrest
    simp only [TypedArray.elements, Option.getD_some] at hes' ⊢
    rw [List.length_cons, List.range_succ_eq_map, List.map_cons, List.map_map, List.flatten_cons,
      hfirst]
    exact congrArg (e :: ·) ((List.map_congr_left fun i _ => hlater i).trans hes')

/-- Whether numbers come back on a machine. -/
theorem map_numberOf_eq_iff (a b : Bool) {ns : List ℕ} (hns : ∀ n ∈ ns, n < 256 ^ size) :
    (ns.map (represent a size)).map (numberOf b) = ns ↔
      a = b ∨ ∀ n ∈ ns, (represent b size n).reverse = represent b size n := by
  have hone (n : ℕ) (hn : n < 256 ^ size) :
      numberOf b (represent a size n) = n ↔ represent a size n = represent b size n := by
    constructor
    · intro hnumber
      have hback := represent_numberOf b (represent a size n)
      rwa [length_represent, hnumber, eq_comm] at hback
    · intro hsame
      rw [hsame, numberOf_represent b hn]
  have hall : (ns.map (represent a size)).map (numberOf b) = ns ↔
      ∀ n ∈ ns, represent a size n = represent b size n := by
    rw [List.map_map, ← forall₂_congr fun n hn => hone n (hns n hn)]
    conv_lhs => rhs; rw [← List.map_id ns]
    exact List.map_inj_left
  rw [hall]
  by_cases hab : a = b
  · simp [hab]
  · have ha : a = !b := by
      cases a <;> cases b <;> first | rfl | exact absurd rfl hab
    rw [or_iff_right hab, ha]
    simp only [reverse_represent]

/-- The elements that are read, from what was written elsewhere. -/
theorem coerceIndividual_represent (hsize : 0 < size) (bigEndian stored : Bool) (ns : List ℕ) :
    ∃ a, coerceIndividual bigEndian size (some (ns.map (represent stored size)).flatten) = .array a ∧
      a.size = ns.length ∧ a.elements size = ns.map (represent (bigEndian ^^ stored) size) := by
  have hes (machine : Bool) : ∀ e ∈ ns.map (represent machine size), e.length = size :=
    List.forall_mem_map.mpr fun n _ => length_represent machine size n
  have hlength (machine : Bool) :
      (ns.map (represent machine size)).flatten.length = ns.length * size := by
    rw [length_flatten_of_forall (hes machine), List.length_map]
  have hswap := maybeSwapEndian_represent hsize bigEndian stored ns
  refine ⟨⟨some (ns.map (represent (bigEndian ^^ stored) size)).flatten, ns.length⟩, ?_, rfl, ?_⟩
  · rw [coerceIndividual, Option.getD_some, hswap]
    simp only [hlength, Nat.mul_div_cancel _ hsize, ne_eq, not_true_eq_false, if_false,
      Option.map_some]
  · have hall := elements_flatten (hes (bigEndian ^^ stored))
    rwa [List.length_map] at hall

namespace Gtar

variable {F : FileFormat σ ε φ} {Quiet : ε → Prop} {Fits : Store → Prop}
  {Keeps : OnDisk φ → OpenMode → σ → Store → Prop} {Settled : σ → Prop} {Holds : φ → Store → Prop}

/-- Numbers are written to a path with `writeIndividual`, or one with `writeUniform`, which hand `bytes`
to `writePtr`, and this is the last write to the path in a history of ordinary sessions. Whoever opens
the file after that reads as many elements, and these are the numbers on his machine exactly if both
sides have swapped them to the same order, or swapping does not matter to any of them. `readUniform`
has the same memory, if there are elements. -/
theorem readIndividual_portable_iff (hF : F.Persists Quiet Fits Keeps Settled Holds)
    {history : List (Session ε)} (hordinary : Along (sessionStep (storeFormat ε))
      (Ordinary Quiet Fits) .absent history) {log : Store}
    (hlog : exec (sessionStep (storeFormat ε)) .absent history = .file log) (hfits : Fits log)
    {size : ℕ} (hsize : 0 < size) {ns : List ℕ} (hns : ∀ n ∈ ns, n < 256 ^ size)
    (bigEndian machine bigEndian' machine' : Bool) {path bytes : Bytes}
    (hbytes : maybeSwapEndian bigEndian size (ns.map (represent machine size)).flatten = .ok bytes)
    (hlast : lastWrite log path = some bytes) {env : ε} (hquiet : Quiet env) :
    (∀ (g : Gtar σ) mode immediate env,
      g.writeIndividual bigEndian size F.backend path (ns.map (represent machine size)) mode immediate
          env = g.writePtr F.backend path bytes mode immediate env) ∧
    (∀ n, ns = [n] → ∀ (g : Gtar σ) immediate env,
      g.writeUniform bigEndian size F.backend path (represent machine size n) immediate env =
        g.writePtr F.backend path bytes .noCompress immediate env) ∧
    ∃ g a, ofFile F .read (exec (sessionStep F) .absent history) = some (.ok g) ∧
      (readIndividual bigEndian' size F.backend g path env).2 = .array a ∧ a.size = ns.length ∧
      ((a.elements size).map (numberOf machine') = ns ↔
        (bigEndian ^^ machine) = (bigEndian' ^^ machine') ∨
          ∀ n ∈ ns, (represent machine' size n).reverse = represent machine' size n) ∧
      (readUniform bigEndian' size F.backend g path env).2 =
        .array (if a.size * size = 0 then ⟨none, 0⟩ else ⟨a.target, a.size * size⟩) := by
  rw [maybeSwapEndian_represent hsize, Except.ok.injEq] at hbytes
  subst hbytes
  have hwrite (g : Gtar σ) := g.writeIndividual_represent hsize bigEndian machine F.backend path ns
  refine ⟨hwrite, ?_, ?_⟩
  · rintro n rfl g immediate env
    rw [g.writeUniform_represent, hwrite]
  obtain ⟨hsame, -⟩ := sessions_as_store hF .absent history hordinary
  rw [hlog] at hsame
  have hsession : Ordinary Quiet Fits (.file log) (⟨.read, []⟩ : Session ε) := by
    refine ⟨fun _ => ⟨⟨log, rfl⟩, rfl⟩, rfl, by simp, ?_⟩
    rwa [writesIn, List.filterMap_nil, List.append_nil]
  obtain ⟨g, hopen, -, hfollows⟩ := exists_ofFile hF hsame hsession
  obtain ⟨s, log', hs, hlog', hkeeps, -⟩ := hfollows.archives
  rw [archive_ofArchive, Option.some.injEq] at hlog'
  obtain ⟨hanswer, -, -⟩ := hF.read path hkeeps hquiet
  have hsamelog : log = log' := hlog'
  rw [← hsamelog, hlast] at hanswer
  obtain ⟨a, hcoerce, hcount, helements⟩ :=
    coerceIndividual_represent hsize bigEndian' (bigEndian ^^ machine) ns
  -- Both functions make something of what the archive has.
  have hread (coerce : Option Bytes → TypedAnswer) : (readTyped coerce F.backend g path env).2 =
      coerce (some (ns.map (represent (bigEndian ^^ machine) size)).flatten) := by
    rw [readTyped, hs]
    dsimp only
    rw [hanswer]
  refine ⟨g, a, hopen, (hread _).trans hcoerce, hcount, ?_,
    (hread _).trans (coerceUniform_of_coerceIndividual hcoerce)⟩
  rw [helements, map_numberOf_eq_iff _ _ hns]
  refine or_congr_left ?_
  cases bigEndian <;> cases machine <;> cases bigEndian' <;> cases machine' <;> decide

/-- A number of two bytes, written on a little-endian machine and read on a big-endian one. -/
theorem number_not_portable :
    ∃ g a, ofFile (zipFormat (lit "t.zip") []) .read
        (exec (sessionStep (zipFormat (lit "t.zip") [])) .absent
          [⟨.write, [(.write .ptr (lit "n.u16.uni") [1, 0] .noCompress, {})]⟩]) = some (.ok g) ∧
      (readIndividual isBigEndian 2 (zipFormat (lit "t.zip") []).backend g (lit "n.u16.uni") {}).2 =
        .array a ∧ a.size = 1 ∧ (a.elements 2).map (numberOf true) ≠ [1] := by
  have hordinary : Along (sessionStep (storeFormat ZipEnv))
      (Ordinary (fun env => env.error = none) ZipArchive.Fits) .absent
      [⟨.write, [(.write .ptr (lit "n.u16.uni") [1, 0] .noCompress, {})]⟩] := by
    refine ⟨⟨OpenMode.noConfusion, by decide, ?_, by decide, by decide +kernel⟩, trivial⟩
    simp
  have hlog : exec (sessionStep (storeFormat ZipEnv)) .absent
      [⟨.write, [(.write .ptr (lit "n.u16.uni") [1, 0] .noCompress, {})]⟩] =
        .file [(lit "n.u16.uni", [1, 0])] := rfl
  have hfits : ZipArchive.Fits [(lit "n.u16.uni", [1, 0])] := ⟨by decide, by decide +kernel⟩
  have hlast : lastWrite ([(lit "n.u16.uni", [1, 0])] : Store) (lit "n.u16.uni") = some [1, 0] := by
    decide +kernel
  have hbytes : maybeSwapEndian isBigEndian 2 ([1].map (represent false 2)).flatten = .ok [1, 0] :=
    rfl
  obtain ⟨-, -, g, a, hopen, hread, hcount, hiff, -⟩ :=
    readIndividual_portable_iff (zipFormat_persists (lit "t.zip") []) hordinary hlog hfits
      (show 0 < 2 by decide) (show ∀ n ∈ [1], n < 256 ^ 2 by decide) isBigEndian false isBigEndian
      true hbytes hlast (show ({} : ZipEnv).error = none from rfl)
  exact ⟨g, a, hopen, hread, hcount, fun hnumber => absurd (hiff.mp hnumber) (by decide)⟩

end Gtar

end Libgetar
