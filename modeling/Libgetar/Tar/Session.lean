import Libgetar.Tar.Scan

/-!
# One session on a tar file

Any interleaving of `writePtr` and `read` on an archive that is open for writing. `layoutStep` says
what a call means for the list of entries: an accepted write appends its record, and the answer is
that of the `Store` with the contents of the entries. One call of the archive follows it
(`Session.step`), so a run does as long as the records fit in a file (`Session.run`).

`write_session_refines_store` is the result for a new file.
-/

namespace Libgetar

open Lib

namespace TarArchive

/-- The archive takes the call: it is a read, or a write to a path that is not refused. -/
def takes : Call → Bool
  | .writePtr w => (refuses w.path).isNone
  | .read _ => true

/-- The entry that a call makes. -/
def record? (c : Call × TarEnv) : Option Entry :=
  match c.1 with
  | .writePtr w => if takes c.1 then some (recordOf w c.2) else none
  | .read _ => none

/-- The entries that the calls make. -/
def records (calls : List (Call × TarEnv)) : List Entry := calls.filterMap record?

/-- What a call does to the entries of the file, and its answer. -/
def layoutStep (es : List Entry) (c : Call × TarEnv) : List Entry × Answer :=
  (es ++ (record? c).toList, (Store.step refuses (contents es) c.1).2)

/-! ## The entries and the store -/

theorem layoutStep_read (es : List Entry) (path : Bytes) (env : TarEnv) :
    layoutStep es (.read path, env) = (es, .array (lastWrite (contents es) path)) := by
  simp [layoutStep, record?, Store.step]

theorem layoutStep_refused (es : List Entry) {w : Write} (env : TarEnv) {message : Bytes}
    (h : refuses w.path = some message) :
    layoutStep es (.writePtr w, env) = (es, .threw message) := by
  simp [layoutStep, record?, takes, Store.step, h]

theorem layoutStep_accepted (es : List Entry) {w : Write} (env : TarEnv) (h : refuses w.path = none) :
    layoutStep es (.writePtr w, env) = (es ++ [recordOf w env], .done) := by
  simp [layoutStep, record?, takes, Store.step, h]

theorem exec_layoutStep (es : List Entry) (calls : List (Call × TarEnv)) :
    exec layoutStep es calls = es ++ records calls := by
  induction calls generalizing es with
  | nil => simp [records]
  | cons c calls ih =>
    rw [exec_cons, ih, layoutStep, records, records, List.filterMap_cons]
    cases record? c with
    | none => simp
    | some e => simp

theorem records_append (calls calls' : List (Call × TarEnv)) :
    records (calls ++ calls') = records calls ++ records calls' :=
  List.filterMap_append

/-- The contents of the entries are the store after the call. -/
theorem contents_layoutStep (es : List Entry) (c : Call × TarEnv) :
    contents (layoutStep es c).1 = (Store.step refuses (contents es) c.1).1 := by
  obtain ⟨call, env⟩ := c
  cases call with
  | read path => rw [layoutStep_read, Store.step]
  | writePtr w =>
    cases hrefuses : refuses w.path with
    | some message => rw [layoutStep_refused es env hrefuses, Store.step, hrefuses]
    | none =>
      rw [layoutStep_accepted es env hrefuses, Store.step, hrefuses]
      simp only [contents, List.map_append, List.map_singleton]
      rfl

theorem outputs_layoutStep (es : List Entry) (calls : List (Call × TarEnv)) :
    outputs layoutStep es calls =
      outputs (Store.step refuses) (contents es) (calls.map Prod.fst) := by
  induction calls generalizing es with
  | nil => rfl
  | cons c calls ih =>
    rw [outputs_cons, List.map_cons, outputs_cons, ih, contents_layoutStep]
    rfl

/-- Calls that are not taken make no entry. -/
theorem records_filter_takes (calls : List (Call × TarEnv)) :
    records (calls.filter fun c => takes c.1) = records calls := by
  rw [records, records, List.filterMap_filter]
  congr 1
  funext c
  obtain ⟨call, env⟩ := c
  cases call with
  | read path => rfl
  | writePtr w => by_cases htakes : takes (.writePtr w) = true <;> simp [record?, htakes]

/-! ## The archive follows the entries -/

/-- An archive that is open for writing on the entries, with at most `n` bytes behind them. -/
def Session (n : ℕ) (a : TarArchive) (es : List Entry) : Prop :=
  a.mode ≠ .read ∧ ∃ tail : Bytes, tail.length ≤ n ∧ Holds a es tail

/-- One call. -/
theorem Session.step {n : ℕ} {a : TarArchive} {es : List Entry} (h : Session n a es)
    (c : Call × TarEnv) (hfit : (image (layoutStep es c).1).length < maxOffset) :
    Session n (step a c).1 (layoutStep es c).1 ∧ (TarArchive.step a c).2 = (layoutStep es c).2 := by
  obtain ⟨hmode, tail, htail, hholds⟩ := h
  obtain ⟨call, env⟩ := c
  cases call with
  | read path =>
    obtain ⟨hread, hnext⟩ := hholds.read path env
    rw [layoutStep_read]
    refine ⟨⟨?_, tail, htail, hnext⟩, congrArg Answer.array hread⟩
    rw [TarArchive.step, mode_read]
    exact hmode
  | writePtr w =>
    cases hrefuses : refuses w.path with
    | some message =>
      obtain ⟨hanswer, hnext, hsame⟩ := hholds.writePtr_refused hmode env hrefuses
      rw [layoutStep_refused es env hrefuses]
      exact ⟨⟨hsame ▸ hmode, tail, htail, hnext⟩, hanswer⟩
    | none =>
      rw [layoutStep_accepted es env hrefuses] at hfit ⊢
      rw [image_append, image_singleton, List.length_append, Entry.length_bytes] at hfit
      obtain ⟨hanswer, hnext, hsame⟩ := hholds.writePtr_accepted hmode env hrefuses hfit
      refine ⟨⟨hsame ▸ hmode, _, ?_, hnext⟩, hanswer⟩
      rw [List.length_drop]
      omega

/-- Every run whose records fit in a file. -/
theorem Session.run {n : ℕ} {a : TarArchive} {es : List Entry} (h : Session n a es)
    (calls : List (Call × TarEnv)) (hfit : (image (es ++ records calls)).length < maxOffset) :
    Session n (exec TarArchive.step a calls) (es ++ records calls) ∧
      outputs TarArchive.step a calls =
        outputs (Store.step refuses) (contents es) (calls.map Prod.fst) := by
  have hback : ∀ (es : List Entry) (c : Call × TarEnv),
      (image (layoutStep es c).1).length < maxOffset → (image es).length < maxOffset := by
    intro es c hlen
    rw [layoutStep, image_append, List.length_append] at hlen
    omega
  have hend : (image (exec layoutStep es calls)).length < maxOffset := by
    rw [exec_layoutStep]
    exact hfit
  rw [← exec_layoutStep, ← outputs_layoutStep]
  exact simulates (R := Session n) (A := fun _ => True)
    (G := fun es => (image es).length < maxOffset) hback
    (fun a es c _ hses hlen => hses.step c hlen) h (fun _ _ => trivial) hend

/-- A new file is open for writing on no entries. -/
theorem ofFile_write (filename : Bytes) (disk : Option Bytes) :
    ∃ a, (∀ fuel, 2 ≤ fuel → ofFile fuel filename .write disk = some (.ok a)) ∧
      Session 0 a [] := by
  have hopen : openFile .write disk = some { bytes := [], out := true } := by
    unfold openFile
    split
    · rfl
    all_goals contradiction
  have hbytes : ([] : Bytes) = image [] ++ [] := rfl
  obtain ⟨a, hfile, hholds, hmode⟩ :=
    ofFile_holds hopen hbytes (by simp) (Or.inl rfl) (by decide) filename
  exact ⟨a, hfile, by rw [hmode]; decide, [], le_refl 0, hholds⟩

/-- Behind nothing, an archive is open exactly on its entries. -/
theorem Session.bytes {a : TarArchive} {es : List Entry} (h : Session 0 a es) :
    a.file.bytes = image es ∧ a.fileNames = es.map Entry.name ∧
      a.maxPosition = (image es).length := by
  obtain ⟨-, tail, htail, hholds⟩ := h
  have hnil : tail = [] := List.length_eq_zero_iff.mp (by omega)
  rw [hnil] at hholds
  exact ⟨by rw [hholds.bytes, List.append_nil], hholds.names, hholds.maxPosition⟩

/-- The entries end at a multiple of 512. -/
theorem length_image_mod (es : List Entry) : (image es).length % 512 = 0 := by
  induction es with
  | nil => rfl
  | cons e es ih =>
    have hpad := add_padLength e.data.length
    rw [image_cons, List.length_append, e.length_bytes, Entry.length, headerLength]
    omega

/-- Calls that the store does not take can be left out of its runs. -/
theorem store_filter_takes (log : Store) (calls : List Call) :
    outputs (Store.step refuses) log (calls.filter takes) =
      (outputs (Store.step refuses) log calls).filter Answer.isNormal := by
  have hkept : ∀ (log : Store) (c : Call), (Store.step refuses log c).2.isNormal = takes c := by
    intro log c
    cases c with
    | read path => rfl
    | writePtr w =>
      rw [Store.step, takes]
      cases refuses w.path with
      | some message => rfl
      | none => rfl
  have hskip : ∀ (log : Store) (c : Call), takes c = false → (Store.step refuses log c).1 = log := by
    intro log c hc
    cases c with
    | read path => rfl
    | writePtr w =>
      rw [takes] at hc
      rw [Store.step]
      cases hrefuses : refuses w.path with
      | some message => rfl
      | none => rw [hrefuses] at hc; exact absurd hc (by decide)
  exact (outputs_filter hkept hskip log calls).2

/-- In a new file, over every interleaving of writes and reads whose records fit in a file:
every call answers as the store does, the file consists of the records, the next record goes right
behind them, and leaving out the writes that throw changes neither the file nor the names nor the
answers of the other calls. -/
theorem write_session_refines_store (filename : Bytes) (disk : Option Bytes)
    (calls : List (Call × TarEnv)) (hfit : (image (records calls)).length < maxOffset) :
    ∃ a, (∀ fuel, 2 ≤ fuel → ofFile fuel filename .write disk = some (.ok a)) ∧
      let b := exec step a calls
      let kept := calls.filter fun c => takes c.1
      outputs step a calls = outputs (Store.step refuses) [] (calls.map Prod.fst) ∧
      b.file.bytes = image (records calls) ∧
      (b.maxPosition = b.file.bytes.length ∧ b.maxPosition % 512 = 0) ∧
      (∀ w env, refuses w.path = none →
        (b.file.bytes ++ (recordOf w env).bytes).length < maxOffset →
        (b.writePtr w env).1.file.bytes = b.file.bytes ++ (recordOf w env).bytes) ∧
      (exec step a kept).file.bytes = b.file.bytes ∧
      (exec step a kept).fileNames = b.fileNames ∧
      outputs step a kept = (outputs step a calls).filter Answer.isNormal := by
  obtain ⟨a, hfile, hnew⟩ := ofFile_write filename disk
  obtain ⟨hrun, hanswers⟩ := hnew.run calls (by rw [List.nil_append]; exact hfit)
  obtain ⟨hkept, hkeptAnswers⟩ := hnew.run (calls.filter fun c => takes c.1)
    (by rw [List.nil_append, records_filter_takes]; exact hfit)
  rw [records_filter_takes] at hkept
  rw [List.nil_append] at hrun hkept
  obtain ⟨hbytes, hnames, hmax⟩ := hrun.bytes
  obtain ⟨hbytes', hnames', -⟩ := hkept.bytes
  refine ⟨a, hfile, hanswers, hbytes, ⟨by rw [hmax, hbytes], ?_⟩, ?_, ?_, ?_, ?_⟩
  · rw [hmax]
    exact length_image_mod _
  · -- One more accepted write.
    intro w env hrefuses hlen
    have himage : image (records calls) ++ (recordOf w env).bytes =
        image (records calls ++ [recordOf w env]) := by
      rw [image_append, image_singleton]
    rw [hbytes, himage] at hlen ⊢
    have hlayout := layoutStep_accepted (records calls) env hrefuses
    obtain ⟨hnext, -⟩ := hrun.step (.writePtr w, env) (by rw [hlayout]; exact hlen)
    rw [hlayout] at hnext
    exact hnext.bytes.1
  · rw [hbytes, hbytes']
  · rw [hnames, hnames']
  · have hmap : (calls.filter fun c => takes c.1).map Prod.fst = (calls.map Prod.fst).filter takes := by
      rw [List.filter_map]
      rfl
    rw [hkeptAnswers, hanswers, hmap]
    exact store_filter_takes _ _

/-- A write, a read, a refused write, an overwrite with nothing, and reads again. -/
theorem write_session_overwrite :
    ∃ a, ofFile 2 (lit "a.tar") .write none = some (.ok a) ∧
      outputs step a [(.writePtr ⟨lit "a", lit "hi", .noCompress, false⟩, { now := 0 }),
        (.read (lit "a"), { now := 0 }),
        (.writePtr ⟨List.replicate 300 97, lit "no", .noCompress, true⟩, { now := 0 }),
        (.writePtr ⟨lit "a", [], .noCompress, true⟩, { now := 1 }),
        (.read (lit "a"), { now := 1 }), (.read (lit "b"), { now := 1 })] =
      [.done, .array (some (lit "hi")), .threw (nameTooLong (List.replicate 300 97)), .done,
        .array (some []), .array none] := by
  let calls : List (Call × TarEnv) :=
    [(.writePtr ⟨lit "a", lit "hi", .noCompress, false⟩, { now := 0 }),
      (.read (lit "a"), { now := 0 }),
      (.writePtr ⟨List.replicate 300 97, lit "no", .noCompress, true⟩, { now := 0 }),
      (.writePtr ⟨lit "a", [], .noCompress, true⟩, { now := 1 }),
      (.read (lit "a"), { now := 1 }), (.read (lit "b"), { now := 1 })]
  have hlong : refuses (List.replicate 300 97) = some (nameTooLong (List.replicate 300 97)) := by
    rw [refuses, if_pos (by rw [List.length_replicate]; decide)]
  have hshort : refuses (lit "a") = none := rfl
  have hrecords : records calls =
      [recordOf ⟨lit "a", lit "hi", .noCompress, false⟩ { now := 0 },
        recordOf ⟨lit "a", [], .noCompress, true⟩ { now := 1 }] := by
    simp only [records, calls, List.filterMap_cons, List.filterMap_nil, record?, takes, hlong,
      hshort, Option.isNone_none, Option.isNone_some, Bool.false_eq_true, if_true, if_false]
  have hfit : (image (records calls)).length < maxOffset := by
    rw [hrecords]
    simp only [image_cons, image_nil, List.length_append, Entry.length_bytes]
    decide
  obtain ⟨a, hfile, hanswers, -⟩ := write_session_refines_store (lit "a.tar") none calls hfit
  refine ⟨a, hfile 2 (le_refl 2), hanswers.trans ?_⟩
  simp only [calls, List.map_cons, List.map_nil, outputs_cons, outputs_nil, Store.step, hlong,
    hshort]
  rfl

end TarArchive

end Libgetar
