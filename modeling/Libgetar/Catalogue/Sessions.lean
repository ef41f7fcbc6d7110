import Libgetar.Sqlite.Bulk

/-!
# Sessions

A file is opened, calls are made, the file is closed, and later it is opened again. A `FileFormat` is
a backend with its constructor and its destructor; `Gtar.ofFile` is the constructor of `GTAR` behind
the choice of the format; and `Gtar.sessionStep` is a session, of which the user has a `Report`: the
answers to the calls, and the catalogue in the end.

What the files are for is said by `storeFormat`, whose files are the logs of what was written.
`FileFormat.Persists` is what a format has to meet: its archives keep a log between two calls, and
what is kept is still there when the file is opened again. The constructor may list the paths in
another order than they were written in, and each any number of times, because the catalogue depends
on the set of the paths only (`Lists.records_eq`). So over every history of ordinary sessions a file
reports what the log does (`sessions_as_store`).
-/

namespace Libgetar

open Lib

variable {σ ε φ : Type*}

/-- What is found under a file name. -/
inductive OnDisk (φ : Type*) where
  | absent
  | empty
  | file (f : φ)

/-- A format of files: the class of its archives with the constructor, where `none` stands for one
that is still running, and with what the destructor leaves of what was there. -/
structure FileFormat (σ ε φ : Type*) where
  backend : Backend σ ε
  ofFile : OpenMode → OnDisk φ → Option (Except Bytes σ)
  close : σ → OnDisk φ → OnDisk φ

/-- The store as a format. Its files are the logs, and it takes nothing from its surroundings. -/
def storeFormat (ε : Type*) : FileFormat Store ε Store where
  backend := {
    writePtr := fun log w _ => log.step (fun _ => none) (.writePtr w)
    beginBulkWrites := fun log _ => log
    endBulkWrites := fun log _ => log
    read := fun log path _ => log.step (fun _ => none) (.read path)
    size := (storeBackend fun _ => none).size
    getItemName := (storeBackend fun _ => none).getItemName }
  ofFile mode disk :=
    match mode, disk with
    | .write, _ => some (.ok [])
    | _, .file log => some (.ok log)
    | _, _ => some (.error (lit "Error opening file"))
  close log _ := .file log

/-! ## Opening and closing -/

/-- What a session shows to its user. -/
structure Report where
  answers : List Answer
  catalogue : List (Record × List Bytes)
deriving DecidableEq

/-- The calls between opening a file and closing it. -/
structure Session (ε : Type*) where
  mode : OpenMode
  calls : List (WriterOp × ε)

namespace Gtar

/-- A file that does not exist, or is empty, is not appended to. -/
def realMode (mode : OpenMode) (disk : OnDisk φ) : OpenMode :=
  match mode, disk with
  | .append, .file _ => .append
  | .append, _ => .write
  | mode, _ => mode

/-- Only a file that is to be read is opened for reading. -/
theorem eq_read_of_realMode {mode : OpenMode} {disk : OnDisk φ} (h : realMode mode disk = .read) :
    mode = .read := by
  cases mode with
  | read => rfl
  | write => cases h
  | append => cases disk <;> cases h

/-- The constructor, behind the choice of the format. -/
def ofFile (F : FileFormat σ ε φ) (mode : OpenMode) (disk : OnDisk φ) : Option (Except Bytes (Gtar σ)) :=
  (F.ofFile (realMode mode disk) disk).map fun opened => opened.map (ofArchive F.backend)

/-- Every record type with its frames. -/
def catalogue (g : Gtar σ) : List (Record × List Bytes) :=
  g.getRecordTypes.map fun r => (r, g.queryFrames r)

/-- One session. A file that cannot be opened is left as it is. -/
def sessionStep (F : FileFormat σ ε φ) (disk : OnDisk φ) (session : Session ε) :
    OnDisk φ × Option (Except Bytes Report) :=
  match ofFile F session.mode disk with
  | none => (disk, none)
  | some (.error message) => (disk, some (.error message))
  | some (.ok g) =>
    let closing := exec (writerStep F.backend) g session.calls
    (closing.archive.elim disk fun archive => F.close archive disk,
      some (.ok ⟨outputs (writerStep F.backend) g session.calls, closing.catalogue⟩))

end Gtar

/-! ## The laws of a format -/

/-- What a call writes. -/
def WriterOp.written? : WriterOp → Option (Bytes × Bytes)
  | .bulkWrite _ _ path contents _ => some (path, contents)
  | .write _ path contents _ => some (path, contents)
  | _ => none

/-- What the calls write, the oldest first. -/
def writesIn (calls : List (WriterOp × ε)) : Store := calls.filterMap fun c => c.1.written?

theorem writesIn_cons (op : WriterOp) (env : ε) (calls : List (WriterOp × ε)) :
    writesIn ((op, env) :: calls) = op.written?.toList ++ writesIn calls := by
  unfold writesIn
  rw [List.filterMap_cons]
  cases op.written? with
  | none => rfl
  | some e => rfl

/-- A format whose archives keep logs that fit, as long as the surroundings are quiet. `Keeps` says
which log an archive has that was opened in a mode on what was on the disk, `Settled` that its log is
in the file when it is closed, and `Holds` which log a file has. -/
structure FileFormat.Persists (F : FileFormat σ ε φ) (Quiet : ε → Prop) (Fits : Store → Prop)
    (Keeps : OnDisk φ → OpenMode → σ → Store → Prop) (Settled : σ → Prop)
    (Holds : φ → Store → Prop) : Prop where
  length_lt : ∀ {log}, Fits log → log.length < 2 ^ 32
  fits_of_append : ∀ {log log'}, Fits (log ++ log') → Fits log
  create : ∀ disk, ∃ s, F.ofFile .write disk = some (.ok s) ∧ Keeps disk .write s [] ∧ Settled s ∧
    Gtar.Names F.backend s []
  reopen : ∀ {mode f log}, mode ≠ .write → Fits log → Holds f log → ∃ s names,
    F.ofFile mode (.file f) = some (.ok s) ∧ Keeps (.file f) mode s log ∧ Settled s ∧
      Gtar.Names F.backend s names ∧ names.length < 2 ^ 32 ∧
      ∀ path, path ∈ names ↔ path ∈ log.map Prod.fst
  writePtr : ∀ {disk mode s log} {w : Write} {env}, Keeps disk mode s log → mode ≠ .read →
    Fits (log ++ [(w.path, w.contents)]) → Quiet env →
    (F.backend.writePtr s w env).2 = .done ∧
      Keeps disk mode (F.backend.writePtr s w env).1 (log ++ [(w.path, w.contents)]) ∧
      (w.immediate = true → Settled (F.backend.writePtr s w env).1)
  beginBulkWrites : ∀ {disk mode s log env}, Keeps disk mode s log → Quiet env →
    Keeps disk mode (F.backend.beginBulkWrites s env) log
  endBulkWrites : ∀ {disk mode s log env}, Keeps disk mode s log → Quiet env →
    Keeps disk mode (F.backend.endBulkWrites s env) log ∧ Settled (F.backend.endBulkWrites s env)
  read : ∀ {disk mode s log env} path, Keeps disk mode s log → Quiet env →
    (F.backend.read s path env).2 = .array (lastWrite log path) ∧
      Keeps disk mode (F.backend.read s path env).1 log ∧
      (Settled s → Settled (F.backend.read s path env).1)
  close : ∀ {disk mode s log}, Keeps disk mode s log → Settled s →
    ∃ f, F.close s disk = .file f ∧ Holds f log

namespace Gtar

/-! ## Catalogues with the same paths -/

/-- The catalogue depends on the set of the paths only. -/
theorem Lists.records_eq {τ : Type*} {g : Gtar σ} {g' : Gtar τ} {paths paths' : List Bytes}
    (h : Lists g paths) (h' : Lists g' paths') (hsame : ∀ p, p ∈ paths ↔ p ∈ paths') :
    g.records = g'.records := by
  have hkeys (r : Record) : r ∈ g.records.keys ↔ r ∈ g'.records.keys := by
    rw [h.types, h'.types]
    simp only [hsame]
  have hframes (r : Record) (i : Bytes) :
      i ∈ StdSet.toList ((g.records.find? r).getD .empty) ↔
        i ∈ StdSet.toList ((g'.records.find? r).getD .empty) := by
    rw [h.frames, h'.frames]
    simp only [hsame]
  refine StdMap.ext_find? fun r => ?_
  specialize hkeys r
  specialize hframes r
  rw [StdMap.mem_keys_iff, StdMap.mem_keys_iff] at hkeys
  cases hr : g.records.find? r with
  | none =>
    cases hr' : g'.records.find? r with
    | none => rfl
    | some indices' =>
      obtain ⟨indices, hindices⟩ := hkeys.mpr ⟨indices', hr'⟩
      rw [hr] at hindices
      cases hindices
  | some indices =>
    obtain ⟨indices', hr'⟩ := hkeys.mp ⟨indices, hr⟩
    rw [hr, hr'] at hframes
    rw [hr']
    exact congrArg some (StdSet.ext_mem hframes)

/-- With the same records, the catalogues are the same. -/
theorem catalogue_congr {τ : Type*} {g : Gtar σ} {g' : Gtar τ} (h : g.records = g'.records) :
    g.catalogue = g'.catalogue := by
  unfold catalogue getRecordTypes queryFrames
  rw [h]

/-! ## The calls of a session -/

/-- An archive with a catalogue follows a store: it keeps what the store has. Outside all lifetimes of
`BulkWriter`s it is settled. -/
structure Follows (Keeps : σ → Store → Prop) (Settled : σ → Prop) (ids : List ℕ) (g : Gtar σ)
    (g' : Gtar Store) : Prop where
  records : g.records = g'.records
  archives : ∃ s log, g.archive = some s ∧ g'.archive = some log ∧ Keeps s log ∧
    (ids = [] → Settled s)

variable {F : FileFormat σ ε φ} {Quiet : ε → Prop} {Fits : Store → Prop}
  {Keeps : OnDisk φ → OpenMode → σ → Store → Prop} {Settled : σ → Prop} {Holds : φ → Store → Prop}
  {disk : OnDisk φ} {mode : OpenMode} {ids : List ℕ} {g : Gtar σ} {g' : Gtar Store}

/-- A write on the side of the store. -/
theorem write_store {log : Store} (hg' : g'.archive = some log) (function : Bytes) (w : Write)
    (env : ε) : g'.write function (storeFormat ε).backend w env =
      ({ g' with archive := some (log ++ [(w.path, w.contents)]) }.insertRecord w.path, .done) := by
  simp only [Gtar.write, hg', storeFormat, Store.step, if_true]

/-- One write, immediate or through a `BulkWriter` that is alive. -/
theorem Follows.write (hF : F.Persists Quiet Fits Keeps Settled Holds)
    (h : Follows (Keeps disk mode) Settled ids g g') (hmode : mode ≠ .read) {log : Store}
    (hlog : g'.archive = some log) (kind : WriteKind) {path contents : Bytes} (compress : CompressMode)
    {immediate : Bool} (hids : immediate = false → ids ≠ []) (hfits : Fits (log ++ [(path, contents)]))
    {env : ε} (hquiet : Quiet env) :
    let op : GtarOp := .write kind path contents compress immediate
    (step F.backend g (op, env)).2 = (step (storeFormat ε).backend g' (op, env)).2 ∧
      Follows (Keeps disk mode) Settled ids (step F.backend g (op, env)).1
        (step (storeFormat ε).backend g' (op, env)).1 ∧
      (step (storeFormat ε).backend g' (op, env)).1.archive = some (log ++ [(path, contents)]) := by
  intro op
  obtain ⟨s, log', hs, hlog', hkeeps, -⟩ := h.archives
  obtain rfl : log' = log := Option.some.inj (hlog'.symm.trans hlog)
  obtain ⟨_, hstep⟩ := step_write F.backend g kind path contents compress immediate env
  obtain ⟨_, hstep'⟩ := step_write (storeFormat ε).backend g' kind path contents compress immediate env
  obtain ⟨hdone, hnext, hsettled⟩ :=
    hF.writePtr (w := ⟨path, contents, compress, immediate⟩) hkeeps hmode hfits hquiet
  rw [hstep, hstep', write_store hlog]
  simp only [Gtar.write, hs, hdone, if_true]
  refine ⟨trivial, ⟨?_, _, _, rfl, rfl, hnext, fun hnil => hsettled ?_⟩, rfl⟩
  · simp only [insertRecord, h.records]
  · -- A write that is not immediate is made while a `BulkWriter` is alive.
    cases immediate with
    | true => rfl
    | false => exact absurd hnil (hids rfl)

/-- One call. -/
theorem Follows.step (hF : F.Persists Quiet Fits Keeps Settled Holds)
    (h : Follows (Keeps disk mode) Settled ids g g') {log : Store} (hlog : g'.archive = some log)
    {op : WriterOp} (hop : Possible ids op) (hmode : op.written? ≠ none → mode ≠ .read)
    (hfits : Fits (log ++ op.written?.toList)) {env : ε} (hquiet : Quiet env) :
    (writerStep F.backend g (op, env)).2 = (writerStep (storeFormat ε).backend g' (op, env)).2 ∧
      Follows (Keeps disk mode) Settled (alive ids op) (writerStep F.backend g (op, env)).1
        (writerStep (storeFormat ε).backend g' (op, env)).1 ∧
      (writerStep (storeFormat ε).backend g' (op, env)).1.archive = some (log ++ op.written?.toList) := by
  obtain ⟨s, log', hs, hlog', hkeeps, hsettled⟩ := h.archives
  obtain rfl : log' = log := Option.some.inj (hlog'.symm.trans hlog)
  cases op with
  | construct id =>
    simp only [writerStep, Gtar.beginBulkWrites, hs, hlog, WriterOp.written?, Option.toList_none,
      List.append_nil]
    refine ⟨trivial, ⟨h.records, _, _, rfl, rfl, hF.beginBulkWrites hkeeps hquiet, fun hnil => ?_⟩,
      rfl⟩
    cases hnil
  | destroy id =>
    simp only [writerStep, Gtar.endBulkWrites, hs, hlog, WriterOp.written?, Option.toList_none,
      List.append_nil]
    obtain ⟨hnext, hend⟩ := hF.endBulkWrites hkeeps hquiet
    exact ⟨trivial, ⟨h.records, _, _, rfl, rfl, hnext, fun _ => hend⟩, rfl⟩
  | bulkWrite id kind path contents compress =>
    exact h.write hF (hmode (Option.some_ne_none _)) hlog kind compress
      (fun _ => List.ne_nil_of_mem hop) hfits hquiet
  | write kind path contents compress =>
    exact h.write hF (hmode (Option.some_ne_none _)) hlog kind compress
      (fun hfalse => Bool.noConfusion hfalse) hfits hquiet
  | readBytes path =>
    obtain ⟨hanswer, hnext, hstill⟩ := hF.read path hkeeps hquiet
    simp only [writerStep, Gtar.readBytes, hs, hlog, WriterOp.written?, Option.toList_none,
      List.append_nil]
    exact ⟨hanswer, ⟨h.records, _, _, rfl, rfl, hnext, fun hnil => hstill (hsettled hnil)⟩, rfl⟩

/-- The calls of a session, in which all `BulkWriter`s end. -/
theorem Follows.run (hF : F.Persists Quiet Fits Keeps Settled Holds)
    {calls : List (WriterOp × ε)} : ∀ {ids : List ℕ} {g : Gtar σ} {g' : Gtar Store} {log : Store},
    Follows (Keeps disk mode) Settled ids g g' → g'.archive = some log →
    Lifetimes ids (calls.map Prod.fst) → (mode = .read → writesIn calls = []) →
    Fits (log ++ writesIn calls) → (∀ c ∈ calls, Quiet c.2) →
    outputs (writerStep F.backend) g calls =
        outputs (writerStep (storeFormat ε).backend) g' calls ∧
      Follows (Keeps disk mode) Settled [] (exec (writerStep F.backend) g calls)
        (exec (writerStep (storeFormat ε).backend) g' calls) ∧
      (exec (writerStep (storeFormat ε).backend) g' calls).archive = some (log ++ writesIn calls) := by
  induction calls with
  | nil =>
    rintro ids g g' log h hlog rfl _ _ _
    rw [writesIn, List.filterMap_nil, List.append_nil]
    exact ⟨rfl, h, hlog⟩
  | cons c calls ih =>
    obtain ⟨op, env⟩ := c
    rintro ids g g' log h hlog ⟨hop, hlater⟩ hread hfits hquiet
    obtain ⟨hfirst, hquiet⟩ := List.forall_mem_cons.mp hquiet
    have hwrites := writesIn_cons op env calls
    rw [hwrites, ← List.append_assoc] at hfits
    rw [hwrites] at hread
    have hmode : op.written? ≠ none → mode ≠ .read := by
      intro hwrite hm
      have hnil := (List.append_eq_nil_iff.mp (hread hm)).1
      exact hwrite (by simpa using hnil)
    obtain ⟨hanswer, hnext, hlog'⟩ :=
      h.step hF hlog hop hmode (hF.fits_of_append hfits) hfirst
    obtain ⟨hanswers, hend, harchive⟩ := ih hnext hlog' hlater
      (fun hm => (List.append_eq_nil_iff.mp (hread hm)).2) hfits hquiet
    refine ⟨?_, hend, ?_⟩
    · rw [outputs_cons, outputs_cons, hanswer, hanswers]
    · rw [hwrites, ← List.append_assoc]
      exact harchive

/-! ## Histories -/

/-- The log that a session starts with. -/
def openedLog (mode : OpenMode) (disk : OnDisk Store) : Store :=
  match mode, disk with
  | .write, _ => []
  | _, .file log => log
  | _, _ => []

/-- A session that can be expected to work: what is read is there and not written to, every
`BulkWriter` is destroyed before the file is closed, the surroundings are quiet, and what is written
fits. -/
structure Ordinary (Quiet : ε → Prop) (Fits : Store → Prop) (disk : OnDisk Store)
    (session : Session ε) : Prop where
  readable : session.mode = .read → (∃ log, disk = .file log) ∧ writesIn session.calls = []
  lifetimes : Lifetimes [] (session.calls.map Prod.fst)
  quiet : ∀ c ∈ session.calls, Quiet c.2
  fits : Fits (openedLog session.mode disk ++ writesIn session.calls)

/-- There is the same under both names, as far as a file holds a log. -/
inductive SameFile (Holds : φ → Store → Prop) : OnDisk φ → OnDisk Store → Prop where
  | absent : SameFile Holds .absent .absent
  | empty : SameFile Holds .empty .empty
  | file {f : φ} {log : Store} (h : Holds f log) : SameFile Holds (.file f) (.file log)

/-- The names of a log are the paths in it. -/
theorem names_storeFormat (log : Store) :
    Names (storeFormat ε).backend log (log.map Prod.fst) where
  size := (names_storeBackend (fun _ => none) log).size
  getItemName := (names_storeBackend (fun _ => none) log).getItemName

/-- An archive that lists the paths of the log that it keeps follows it. -/
theorem follows_ofArchive {s : σ} {log : Store} {names : List Bytes} (hkeeps : Keeps disk mode s log)
    (hsettled : Settled s) (hnames : Names F.backend s names) (hlt : names.length < 2 ^ 32)
    (hlog : log.length < 2 ^ 32) (hmem : ∀ path, path ∈ names ↔ path ∈ log.map Prod.fst) :
    Follows (Keeps disk mode) Settled [] (ofArchive F.backend s)
      (ofArchive (storeFormat ε).backend log) := by
  refine ⟨?_, s, log, archive_ofArchive _ s, archive_ofArchive _ log, hkeeps, fun _ => hsettled⟩
  refine (lists_ofArchive hnames).records_eq (lists_ofArchive (names_storeFormat log)) ?_
  rw [openedNames_of_lt hlt, openedNames_of_lt (by rw [List.length_map]; exact hlog)]
  exact hmem

/-- A file that holds a log is opened as the log. -/
theorem exists_ofFile (hF : F.Persists Quiet Fits Keeps Settled Holds) {disk' : OnDisk Store}
    (h : SameFile Holds disk disk') {session : Session ε} (hordinary : Ordinary Quiet Fits disk' session) :
    ∃ g, ofFile F session.mode disk = some (.ok g) ∧
      ofFile (storeFormat ε) session.mode disk' =
        some (.ok (ofArchive (storeFormat ε).backend (openedLog session.mode disk'))) ∧
      Follows (Keeps disk (realMode session.mode disk)) Settled [] g
        (ofArchive (storeFormat ε).backend (openedLog session.mode disk')) := by
  have hfits := hF.fits_of_append hordinary.fits
  obtain ⟨s, hcreate, hkeeps, hsettled, hnames⟩ := hF.create disk
  have hnew := follows_ofArchive hkeeps hsettled hnames (by decide) (by decide) fun _ => Iff.rfl
  obtain ⟨mode, calls⟩ := session
  -- A new file, or one that is there.
  have hfile {f : φ} {log : Store} (hmode : mode ≠ .write) (hfits : Fits log) (hholds : Holds f log) :
      ∃ g, (F.ofFile mode (.file f)).map (fun opened => opened.map (ofArchive F.backend)) =
          some (.ok g) ∧
        Follows (Keeps (.file f) mode) Settled [] g (ofArchive (storeFormat ε).backend log) := by
    obtain ⟨s, names, hopen, hkeeps, hsettled, hnames, hlt, hmem⟩ := hF.reopen hmode hfits hholds
    refine ⟨ofArchive F.backend s, by rw [hopen]; rfl, ?_⟩
    exact follows_ofArchive hkeeps hsettled hnames hlt (hF.length_lt hfits) hmem
  have hwrite : (F.ofFile .write disk).map (fun opened => opened.map (ofArchive F.backend)) =
      some (.ok (ofArchive F.backend s)) := by rw [hcreate]; rfl
  cases mode with
  | write => cases h <;> exact ⟨_, hwrite, rfl, hnew⟩
  | append =>
    cases h with
    | absent => exact ⟨_, hwrite, rfl, hnew⟩
    | empty => exact ⟨_, hwrite, rfl, hnew⟩
    | file hholds =>
      obtain ⟨g, hopen, hfollows⟩ := hfile (by decide) hfits hholds
      exact ⟨g, hopen, rfl, hfollows⟩
  | read =>
    obtain ⟨⟨log, rfl⟩, -⟩ := hordinary.readable rfl
    cases h with
    | file hholds =>
      obtain ⟨g, hopen, hfollows⟩ := hfile (by decide) hfits hholds
      exact ⟨g, hopen, rfl, hfollows⟩

/-- One session. -/
theorem sessionStep_as_store (hF : F.Persists Quiet Fits Keeps Settled Holds) (session : Session ε)
    {disk' : OnDisk Store} (hordinary : Ordinary Quiet Fits disk' session)
    (h : SameFile Holds disk disk') :
    SameFile Holds (sessionStep F disk session).1 (sessionStep (storeFormat ε) disk' session).1 ∧
      (sessionStep F disk session).2 = (sessionStep (storeFormat ε) disk' session).2 := by
  obtain ⟨g, hopen, hopen', hfollows⟩ := exists_ofFile hF h hordinary
  have hread : realMode session.mode disk = .read → writesIn session.calls = [] := by
    intro hreal
    exact (hordinary.readable (eq_read_of_realMode hreal)).2
  obtain ⟨hanswers, hend, -⟩ := hfollows.run hF (archive_ofArchive _ _) hordinary.lifetimes hread
    hordinary.fits hordinary.quiet
  obtain ⟨s, log, hs, hlog, hkeeps, hsettled⟩ := hend.archives
  obtain ⟨f, hclose, hholds⟩ := hF.close hkeeps (hsettled rfl)
  unfold sessionStep
  simp only [hopen, hopen', hs, hlog, Option.elim_some, hclose, hanswers, catalogue_congr hend.records]
  exact ⟨.file hholds, trivial⟩

/-- Over every history of ordinary sessions, a file of a format that persists reports what the log
does: the answers to all calls, and the catalogue at the end of each session. In the end it holds the
log. -/
theorem sessions_as_store (hF : F.Persists Quiet Fits Keeps Settled Holds) {disk' : OnDisk Store}
    (h : SameFile Holds disk disk') (history : List (Session ε))
    (hordinary : Along (sessionStep (storeFormat ε)) (Ordinary Quiet Fits) disk' history) :
    SameFile Holds (exec (sessionStep F) disk history)
        (exec (sessionStep (storeFormat ε)) disk' history) ∧
      outputs (sessionStep F) disk history =
        outputs (sessionStep (storeFormat ε)) disk' history :=
  simulates_along (fun _ _ session hsession hsame => sessionStep_as_store hF session hsession hsame) h
    hordinary

end Gtar

end Libgetar
