import Libgetar.Tar.Session

/-!
# Closing a tar file and opening it again

A `session` opens the file, makes calls and closes the file: behind the records there is then the
`trailer`, two empty blocks. A later session in append mode scans the file, where it finds the same
entries under the names that are decoded for them (`Entry.asStored`), and the position behind them,
so that its records replace the trailer (`session_append`). Any way of cutting calls into sessions
leaves the same file as one session (`sessions_eq_one_session`).
-/

namespace Libgetar

open Lib

namespace TarArchive

/-- What `close` puts behind the last record. -/
def trailer : Bytes := List.replicate 1024 0

/-- One session: the file is opened, the calls are made, and the file is closed. The result are the
bytes of the file. -/
def session (fuel : ℕ) (filename : Bytes) (mode : OpenMode) (disk : Option Bytes)
    (calls : List (Call × TarEnv)) : Option (Except Bytes Bytes) :=
  (ofFile fuel filename mode disk).map fun opened =>
    opened.map fun a => (exec step a calls).close.file.bytes

/-- Sessions in append mode, one after the other. -/
def appendSessions (fuel : ℕ) (filename : Bytes) :
    Bytes → List (List (Call × TarEnv)) → Option (Except Bytes Bytes)
  | disk, [] => some (.ok disk)
  | disk, calls :: rest =>
    match session fuel filename .append (some disk) calls with
    | some (.ok disk) => appendSessions fuel filename disk rest
    | failed => failed

/-- A session in write mode, and then sessions in append mode. -/
def sessions (fuel : ℕ) (filename : Bytes) (disk : Option Bytes) (first : List (Call × TarEnv))
    (later : List (List (Call × TarEnv))) : Option (Except Bytes Bytes) :=
  match session fuel filename .write disk first with
  | some (.ok disk) => appendSessions fuel filename disk later
  | failed => failed

/-- Every length that is written fits the size field. -/
def SizesFit (calls : List (Call × TarEnv)) : Prop :=
  ∀ w env, (.writePtr w, env) ∈ calls → w.contents.length < sizeFieldBound

/-! ## Closing -/

/-- Closing puts the trailer behind the entries, over anything that was there. -/
theorem Session.close {a : TarArchive} {es : List Entry} (h : Session 1024 a es)
    (hfit : (image es).length + 1024 < maxOffset) :
    a.close.file.bytes = image es ++ trailer := by
  obtain ⟨hmode, tail, htail, hholds⟩ := h
  have hsmall : a.maxPosition < maxOffset := by
    rw [hholds.maxPosition]
    omega
  have hseek := FStream.seekp_of_lt hholds.ready hsmall
  have hready : (a.file.seekp a.maxPosition).Ready := by
    rw [hseek]
    exact ⟨hholds.ready.eof, hholds.ready.fail, hholds.ready.isOpen⟩
  have hpos : (a.file.seekp a.maxPosition).pos = (image es).length := by
    rw [hseek]
    exact hholds.maxPosition
  have hbytes : (a.file.seekp a.maxPosition).bytes = image es ++ tail := by
    rw [hseek]
    exact hholds.bytes
  have hout : (a.file.seekp a.maxPosition).out = true := by
    rw [hseek]
    exact hholds.writable hmode
  unfold TarArchive.close
  rw [if_pos hholds.ready.isOpen, FStream.putN_of_lt 0 hready hout (by omega),
    FStream.write_of_lt hready hout]
  · simp only [FStream.close, hbytes, hpos, writeAt_append, List.length_replicate, trailer]
    rw [List.drop_eq_nil_of_le htail, List.append_nil]
  · rw [hpos, List.length_replicate]
    exact hfit
  · rw [hbytes, hpos, List.length_append]
    omega

/-- The trailer ends a file. -/
theorem endsFile_trailer : EndsFile trailer := by
  refine Or.inr ⟨List.replicate 512 0, ?_⟩
  rw [trailer, headerLength, ← List.replicate_add]

/-- The bytes of entries do not depend on their names. -/
theorem image_asStored (es : List Entry) : image (es.map Entry.asStored) = image es := by
  induction es with
  | nil => rfl
  | cons e es ih =>
    rw [List.map_cons, image_cons, image_cons, ih]
    rfl

/-- The records of a session are decoded under their stored names. -/
theorem decodes_asStored {calls : List (Call × TarEnv)} (hsizes : SizesFit calls) :
    ∀ e ∈ (records calls).map Entry.asStored, e.Decodes := by
  intro e he
  obtain ⟨e', he', rfl⟩ := List.mem_map.mp he
  obtain ⟨⟨call, env⟩, hcall, hrecord⟩ := List.mem_filterMap.mp he'
  cases call with
  | read path => simp [record?] at hrecord
  | writePtr w =>
    simp only [record?] at hrecord
    split at hrecord
    · cases hrecord
      have hlen := hsizes w env hcall
      exact (asStored_wellFormed w env hlen).decodes (hlen.trans (by decide))
    · cases hrecord

/-- A session on a new file. -/
theorem session_write (filename : Bytes) (disk : Option Bytes) (calls : List (Call × TarEnv))
    (hfit : (image (records calls)).length + 1024 < maxOffset) {fuel : ℕ} (hfuel : 2 ≤ fuel) :
    session fuel filename .write disk calls = some (.ok (image (records calls) ++ trailer)) := by
  obtain ⟨a, hfile, hnew⟩ := ofFile_write filename disk
  obtain ⟨hmode, tail, htail, hholds⟩ := hnew
  have hsession : Session 1024 a [] := ⟨hmode, tail, by omega, hholds⟩
  obtain ⟨hrun, -⟩ := hsession.run calls (by rw [List.nil_append]; omega)
  rw [List.nil_append] at hrun
  have hclose := hrun.close hfit
  rw [session, hfile fuel hfuel]
  simp only [Option.map_some, Except.map, hclose]

/-- A session on a file that earlier sessions have left: the scan finds the end of the last record,
and the new records go there. -/
theorem session_append (filename : Bytes) {done : List (Call × TarEnv)} (hsizes : SizesFit done)
    (calls : List (Call × TarEnv)) (hfit : (image (records (done ++ calls))).length + 1024 < maxOffset)
    {fuel : ℕ} (hfuel : (records done).length + 2 ≤ fuel) :
    ∃ a, ofFile fuel filename .append (some (image (records done) ++ trailer)) = some (.ok a) ∧
      a.maxPosition = (image (records done)).length ∧
      (exec step a calls).close.file.bytes = image (records (done ++ calls)) ++ trailer := by
  let es := (records done).map Entry.asStored
  have himage : image (es ++ records calls) = image (records (done ++ calls)) := by
    rw [records_append, image_append, image_append, image_asStored]
  have hbytes : image (records done) ++ trailer = image es ++ trailer := by rw [image_asStored]
  have hlen : (image (records done) ++ trailer).length < maxOffset := by
    rw [records_append, image_append, List.length_append] at hfit
    rw [List.length_append, trailer, List.length_replicate]
    omega
  have hopen : openFile .append (some (image (records done) ++ trailer)) =
      some { bytes := image (records done) ++ trailer, out := true } := rfl
  obtain ⟨a, hfile, hholds, hmode⟩ := ofFile_holds hopen hbytes (decodes_asStored hsizes)
    endsFile_trailer hlen filename
  have hsession : Session 1024 a es :=
    ⟨by rw [hmode]; decide, trailer, by rw [trailer, List.length_replicate], hholds⟩
  obtain ⟨hrun, -⟩ := hsession.run calls (by rw [himage]; omega)
  refine ⟨a, hfile fuel (by rw [List.length_map]; exact hfuel), ?_, ?_⟩
  · rw [hholds.maxPosition, image_asStored]
  · rw [← himage]
    exact hrun.close (by rw [himage]; exact hfit)

/-! ## Many sessions -/

/-- Sessions in append mode continue what the calls before them have left. The induction is on the
sessions that are left. -/
theorem appendSessions_eq (filename : Bytes) (later : List (List (Call × TarEnv)))
    {done : List (Call × TarEnv)} (hsizes : SizesFit (done ++ later.flatten))
    (hfit : (image (records (done ++ later.flatten))).length + 1024 < maxOffset) {fuel : ℕ}
    (hfuel : (records (done ++ later.flatten)).length + 2 ≤ fuel) :
    appendSessions fuel filename (image (records done) ++ trailer) later =
      some (.ok (image (records (done ++ later.flatten)) ++ trailer)) := by
  induction later generalizing done with
  | nil => rw [List.flatten_nil, List.append_nil, appendSessions]
  | cons calls rest ih =>
    have hcut : done ++ (calls :: rest).flatten = (done ++ calls) ++ rest.flatten := by
      rw [List.flatten_cons, List.append_assoc]
    rw [hcut] at hsizes hfit hfuel ⊢
    have hdone : SizesFit done := fun w env h =>
      hsizes w env (List.mem_append_left _ (List.mem_append_left _ h))
    have hfirst : (image (records (done ++ calls))).length + 1024 < maxOffset := by
      rw [records_append, image_append, List.length_append] at hfit
      omega
    have hbefore : (records done).length + 2 ≤ fuel := by
      simp only [records_append, List.length_append] at hfuel
      omega
    obtain ⟨a, hfile, -, hclose⟩ := session_append filename hdone calls hfirst hbefore
    have hsession : session fuel filename .append (some (image (records done) ++ trailer)) calls =
        some (.ok (image (records (done ++ calls)) ++ trailer)) := by
      rw [session, hfile]
      simp only [Option.map_some, Except.map, hclose]
    rw [appendSessions, hsession]
    exact ih hsizes hfit hfuel

theorem sessions_eq (filename : Bytes) (disk : Option Bytes) (first : List (Call × TarEnv))
    (later : List (List (Call × TarEnv))) (hsizes : SizesFit (first ++ later.flatten))
    (hfit : (image (records (first ++ later.flatten))).length + 1024 < maxOffset) {fuel : ℕ}
    (hfuel : (records (first ++ later.flatten)).length + 2 ≤ fuel) :
    sessions fuel filename disk first later =
      some (.ok (image (records (first ++ later.flatten)) ++ trailer)) := by
  have hfirst : (image (records first)).length + 1024 < maxOffset := by
    rw [records_append, image_append, List.length_append] at hfit
    omega
  rw [sessions, session_write filename disk first hfirst (by omega)]
  exact appendSessions_eq filename later hsizes hfit hfuel

/-- Whatever way the calls are cut into sessions, the file is the one that a single session leaves,
the records with the trailer behind them, and each session that opens it again finds the end of the
last record. -/
theorem sessions_eq_one_session (filename : Bytes) (disk : Option Bytes)
    (first : List (Call × TarEnv)) (later : List (List (Call × TarEnv)))
    (hsizes : SizesFit (first ++ later.flatten))
    (hfit : (image (records (first ++ later.flatten))).length + 1024 < maxOffset) (fuel : ℕ)
    (hfuel : (records (first ++ later.flatten)).length + 2 ≤ fuel) :
    sessions fuel filename disk first later =
        session fuel filename .write disk (first ++ later.flatten) ∧
      session fuel filename .write disk (first ++ later.flatten) =
        some (.ok (image (records (first ++ later.flatten)) ++ trailer)) ∧
      ∀ before rest, later = before ++ rest →
        ∃ bytes a, sessions fuel filename disk first before = some (.ok bytes) ∧
          ofFile fuel filename .append (some bytes) = some (.ok a) ∧
          a.maxPosition = (image (records (first ++ before.flatten))).length := by
  have hone := session_write filename disk _ hfit (show 2 ≤ fuel by omega)
  refine ⟨by rw [hone, sessions_eq filename disk first later hsizes hfit hfuel], hone, ?_⟩
  rintro before rest rfl
  -- The sessions up to a re-opening are sessions as well.
  have hcut : first ++ (before ++ rest).flatten = (first ++ before.flatten) ++ rest.flatten := by
    rw [List.flatten_append, List.append_assoc]
  rw [hcut] at hsizes hfit hfuel
  have hsizes' : SizesFit (first ++ before.flatten) := fun w env h =>
    hsizes w env (List.mem_append_left _ h)
  rw [records_append] at hfit hfuel
  rw [image_append, List.length_append] at hfit
  rw [List.length_append] at hfuel
  have hfuel' : (records (first ++ before.flatten)).length + 2 ≤ fuel := by omega
  have hbefore := sessions_eq filename disk first before hsizes' (by omega) hfuel'
  obtain ⟨a, hfile, hmax, -⟩ := session_append filename hsizes' [] (by
    rw [List.append_nil]
    omega) hfuel'
  exact ⟨_, a, hbefore, hfile, hmax⟩

/-- Three sessions, of which the second one makes no call and the third one writes again to the
path of the first one. -/
theorem three_sessions_eq_one :
    sessions 4 (lit "a.tar") none [(.writePtr ⟨lit "a", lit "hi", .noCompress, false⟩, { now := 7 })]
        [[], [(.writePtr ⟨lit "a", [], .noCompress, true⟩, { now := 7 })]] =
      session 4 (lit "a.tar") .write none
        [(.writePtr ⟨lit "a", lit "hi", .noCompress, false⟩, { now := 7 }),
          (.writePtr ⟨lit "a", [], .noCompress, true⟩, { now := 7 })] := by
  let w₁ : Write := ⟨lit "a", lit "hi", .noCompress, false⟩
  let w₂ : Write := ⟨lit "a", [], .noCompress, true⟩
  let env : TarEnv := { now := 7 }
  have hrecords : records ([(.writePtr w₁, env)] ++ [[], [(.writePtr w₂, env)]].flatten) =
      [recordOf w₁ env, recordOf w₂ env] := rfl
  have hsizes : SizesFit ([(.writePtr w₁, env)] ++ [[], [(.writePtr w₂, env)]].flatten) := by
    intro w env' h
    simp only [List.flatten_cons, List.flatten_nil, List.append_nil, List.nil_append,
      List.singleton_append, List.mem_cons, Prod.mk.injEq, Call.writePtr.injEq, List.not_mem_nil,
      or_false] at h
    rcases h with ⟨rfl, -⟩ | ⟨rfl, -⟩
    · decide
    · decide
  refine (sessions_eq_one_session (lit "a.tar") none _ _ hsizes ?_ 4 ?_).1
  · rw [hrecords]
    simp only [image_cons, image_nil, List.length_append, Entry.length_bytes]
    decide
  · rw [hrecords]
    decide

end TarArchive

end Libgetar
