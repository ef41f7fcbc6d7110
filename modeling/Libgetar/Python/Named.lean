import Libgetar.Python.Frames

/-!
# Records by name, frame by frame

`recordsNamed` of `src/gtar/_gtar.pyx` is a generator: nothing happens until it is asked for the
first frame, when it chooses records and frames as `framesWithRecordsNamed` does, in a loop of its
own, and every record is read when its frame is asked for. Between two frames the archive may be
written to.

The generator is a state, and `next` is the step from one `yield` to the next one. The two loops do
the same (`commonLoop_eq`), so what the generator gives is what `framesWithRecordsNamed` returns, each
frame with what is read of the records at that time (`recordsNamed_eq_frames`).
-/

namespace Libgetar

open Lib

/-- What a frame is paired with: what is read, by itself or in a tuple. -/
inductive Value where
  | single (contents : Contents)
  | tuple (contents : List Contents)

/-- The generator, suspended. -/
inductive Generator where
  /-- Before the first frame is asked for. -/
  | start (names : Names) (group groupPrefix : Option Bytes)
  /-- In the loop over the frames. -/
  | loop (d : Dict Bytes Record) (names frames : List Bytes)
  | finished

/-- What is given for a call of `next`. -/
inductive Given where
  | yielded (frame : Bytes) (value : Value)
  | stopIteration
  | raised (e : PyError)

/-! ## The generator -/

section
variable (g : Gtar Store)

/-- The loop over the names. The generator returns when a name is missing. -/
def commonLoop (d : Dict Bytes Record) : List Bytes → Option (List Bytes) →
    Except PyError (Option (Option (List Bytes)))
  | [], frames => .ok (some frames)
  | n :: names, frames =>
    match d.get? n with
    | none => .ok none
    | some rec' => do
      let f ← Cat.queryFrames g rec'
      commonLoop d names (some (updateFrames frames f))

/-- `self.getRecord(allRecords[n], frame)`. -/
def getRecordNamed (d : Dict Bytes Record) (frame n : Bytes) : Except PyError Contents :=
  match d.get? n with
  | some rec' => MapArchive.getRecord g rec' frame
  | none => .error .keyError

/-- What is yielded with a frame. -/
def frameValue (d : Dict Bytes Record) (names : List Bytes) (frame : Bytes) : Except PyError Value :=
  if names.length > 1 then (names.mapM (getRecordNamed g d frame)).map .tuple
  else
    match names with
    | [] => .error .indexError
    | n :: _ => (getRecordNamed g d frame n).map .single

/-- The dictionary and the frames that the loop goes over, behind the loop over the names. -/
def startLoop (d : Dict Bytes Record) :
    Option (Option (List Bytes)) → Except PyError (Option (Dict Bytes Record × List Bytes))
  | none => .ok none
  | some frames => (sortedFrames frames).map fun sorted => some (d, sorted)

/-- What is done before the first frame. -/
def prepare (names : Names) (group groupPrefix : Option Bytes) :
    Except PyError (Option (Dict Bytes Record × List Bytes)) := do
  let d ← allRecords g group groupPrefix
  let frames ← commonLoop g d names.toList none
  startLoop d frames

/-- The loop goes on to the next frame. -/
def nextFrame (d : Dict Bytes Record) (names : List Bytes) : List Bytes → Generator × Given
  | [] => (.finished, .stopIteration)
  | frame :: frames =>
    match frameValue g d names frame with
    | .ok value => (.loop d names frames, .yielded frame value)
    | .error e => (.finished, .raised e)

/-- `next(generator)`. -/
def next : Generator → Generator × Given
  | .start names group groupPrefix =>
    match prepare g names group groupPrefix with
    | .ok (some (d, frames)) => nextFrame g d names.toList frames
    | .ok none => (.finished, .stopIteration)
    | .error e => (.finished, .raised e)
  | .loop d names frames => nextFrame g d names frames
  | .finished => (.finished, .stopIteration)

end

/-- What is given for calls of `next` that find the archives as they are at the time. -/
def drain : Generator → List (Gtar Store) → List Given
  | _, [] => []
  | generator, g :: gs => (next g generator).2 :: drain (next g generator).1 gs

/-- `recordsNamed`. -/
def recordsNamed (names : Names) (group groupPrefix : Option Bytes) : Generator :=
  .start names group groupPrefix

/-! ## What it should give -/

/-- `getRecord` of the records in front of the frames. -/
def getFound (g : Gtar Store) (frame : Bytes) : Option Found → Except PyError Value
  | some (.single r) => (MapArchive.getRecord g r frame).map .single
  | some (.list records) => (records.mapM fun r => MapArchive.getRecord g r frame).map .tuple
  | none => .error .typeError

/-- Nothing more is given. -/
def stops (gs : List (Gtar Store)) : List Given := gs.map fun _ => .stopIteration

/-- Each frame is given with what is read of the records, until a read raises an exception. -/
def yields (found : Option Found) : List Bytes → List (Gtar Store) → List Given
  | _, [] => []
  | [], gs => stops gs
  | frame :: frames, g :: gs =>
    match getFound g frame found with
    | .ok value => .yielded frame value :: yields found frames gs
    | .error e => .raised e :: stops gs

/-- What should be given after `framesWithRecordsNamed` would have returned the result. -/
def yieldsOf (result : Except PyError (Option Found × List Bytes)) (gs : List (Gtar Store)) :
    List Given :=
  match result, gs with
  | _, [] => []
  | .ok (found, frames), gs => yields found frames gs
  | .error e, _ :: gs => .raised e :: stops gs

/-! ## The two loops -/

variable {g : Gtar Store} {group groupPrefix : Option Bytes}

/-- The loops find the same frames. -/
theorem commonLoop_eq (d : Dict Bytes Record) (names : List Bytes) :
    ∀ (records : List Record) (frames : Option (List Bytes)), commonLoop g d names frames =
      (collectFrames g d names records frames).map (Option.map Prod.snd) := by
  induction names with
  | nil =>
    intro records frames
    rfl
  | cons n names ih =>
    intro records frames
    rw [commonLoop, collectFrames]
    cases d.get? n with
    | none => rfl
    | some r =>
      cases hf : Cat.queryFrames g r with
      | error e => simp only [hf]; rfl
      | ok f =>
        simp only [hf]
        exact ih _ _

/-- The collected records are those of the names. -/
theorem forall₂_of_collectFrames {d : Dict Bytes Record} {names : List Bytes} :
    ∀ {records records' : List Record} {frames frames' : Option (List Bytes)},
      collectFrames g d names records frames = .ok (some (records', frames')) →
        ∃ found, records' = records ++ found ∧
          List.Forall₂ (fun n r => d.get? n = some r) names found := by
  induction names with
  | nil =>
    intro records records' frames frames' h
    obtain ⟨rfl, -⟩ := Prod.mk.inj (Option.some.inj (Except.ok.inj h))
    exact ⟨[], (List.append_nil _).symm, .nil⟩
  | cons n names ih =>
    intro records records' frames frames' h
    rw [collectFrames] at h
    cases hn : d.get? n with
    | none =>
      rw [hn] at h
      cases h
    | some r =>
      rw [hn] at h
      obtain ⟨f, -, h⟩ := bind_eq_ok_iff.mp h
      obtain ⟨found, rfl, hfound⟩ := ih h
      exact ⟨r :: found, List.append_assoc _ _ _, .cons hn hfound⟩

/-! ## The generator gives what is returned -/

/-- A generator that has finished. -/
theorem drain_finished (gs : List (Gtar Store)) : drain .finished gs = stops gs := by
  induction gs with
  | nil => rfl
  | cons g gs ih =>
    rw [drain, stops, List.map_cons, ← stops]
    exact congrArg _ ih

/-- The loop over the frames, when a frame is paired with what is read of the records. -/
theorem drain_loop {d : Dict Bytes Record} {names : List Bytes} {found : Option Found}
    (hvalue : ∀ g frame, frameValue g d names frame = getFound g frame found) :
    ∀ (gs : List (Gtar Store)) (frames : List Bytes),
      drain (.loop d names frames) gs = yields found frames gs := by
  intro gs
  induction gs with
  | nil =>
    intro frames
    cases frames <;> rfl
  | cons g gs ih =>
    intro frames
    cases frames with
    | nil =>
      -- The frames are used up.
      rw [drain, next, nextFrame, drain_finished]
      rfl
    | cons frame frames =>
      rw [drain, next, nextFrame, yields, hvalue]
      cases getFound g frame found with
      | ok value => exact congrArg _ (ih frames)
      | error e => exact congrArg _ (drain_finished gs)

/-- The records are read as their names are looked up. -/
theorem mapM_getRecordNamed {d : Dict Bytes Record} {names : List Bytes} {records : List Record}
    (h : List.Forall₂ (fun n r => d.get? n = some r) names records) (g : Gtar Store) (frame : Bytes) :
    names.mapM (getRecordNamed g d frame) = records.mapM fun r => MapArchive.getRecord g r frame := by
  induction h with
  | nil => rfl
  | cons hn _ ih => rw [List.mapM_cons, List.mapM_cons, getRecordNamed, hn, ih]

/-- The generator goes on as it should after the result: it raises the same exception, or stops
because there are no frames, or goes over the same frames and reads the same records. -/
def Matches (names : List Bytes) : Except PyError (Option Found × List Bytes) →
    Except PyError (Option (Dict Bytes Record × List Bytes)) → Prop
  | .error e, .error e' => e' = e
  | .ok (_, frames), .ok none => frames = []
  | .ok (found, frames), .ok (some (d, frames')) =>
    frames' = frames ∧ ∀ g frame, frameValue g d names frame = getFound g frame found
  | _, _ => False

/-- Behind the loop over the names. -/
theorem matches_startLoop {d : Dict Bytes Record} {names : List Bytes} {records : List Record}
    (h : List.Forall₂ (fun n r => d.get? n = some r) names records) (hnames : names ≠ [])
    (frames : Option (List Bytes)) :
    Matches names (returnFrames names (some (records, frames))) (startLoop d (some frames)) := by
  cases h with
  | nil => exact absurd rfl hnames
  | @cons n r ns rs hn hrest =>
    simp only [returnFrames, startLoop]
    cases sortedFrames frames with
    | error e =>
      split
      · rfl
      · rfl
    | ok sorted =>
      split
      · -- Several records are read into a tuple, and returned as a list.
        next hmany =>
        refine ⟨rfl, fun g frame => ?_⟩
        rw [frameValue, if_pos hmany, mapM_getRecordNamed (.cons hn hrest)]
        rfl
      · -- A single name is a special case in both functions.
        next hone =>
        refine ⟨rfl, fun g frame => ?_⟩
        rw [frameValue, if_neg hone]
        simp only [getRecordNamed, hn]
        rfl

/-- What is done before the first frame matches what is returned. -/
theorem matches_prepare (g : Gtar Store) {names : Names} (hnames : names.toList ≠ [])
    (group groupPrefix : Option Bytes) :
    Matches names.toList (framesWithRecordsNamed g names group groupPrefix)
      (prepare g names group groupPrefix) := by
  rw [framesWithRecordsNamed, prepare]
  cases allRecords g group groupPrefix with
  | error e => rfl
  | ok d =>
    have hcommon := commonLoop_eq (g := g) d names.toList [] none
    change Matches _ (collectFrames g d names.toList [] none >>= _) (commonLoop g d names.toList none >>= _)
    rw [hcommon]
    cases hc : collectFrames g d names.toList [] none with
    | error e => rfl
    | ok collected =>
      rcases collected with - | ⟨records, frames⟩
      · rfl
      · obtain ⟨found, rfl, hfound⟩ := forall₂_of_collectFrames hc
        exact matches_startLoop hfound hnames frames

/-- What matches a result gives what should be given after it. -/
theorem drain_of_matches {names : Names} {result : Except PyError (Option Found × List Bytes)}
    (h : Matches names.toList result (prepare g names group groupPrefix)) (gs : List (Gtar Store)) :
    drain (recordsNamed names group groupPrefix) (g :: gs) = yieldsOf result (g :: gs) := by
  rw [recordsNamed, drain, next]
  rcases hresult : result with e | ⟨found, frames⟩
  · rcases hprepare : prepare g names group groupPrefix with e' | - | ⟨d, frames'⟩
    · -- The first call of `next` raises what would be raised.
      rw [hresult, hprepare] at h
      obtain rfl : e' = e := h
      exact congrArg _ (drain_finished gs)
    · rw [hresult, hprepare] at h
      exact h.elim
    · rw [hresult, hprepare] at h
      exact h.elim
  · rcases hprepare : prepare g names group groupPrefix with e' | - | ⟨d, frames'⟩
    · rw [hresult, hprepare] at h
      exact h.elim
    · -- A name is missing.
      rw [hresult, hprepare] at h
      obtain rfl : frames = [] := h
      exact congrArg _ (drain_finished gs)
    · -- Every name is found.
      rw [hresult, hprepare] at h
      obtain ⟨rfl, hvalue⟩ := h
      exact drain_loop hvalue (g :: gs) frames'

/-! ## Both functions -/

/-- The records that are returned. -/
def Found.records : Found → List Record
  | .single r => [r]
  | .list records => records

/-- What `recordsNamed` gives, for a list of names that is not empty, is what `framesWithRecordsNamed`
returns: the same frames in the same order, each with what is read of the returned records at that
time. When all names stand for records, the returned frames are those that all of the records have,
each once, and they are returned when what is looked at is UTF-8. -/
theorem recordsNamed_eq_frames (g : Gtar Store) {names : Names} (hnames : names.toList ≠ [])
    (group groupPrefix : Option Bytes) (gs : List (Gtar Store)) :
    drain (recordsNamed names group groupPrefix) (g :: gs) =
      yieldsOf (framesWithRecordsNamed g names group groupPrefix) (g :: gs) ∧
    ∀ records, List.Forall₂ (fun n r => chosen g group groupPrefix n = some r) names.toList records →
      ((∃ x, framesWithRecordsNamed g names group groupPrefix = .ok x) ↔
        Decodes g group groupPrefix ∧ ∀ r ∈ records, ∀ i ∈ g.queryFrames r, IsUtf8 i) ∧
      ∀ found frames, framesWithRecordsNamed g names group groupPrefix = .ok (found, frames) →
        found.map Found.records = some records ∧ frames.Nodup ∧
          ∀ i, i ∈ frames ↔ ∀ r ∈ records, i ∈ g.queryFrames r := by
  refine ⟨drain_of_matches (matches_prepare g hnames group groupPrefix) gs, fun records h => ?_⟩
  obtain ⟨n, ns, hcons⟩ := List.exists_cons_of_ne_nil hnames
  rw [hcons] at h
  cases h with
  | @cons _ r _ records hr hrecords =>
    refine ⟨⟨?_, ?_⟩, ?_⟩
    · rintro ⟨x, hx⟩
      obtain ⟨hdecodes, hutf8, -⟩ := (framesWithRecordsNamed_eq_ok_iff hcons hr hrecords).mp hx
      exact ⟨hdecodes, hutf8⟩
    · rintro ⟨hdecodes, hutf8⟩
      exact ⟨_, (framesWithRecordsNamed_eq_ok_iff hcons hr hrecords).mpr ⟨hdecodes, hutf8, rfl⟩⟩
    · intro found frames hx
      obtain ⟨-, -, hpair⟩ := (framesWithRecordsNamed_eq_ok_iff hcons hr hrecords).mp hx
      obtain ⟨rfl, rfl⟩ := Prod.mk.inj hpair
      refine ⟨?_, nodup_sortBy (nodup_common (g.queryFrames_nodup r)), fun i => ?_⟩
      · rw [Option.map_some, Found.of]
        split
        · next hnil => rw [hnil, Found.records]
        · rfl
      · rw [sortFrames, mem_sortBy, mem_common, List.forall_mem_cons]

/-- Two names, of which only the first has a frame `2`. -/
theorem recordsNamed_eq_frames_two :
    let g := Gtar.ofArchive mapBackend
      [(lit "frames/1/a", lit "x"), (lit "frames/2/a", []), (lit "frames/1/b", lit "y")]
    drain (recordsNamed (.list [lit "a", lit "b"]) none none) [g, g] =
      [.yielded (lit "1") (.tuple [.str (lit "x"), .str (lit "y")]), .stopIteration] := by
  intro g
  have hnames : (Names.list [lit "a", lit "b"]).toList ≠ [] := List.cons_ne_nil _ _
  obtain ⟨hdrain, -⟩ := recordsNamed_eq_frames g hnames none none [g]
  have hresult : framesWithRecordsNamed g (.list [lit "a", lit "b"]) none none =
      .ok (some (.list [(Record.ofPath (lit "frames/1/a")).withNullifiedIndex,
        (Record.ofPath (lit "frames/1/b")).withNullifiedIndex]), [lit "1"]) := by decide +kernel
  rw [hdrain, hresult]
  rfl

end Libgetar
