import Libgetar.Python.Cat

/-!
# What a concatenation copies

`main` is to leave in the output, for every path in one of the inputs, what the last of them has
under it, and no other path (`Copies`). `copies_iff` says when it does.

In the one direction, whatever the output has was written under a path that was parsed and printed
twice. If that changed a path, it made its separators more, so the inputs have a path with fewer of
them that does not fit either, and there is no least one (`segmentsFit_of_printed`). So all paths fit,
the catalogues list the paths themselves, and what is written for one is what it is transferred as. In
the other direction each path of the plan comes from its input.

A record in `uint8` comes through as the values of its digits, which are other bytes. So, if every
input is listed in full, no such record is copied unless it is empty (`transferred_eq_iff`).
-/

namespace Libgetar

open Lib

namespace Cat

variable {σ ε φ : Type*} {host : Host σ ε φ} {files : Files φ} {store : Bytes → Store}
  {inputs : List Bytes} {p : Bytes}

/-! ## What is to be copied -/

/-- What the last input with a path has under it. -/
def lastStored (store : Bytes → Store) (inputs : List Bytes) (p : Bytes) : Option Bytes :=
  inputs.reverse.findSome? fun input => lastWrite (store input) p

/-- The output is what it should be: an archive that stores, under every path, what the last input with
it has. -/
def Copies (host : Host σ ε φ) (fuel : ℕ) (files : Files φ) (store : Bytes → Store)
    (inputs : List Bytes) (output : Bytes) : Prop :=
  ∃ files' log, main host fuel files inputs output = some (files', none) ∧
    Stores host.env (host.format output) (onDisk files' output) log ∧
    ∀ p, lastWrite log p = lastStored store inputs p

/-- A new file, under the name that is found, takes the records of the log, and stores them when it is
opened under the name of the output. That is not a directory to which a file cannot be moved. -/
def Delivers (host : Host σ ε φ) (fuel : ℕ) (files : Files φ) (output : Bytes) (log : Store) : Prop :=
  (files.get? output ≠ none → ¬[slash] <:+ output) ∧
    ∃ tempName, tempNameFrom files fuel (splitext output) output = some tempName ∧
      Restores host.env (host.format tempName) (host.format output) log

/-- The records that are to be copied, in the order in which they are written. -/
def toCopy (store : Bytes → Store) (inputs : List Bytes) : Store :=
  (plan (sources store inputs)).map fun x => (x.2, (lastStored store inputs x.2).getD [])

/-- The names that the catalogue of an input is made from: `size` is an `unsigned int`. -/
def listed (log : Store) : List Bytes := Gtar.openedNames (log.map Prod.fst)

/-- What the last input that lists a path has under it. -/
def lastListed (store : Bytes → Store) (inputs : List Bytes) (p : Bytes) : Option Bytes :=
  (inputs.reverse.find? fun input => (listed (store input)).contains p).bind
    fun input => lastWrite (store input) p

/-- A path and its contents survive. -/
def Survives (store : Bytes → Store) (inputs : List Bytes) (p contents : Bytes) : Prop :=
  Record.SegmentsFit p ∧ IsUtf8 p ∧ ∃ found, lastListed store inputs p = some found ∧
    Transfers (Record.ofPath p) found ∧ transferred (Record.ofPath p) found = contents

/-- A record with these contents comes through as it is. -/
def Kept (r : Record) (contents : Bytes) : Prop :=
  r.resolution = .text ∨
    contents.length % r.format.itemSize = 0 ∧
    (∀ width ∈ widths.get? r.name, contents.length / r.format.itemSize % width = 0) ∧
    (r.format = .uint8 → contents = [])

instance (r : Record) (contents : Bytes) : Decidable (Kept r contents) :=
  inferInstanceAs (Decidable (_ ∨ _))

/-- The paths in the inputs are relative. -/
def Relative (store : Bytes → Store) (inputs : List Bytes) : Prop :=
  ∀ input ∈ inputs, ∀ e ∈ store input, e.1.head? ≠ some slash

/-- The inputs are archives with these contents, under paths that are relative. -/
structure Inputs (host : Host σ ε φ) (files : Files φ) (store : Bytes → Store) (inputs : List Bytes) :
    Prop where
  exist : Exist host files inputs store
  relative : Relative store inputs

/-- A path is in one of the inputs. -/
def Stored (store : Bytes → Store) (inputs : List Bytes) (p : Bytes) : Prop :=
  ∃ input ∈ inputs, p ∈ (store input).map Prod.fst

/-- A path is in one of the inputs when there is something that is to be copied for it. -/
theorem stored_iff : Stored store inputs p ↔ ∃ contents, lastStored store inputs p = some contents := by
  rw [← Option.ne_none_iff_exists', lastStored, Ne, List.findSome?_eq_none_iff]
  simp only [lastWrite_eq_none_iff, List.mem_reverse, not_forall, not_not, exists_prop]
  rfl

/-- A listed path is in the input. -/
theorem stored_of_listed {input : Bytes} (hinput : input ∈ inputs)
    (hp : p ∈ listed (store input)) : Stored store inputs p :=
  ⟨input, hinput, List.mem_of_mem_take hp⟩

/-! ## Paths that are printed again -/

/-- The printed path of a record has no leading separator. -/
theorem dropWhile_getPath {r : Record} (hr : r.Canonical) :
    r.getPath.dropWhile (· == slash) = r.getPath := by
  rw [← Record.getPath_decode, Record.decode_getPath hr]

/-- If each of some relative paths is another one, parsed and printed twice, then all of them fit. -/
theorem segmentsFit_of_printed {S : Bytes → Prop} (hrelative : ∀ p, S p → p.head? ≠ some slash)
    (hprinted : ∀ p, S p → ∃ q, S q ∧ p = (Record.ofPath (Record.ofPath q).getPath).getPath)
    (hp : S p) : Record.SegmentsFit p := by
  induction hcount : p.count slash using Nat.strong_induction_on generalizing p with
  | h n ih =>
    obtain ⟨q, hq, rfl⟩ := hprinted p hp
    by_cases hfit : Record.SegmentsFit q
    · have hplain : (Record.ofPath q).getPath = q := Gtar.Plain.getPath ⟨hrelative q hq, hfit⟩
      rw [hplain, hplain]
      exact hfit
    · -- The path that was printed has fewer separators, so it fits.
      obtain ⟨hmore, hnot⟩ := Record.count_getPath_of_not_segmentsFit hfit
      obtain ⟨hmore', -⟩ := Record.count_getPath_of_not_segmentsFit hnot
      rw [dropWhile_getPath (Record.ofPath_canonical q)] at hmore'
      rw [dropWhile_of_head?_ne (hrelative q hq)] at hmore
      exact absurd (ih _ (by omega) hq rfl) hfit

/-! ## Catalogues of plain paths -/

/-- The listed paths are parsed and printed as they are. -/
def ListedPlain (store : Bytes → Store) (inputs : List Bytes) : Prop :=
  ∀ input ∈ inputs, ∀ q ∈ listed (store input), Gtar.Plain q

/-- The catalogue of an input has the listed paths. -/
theorem mem_listing_iff (hplain : ListedPlain store inputs) {input : Bytes} (hinput : input ∈ inputs) :
    p ∈ listing (store input) ↔ p ∈ listed (store input) := by
  rw [mem_listing]
  constructor
  · rintro ⟨q, hq, rfl⟩
    rw [(hplain input hinput q hq).getPath]
    exact hq
  · intro hp
    exact ⟨p, hp, (hplain input hinput p hp).getPath.symm⟩

/-- A path is collected from the last input that lists it. -/
theorem get?_sources_of_plain (hplain : ListedPlain store inputs) (p : Bytes) :
    (sources store inputs).get? p =
      inputs.reverse.find? fun input => (listed (store input)).contains p := by
  rw [get?_sources]
  refine List.find?_congr fun input hinput => ?_
  rw [List.contains_eq_mem, decide_eq_decide, mem_listing_iff hplain (List.mem_reverse.mp hinput)]

/-- A path that is collected is read as the last input that lists it has it. -/
theorem lastListed_of_sources (hplain : ListedPlain store inputs) {s : Bytes}
    (h : (sources store inputs).get? p = some s) :
    (Record.ofPath p).getPath = p ∧ lastListed store inputs p = some (readFrom store (s, p)) ∧
      Stored store inputs p := by
  obtain ⟨hs, hlisting⟩ := mem_of_get?_sources h
  have hlisted := (mem_listing_iff hplain hs).mp hlisting
  have hpath := (hplain s hs p hlisted).getPath
  have hstored := stored_of_listed hs hlisted
  refine ⟨hpath, ?_, hstored⟩
  -- What is listed is stored.
  obtain ⟨found, hfound⟩ := Option.ne_none_iff_exists'.mp fun hnone =>
    lastWrite_eq_none_iff.mp hnone (List.mem_of_mem_take hlisted)
  rw [lastListed, ← get?_sources_of_plain hplain, h, readFrom, hpath]
  show lastWrite (store s) p = some ((lastWrite (store s) p).getD [])
  rw [hfound]
  rfl

/-! ## The output -/

/-- Every path in the inputs fits if it is in the output. -/
theorem segmentsFit_of_written (hrelative : Relative store inputs)
    (hout : ∀ p, Stored store inputs p →
      p ∈ (writtenLog store inputs).map Prod.fst)
    (hp : Stored store inputs p) : Record.SegmentsFit p := by
  refine segmentsFit_of_printed (S := Stored store inputs) ?_ ?_ hp
  · rintro p ⟨input, hinput, hmem⟩
    obtain ⟨e, he, rfl⟩ := List.mem_map.mp hmem
    exact hrelative input hinput e he
  · intro p hp
    obtain ⟨e, he, rfl⟩ := List.mem_map.mp (hout p hp)
    obtain ⟨x, hx, rfl⟩ := List.mem_map.mp he
    obtain ⟨hinput, hlisting⟩ := mem_of_get?_sources (mem_plan.mp hx)
    obtain ⟨q, hq, hprinted⟩ := mem_listing.mp hlisting
    exact ⟨q, stored_of_listed hinput hq, by rw [← hprinted]; rfl⟩

/-- If all paths in the inputs are plain, the output has for each that is listed what it is
transferred as. -/
theorem lastWrite_written (hplain : ListedPlain store inputs) (p : Bytes) :
    lastWrite (writtenLog store inputs) p =
      (lastListed store inputs p).map (transferred (Record.ofPath p)) := by
  have hentries : writtenLog store inputs =
      ((plan (sources store inputs)).map Prod.snd).map fun k =>
        (k, transferred (Record.ofPath k) ((lastListed store inputs k).getD [])) := by
    rw [List.map_map]
    refine List.map_congr_left fun x hx => ?_
    obtain ⟨hpath, hfound, -⟩ := lastListed_of_sources hplain (mem_plan.mp hx)
    simp only [written, Function.comp_apply, hpath, hfound, Option.getD_some]
  rw [hentries, lastWrite_map_key]
  split
  · next hmem =>
    obtain ⟨x, hx, rfl⟩ := List.mem_map.mp hmem
    obtain ⟨-, hfound, -⟩ := lastListed_of_sources hplain (mem_plan.mp hx)
    rw [hfound]
    rfl
  · next hmem =>
    -- What is not collected is not listed.
    have hnone : (sources store inputs).get? p = none := by
      refine Option.eq_none_iff_forall_ne_some.mpr fun s hs => hmem ?_
      exact List.mem_map.mpr ⟨(s, p), mem_plan.mpr hs, rfl⟩
    rw [lastListed, ← get?_sources_of_plain hplain, hnone]
    rfl

/-! ## When the output is what it should be -/

/-- If all paths in the inputs fit, the listed ones are plain. -/
theorem listedPlain_of_fit (hrelative : Relative store inputs)
    (hfit : ∀ p, Stored store inputs p → Record.SegmentsFit p) : ListedPlain store inputs := by
  intro input hinput q hq
  have hstored := stored_of_listed hinput hq
  obtain ⟨e, he, rfl⟩ := List.mem_map.mp (List.mem_of_mem_take hq)
  exact ⟨hrelative input hinput e he, hfit _ hstored⟩

/-- What is copied survives. -/
theorem survives_of_written (hrelative : Relative store inputs)
    (hcomes : ∀ x ∈ plan (sources store inputs), Comes store x)
    (hout : ∀ p, lastWrite (writtenLog store inputs) p =
      lastStored store inputs p) {contents : Bytes}
    (hp : lastStored store inputs p = some contents) : Survives store inputs p contents := by
  have hwritten : ∀ p, Stored store inputs p →
      p ∈ (writtenLog store inputs).map Prod.fst := by
    intro p hp
    obtain ⟨contents, hcontents⟩ := stored_iff.mp hp
    rw [← hout] at hcontents
    exact List.mem_map.mpr ⟨_, mem_of_lastWrite_eq_some hcontents, rfl⟩
  have hfit : ∀ p, Stored store inputs p → Record.SegmentsFit p := fun p hp =>
    segmentsFit_of_written hrelative hwritten hp
  have hplain := listedPlain_of_fit hrelative hfit
  rw [← hout, lastWrite_written hplain] at hp
  obtain ⟨found, hfound, htransferred⟩ := Option.map_eq_some_iff.mp hp
  -- The path is one of the plan.
  obtain ⟨s, hs, -⟩ := Option.bind_eq_some_iff.mp hfound
  rw [← get?_sources_of_plain hplain] at hs
  obtain ⟨hpath, hread, hstored⟩ := lastListed_of_sources hplain hs
  obtain ⟨hutf8, htransfers⟩ := hcomes (s, p) (mem_plan.mpr hs)
  rw [hpath] at hutf8
  rw [hfound] at hread
  rw [← Option.some.inj hread] at htransfers
  exact ⟨hfit p hstored, hutf8, found, hfound, htransfers, htransferred⟩

/-- What survives comes from its input, and is in the output. -/
theorem written_of_survives (hrelative : Relative store inputs)
    (hsurvives : ∀ p contents, lastStored store inputs p = some contents →
      Survives store inputs p contents) :
    (∀ input ∈ inputs, ∀ p ∈ listing (store input), IsUtf8 p) ∧
      (∀ x ∈ plan (sources store inputs), Comes store x) ∧
      ∀ p, lastWrite (writtenLog store inputs) p =
        lastStored store inputs p := by
  have hstored : ∀ p, Stored store inputs p → ∃ contents, Survives store inputs p contents := by
    intro p hp
    obtain ⟨contents, hcontents⟩ := stored_iff.mp hp
    exact ⟨contents, hsurvives p contents hcontents⟩
  have hplain := listedPlain_of_fit hrelative fun p hp => (hstored p hp).elim fun _ h => h.1
  refine ⟨fun input hinput p hp => ?_, fun x hx => ?_, fun p => ?_⟩
  · -- What is listed is stored, so its path can be decoded.
    have hlisted := (mem_listing_iff hplain hinput).mp hp
    obtain ⟨contents, -, hutf8, -⟩ := hstored p (stored_of_listed hinput hlisted)
    exact hutf8
  · -- What is planned is read from the last input that stores it.
    obtain ⟨hpath, hread, hx⟩ := lastListed_of_sources hplain (mem_plan.mp hx)
    obtain ⟨contents, -, hutf8, found, hfound, htransfers, -⟩ := hstored x.2 hx
    obtain rfl := Option.some.inj (hfound.symm.trans hread)
    exact ⟨hpath.symm ▸ hutf8, htransfers⟩
  · rw [lastWrite_written hplain]
    cases hp : lastStored store inputs p with
    | some contents =>
      obtain ⟨-, -, found, hfound, -, htransferred⟩ := hsurvives p contents hp
      rw [hfound, Option.map_some, htransferred]
    | none =>
      -- What is listed would be stored.
      have hnone : lastListed store inputs p = none := by
        refine Option.eq_none_iff_forall_ne_some.mpr fun found hfound => ?_
        obtain ⟨s, hs, -⟩ := Option.bind_eq_some_iff.mp hfound
        rw [← get?_sources_of_plain hplain] at hs
        obtain ⟨-, -, hstored⟩ := lastListed_of_sources hplain hs
        obtain ⟨contents, hcontents⟩ := stored_iff.mp hstored
        rw [hp] at hcontents
        cases hcontents
      rw [hnone]
      rfl

/-- The written log is what should be stored, and is written, exactly if every path and its contents
survive. -/
theorem forall_survives_iff (hrelative : Relative store inputs) :
    (∀ p contents, lastStored store inputs p = some contents → Survives store inputs p contents) ↔
      (∀ input ∈ inputs, ∀ p ∈ listing (store input), IsUtf8 p) ∧
        (∀ x ∈ plan (sources store inputs), Comes store x) ∧
        ∀ p, lastWrite (writtenLog store inputs) p = lastStored store inputs p :=
  ⟨fun hsurvives => written_of_survives hrelative hsurvives,
    fun h _ _ hp => survives_of_written hrelative h.2.1 h.2.2 hp⟩

/-- The output is what it should be exactly if the records are written to a file that stores what
should be stored. -/
theorem copies_iff_written (hinputs : Inputs host files store inputs) {output tempName : Bytes} {fuel : ℕ}
    (htemp : tempNameFrom files fuel (splitext output) output = some tempName) :
    Copies host fuel files store inputs output ↔
      (∀ input ∈ inputs, ∀ p ∈ listing (store input), IsUtf8 p) ∧
        (∀ x ∈ plan (sources store inputs), Comes store x) ∧
        (files.get? output ≠ none → ¬[slash] <:+ output) ∧
        ∃ disk log, Written host.env (host.format tempName) (writtenLog store inputs) disk ∧
          disk ≠ .absent ∧ Stores host.env (host.format output) disk log ∧
          ∀ p, lastWrite log p = lastStored store inputs p := by
  constructor
  · rintro ⟨files', log, hmain, hstores, hlog⟩
    obtain ⟨hutf8, hcomes, hdir, hthere, hwritten⟩ :=
      (main_success_iff hinputs.exist htemp).mp ⟨files', hmain, rfl⟩
    exact ⟨hutf8, hcomes, hdir, _, log, hwritten, hthere, hstores, hlog⟩
  · rintro ⟨hutf8, hcomes, hdir, disk, log, hwritten, hthere, hstores, hlog⟩
    obtain ⟨files', hmain, rfl⟩ :=
      (main_success_iff hinputs.exist htemp).mpr ⟨hutf8, hcomes, hdir, hthere, hwritten⟩
    exact ⟨files', log, hmain, hstores, hlog⟩

/-- If the output takes what is written and gives it back, it is what it should be exactly if every path
and its contents survive. -/
theorem copies_iff_survives (hinputs : Inputs host files store inputs) {output : Bytes} {fuel : ℕ}
    (hdelivers : Delivers host fuel files output (writtenLog store inputs)) :
    Copies host fuel files store inputs output ↔
      ∀ p contents, lastStored store inputs p = some contents →
        Survives store inputs p contents := by
  obtain ⟨hdir, tempName, htemp, disk, log, hwritten, hthere, hstores, hlog⟩ := hdelivers
  rw [copies_iff_written hinputs htemp, forall_survives_iff hinputs.relative]
  constructor
  · rintro ⟨hutf8, hcomes, -, disk', log', hwritten', -, hstores', hlog'⟩
    obtain rfl := hwritten.disk_eq hwritten'
    refine ⟨hutf8, hcomes, fun p => ?_⟩
    rw [← hlog, ← hlog', hstores.lastWrite_eq hstores']
  · rintro ⟨hutf8, hcomes, hsame⟩
    exact ⟨hutf8, hcomes, hdir, disk, log, hwritten, hthere, hstores, fun p => (hlog p).trans (hsame p)⟩

/-- If every path and its contents survive, the output is what it should be exactly if it takes what is
written and gives it back. -/
theorem copies_iff_delivers (hinputs : Inputs host files store inputs) (output : Bytes) {fuel : ℕ}
    (hfuel : files.entries.length < fuel)
    (hsurvives : ∀ p contents, lastStored store inputs p = some contents →
      Survives store inputs p contents) :
    Copies host fuel files store inputs output ↔
      Delivers host fuel files output (writtenLog store inputs) := by
  obtain ⟨tempName, htemp⟩ := exists_tempName hfuel output
  obtain ⟨hutf8, hcomes, hsame⟩ := (forall_survives_iff hinputs.relative).mp hsurvives
  rw [copies_iff_written hinputs htemp, and_iff_right hutf8, and_iff_right hcomes]
  refine and_congr_right fun _ => ?_
  simp only [Restores, htemp, Option.some.injEq, exists_eq_left', hsame]

/-! ## Inputs that are listed in full -/

/-- Digits are not the values that they are parsed as. -/
theorem map_sub_eq_self_iff {contents : Bytes} :
    (contents.map fun c => c - 48) = contents ↔ contents = [] := by
  cases contents with
  | nil => exact iff_of_true rfl rfl
  | cons c contents =>
    refine iff_of_false (fun h => ?_) (List.cons_ne_nil _ _)
    have hhead : c - 48 = c := (List.cons.inj h).1
    exact absurd (sub_eq_self.mp hhead) (by decide)

/-- A record comes through as it is when it has no digits that are parsed. -/
theorem transferred_eq_iff {r : Record} {contents : Bytes} :
    Transfers r contents ∧ transferred r contents = contents ↔ Kept r contents := by
  unfold Transfers Kept transferred
  by_cases htext : r.resolution = .text
  · simp [htext]
  · by_cases hformat : r.format = .uint8
    · rw [if_pos ⟨htext, hformat⟩, map_sub_eq_self_iff, or_iff_right htext, or_iff_right htext]
      constructor
      · rintro ⟨⟨hwhole, hrows, -⟩, hempty⟩
        exact ⟨hwhole, hrows, fun _ => hempty⟩
      · rintro ⟨hwhole, hrows, hempty⟩
        refine ⟨⟨hwhole, hrows, fun _ c hc => ?_⟩, hempty hformat⟩
        rw [hempty hformat] at hc
        cases hc
    · simp [htext, hformat]

/-- The first element with a value is the first one that meets a condition, if that says which have
values. -/
theorem findSome?_eq_bind {α β : Type*} {value : α → Option β} {C : α → Bool} {xs : List α}
    (h : ∀ x ∈ xs, C x = (value x).isSome) : xs.findSome? value = (xs.find? C).bind value := by
  induction xs with
  | nil => rfl
  | cons x xs ih =>
    obtain ⟨hx, hxs⟩ := List.forall_mem_cons.mp h
    rw [List.findSome?_cons, List.find?_cons, hx, ih hxs]
    cases hvalue : value x with
    | none => rfl
    | some v => exact hvalue.symm

/-- If every input is listed in full, what is listed is what is stored. -/
theorem lastListed_eq_lastStored
    (hfull : ∀ input ∈ inputs, (store input).length < 2 ^ 32) (p : Bytes) :
    lastListed store inputs p = lastStored store inputs p := by
  refine (findSome?_eq_bind fun input hinput => ?_).symm
  have hlength := hfull input (List.mem_reverse.mp hinput)
  rw [listed, Gtar.openedNames_of_lt (by rwa [List.length_map]), Bool.eq_iff_iff,
    List.contains_iff_mem, ← Option.ne_none_iff_isSome, Ne, lastWrite_eq_none_iff, not_not]

/-- What survives, if every input is listed in full. -/
theorem survives_iff_kept (hfull : ∀ input ∈ inputs, (store input).length < 2 ^ 32) {contents : Bytes}
    (hp : lastStored store inputs p = some contents) : Survives store inputs p contents ↔
      Record.SegmentsFit p ∧ IsUtf8 p ∧ Kept (Record.ofPath p) contents := by
  unfold Survives
  rw [lastListed_eq_lastStored hfull, hp, ← transferred_eq_iff]
  simp only [Option.some.injEq, exists_eq_left']

/-- What survives is written as it is. -/
theorem writtenLog_eq_toCopy (hrelative : Relative store inputs)
    (hsurvives : ∀ p contents, lastStored store inputs p = some contents →
      Survives store inputs p contents) : writtenLog store inputs = toCopy store inputs := by
  have hplain : ListedPlain store inputs := listedPlain_of_fit hrelative fun p hp => by
    obtain ⟨contents, hcontents⟩ := stored_iff.mp hp
    exact (hsurvives p contents hcontents).1
  refine List.map_congr_left fun x hx => ?_
  obtain ⟨hpath, hread, hstored⟩ := lastListed_of_sources hplain (mem_plan.mp hx)
  obtain ⟨contents, hcontents⟩ := stored_iff.mp hstored
  obtain ⟨-, -, found, hfound, -, htransferred⟩ := hsurvives x.2 contents hcontents
  obtain rfl := Option.some.inj (hfound.symm.trans hread)
  rw [written, hpath, htransferred, hcontents]
  rfl

/-- What is written has the sizes of what is to be copied. -/
theorem sizes_writtenLog (hrelative : Relative store inputs)
    (hfull : ∀ input ∈ inputs, (store input).length < 2 ^ 32)
    (hfit : ∀ p, Stored store inputs p → Record.SegmentsFit p) :
    (writtenLog store inputs).map (fun e => (e.1, e.2.length)) =
      (toCopy store inputs).map fun e => (e.1, e.2.length) := by
  have hplain := listedPlain_of_fit hrelative hfit
  unfold writtenLog toCopy
  rw [List.map_map, List.map_map]
  refine List.map_congr_left fun x hx => ?_
  obtain ⟨hpath, hread, -⟩ := lastListed_of_sources hplain (mem_plan.mp hx)
  rw [lastListed_eq_lastStored hfull] at hread
  simp only [Function.comp_apply, written, hpath, hread, Option.getD_some, transferred]
  split
  · rw [List.length_map]
  · rfl

/-- The output takes records that fit, whatever `main` makes of them, and gives them back. -/
theorem delivers_of_fits {p : Platform} (foreign : Foreign) (convert : Conversion)
    {env : Bytes → Surroundings} {files : Files ArchiveFile} {output : Bytes} {fuel : ℕ}
    (hfuel : files.entries.length < fuel) (hlz4 : p.lz4.Inverts) (hscan : 2 ≤ p.fuel)
    (hquiet : ∀ path, (env path).Quiet)
    (hends : files.get? output = none ∨ archiveFormat output = .zip ∨ (splitext output).2 ≠ [])
    {log : Store} (hfits : p.Fits (archiveFormat output) log) :
    Delivers (p.host foreign convert env) fuel files output log := by
  obtain ⟨tempName, htemp⟩ := exists_tempName hfuel output
  obtain ⟨f, log', hwritten, hstores, -, hsame⟩ :=
    gtarFormat_written foreign hlz4 hscan (archiveFormat_newName htemp hends) hquiet hfits
  refine ⟨fun _ hslash => ?_, tempName, htemp, .file f, log', hwritten, by simp, hstores, hsame⟩
  -- No log fits in a directory.
  rw [(archiveFormat_iff output).2.1.mpr hslash] at hfits
  exact hfits

/-- `main` leaves in the output exactly what the last input with each path has under it, and the output
gives back what is written to it, if and only if every path and its contents survive (the segments of
the path fit, it is UTF-8, and what the last input that lists it has is transferred as what is to be
stored), and the output takes the records that are to be copied and gives them back. The latter is also
what `main` needs to do what it is to do if everything survives.

So it does for records that fit in a file of the format of the output, when nothing fails in the
surroundings. Then, if every input has less than `2^32` records and all segments fit, `main` does what
it is to do exactly if every path is UTF-8, and the contents are text, or fill the items and rows of
their format, which is `uint8` only if they are empty. -/
theorem copies_iff (p : Platform) (foreign : Foreign) (convert : Conversion)
    (env : Bytes → Surroundings) {files : Files ArchiveFile} {store : Bytes → Store}
    {inputs : List Bytes} (hinputs : Inputs (p.host foreign convert env) files store inputs)
    (output : Bytes) {fuel : ℕ} (hfuel : files.entries.length < fuel) :
    (Copies (p.host foreign convert env) fuel files store inputs output ∧
        Delivers (p.host foreign convert env) fuel files output (writtenLog store inputs) ↔
      (∀ path contents, lastStored store inputs path = some contents →
        Survives store inputs path contents) ∧
        Delivers (p.host foreign convert env) fuel files output (toCopy store inputs)) ∧
    ((∀ path contents, lastStored store inputs path = some contents →
        Survives store inputs path contents) →
      (Copies (p.host foreign convert env) fuel files store inputs output ↔
        Delivers (p.host foreign convert env) fuel files output (toCopy store inputs))) ∧
    (p.lz4.Inverts → 2 ≤ p.fuel → (∀ path, (env path).Quiet) →
      files.get? output = none ∨ archiveFormat output = .zip ∨ (splitext output).2 ≠ [] →
      p.Fits (archiveFormat output) (toCopy store inputs) →
      (∀ input ∈ inputs, (store input).length < 2 ^ 32) →
      (∀ path, Stored store inputs path → Record.SegmentsFit path) →
      (Copies (p.host foreign convert env) fuel files store inputs output ↔
        ∀ path contents, lastStored store inputs path = some contents →
          IsUtf8 path ∧ Kept (Record.ofPath path) contents)) := by
  refine ⟨?_, fun hsurvives => ?_, fun hlz4 hscan hquiet hends hfits hfull hfit => ?_⟩
  · constructor
    · rintro ⟨hcopies, hdelivers⟩
      have hsurvives := (copies_iff_survives hinputs hdelivers).mp hcopies
      rw [← writtenLog_eq_toCopy hinputs.relative hsurvives]
      exact ⟨hsurvives, hdelivers⟩
    · rintro ⟨hsurvives, hdelivers⟩
      rw [← writtenLog_eq_toCopy hinputs.relative hsurvives] at hdelivers
      exact ⟨(copies_iff_survives hinputs hdelivers).mpr hsurvives, hdelivers⟩
  · rw [← writtenLog_eq_toCopy hinputs.relative hsurvives]
    exact copies_iff_delivers hinputs output hfuel hsurvives
  · -- What is written fits, because it has the same paths and sizes.
    have hdelivers := delivers_of_fits foreign convert hfuel hlz4 hscan hquiet hends
      (hfits.congr (sizes_writtenLog hinputs.relative hfull hfit))
    refine (copies_iff_survives hinputs hdelivers).trans ?_
    refine forall_congr' fun path => forall_congr' fun contents => imp_congr_right fun hpath => ?_
    rw [survives_iff_kept hfull hpath, and_iff_right (hfit path (stored_iff.mpr ⟨contents, hpath⟩))]

/-! ## Files that are made -/

/-- The file that is left of a log. -/
def made (host : Host σ ε φ) (name : Bytes) (log : Store) : OnDisk φ :=
  match (host.format name).ofFile .write .absent with
  | some (.ok s) =>
    (host.format name).close (attempt (record (host.format name).backend host.env) s log).1 .absent
  | _ => .absent

/-- A file that is made of a log that fits stores it. -/
theorem exists_stores_made {p : Platform} (foreign : Foreign) (convert : Conversion)
    {env : Bytes → Surroundings} (hlz4 : p.lz4.Inverts) (hscan : 2 ≤ p.fuel)
    (hquiet : ∀ path, (env path).Quiet) {name : Bytes} {log : Store}
    (hfits : p.Fits (archiveFormat name) log) :
    made (p.host foreign convert env) name log ≠ .absent ∧ ∃ log',
      Stores env (gtarFormat p foreign name) (made (p.host foreign convert env) name log) log' ∧
      log'.length < 2 ^ 32 ∧ ∀ path, lastWrite log' path = lastWrite log path := by
  obtain ⟨f, log', ⟨s, hopen, -, hclose⟩, hstores⟩ :=
    gtarFormat_written foreign hlz4 hscan rfl hquiet hfits
  have hmade : made (p.host foreign convert env) name log = .file f := by
    unfold made Platform.host
    simp only [hopen]
    exact hclose
  rw [hmade]
  exact ⟨by simp, log', hstores⟩

/-- The catalogue of an input depends on what it stores. -/
theorem listing_congr {log log' : Store} (hlt : log.length < 2 ^ 32) (hlt' : log'.length < 2 ^ 32)
    (hsame : ∀ p, lastWrite log p = lastWrite log' p) : listing log = listing log' := by
  have hpaths (p : Bytes) : p ∈ Gtar.openedNames (log.map Prod.fst) ↔
      p ∈ Gtar.openedNames (log'.map Prod.fst) := by
    rw [Gtar.openedNames_of_lt (by rwa [List.length_map]),
      Gtar.openedNames_of_lt (by rwa [List.length_map]), ← not_iff_not, ← lastWrite_eq_none_iff,
      ← lastWrite_eq_none_iff, hsame]
  have hrecords := (lists_store log).records_eq (lists_store log') hpaths
  unfold listing catalogued Gtar.getRecordTypes Gtar.queryFrames
  rw [hrecords]

/-- Whether the paths are relative depends on what the inputs store. -/
theorem Relative.congr {store' : Bytes → Store} (h : Relative store' inputs)
    (hsame : ∀ input ∈ inputs, ∀ p, lastWrite (store input) p = lastWrite (store' input) p) :
    Relative store inputs := by
  intro input hinput e he
  have hwritten : lastWrite (store input) e.1 ≠ none :=
    mt lastWrite_eq_none_iff.mp (not_not.mpr (List.mem_map_of_mem (f := Prod.fst) he))
  rw [hsame input hinput, ne_eq, lastWrite_eq_none_iff, not_not] at hwritten
  obtain ⟨e', he', hpath⟩ := List.mem_map.mp hwritten
  rw [← hpath]
  exact h input hinput e' he'

/-- What is to be copied depends on what the inputs store. -/
theorem toCopy_congr {store' : Bytes → Store}
    (hsame : ∀ input ∈ inputs, ∀ p, lastWrite (store input) p = lastWrite (store' input) p)
    (hlt : ∀ input ∈ inputs, (store input).length < 2 ^ 32)
    (hlt' : ∀ input ∈ inputs, (store' input).length < 2 ^ 32) :
    lastStored store inputs = lastStored store' inputs ∧ toCopy store inputs = toCopy store' inputs := by
  have hlast : lastStored store inputs = lastStored store' inputs := by
    funext p
    have hvalues : inputs.reverse.map (fun input => lastWrite (store input) p) =
        inputs.reverse.map fun input => lastWrite (store' input) p :=
      List.map_congr_left fun input hinput => hsame input (List.mem_reverse.mp hinput) p
    have hfirst := congrArg (List.findSome? id) hvalues
    rw [List.findSome?_map, List.findSome?_map] at hfirst
    exact hfirst
  have hsources : sources store inputs = sources store' inputs := by
    unfold sources
    congr 1
    exact List.flatMap_congr fun input hinput => by
      rw [listing_congr (hlt input hinput) (hlt' input hinput) (hsame input hinput)]
  refine ⟨hlast, ?_⟩
  unfold toCopy
  rw [hsources, hlast]

/-- A file that is made there of a log that fits stores it. -/
theorem exists_stores_quietHost {name : Bytes} {log : Store}
    (hfits : quietPlatform.Fits (archiveFormat name) log) : made quietHost name log ≠ .absent ∧
      ∃ log', Stores quietHost.env (quietHost.format name) (made quietHost name log) log' ∧
        log'.length < 2 ^ 32 ∧ ∀ path, lastWrite log' path = lastWrite log path :=
  exists_stores_made _ _ Sqlite.literalLz4_inverts (by decide) quiet_quiet hfits

/-- The contents of two files, with a record that is replaced. -/
def twoStores (input : Bytes) : Store :=
  if input = lit "a.tar" then
    [(lit "notes.txt", [104, 200]), (lit "frames/1/position.f32.ind", List.replicate 24 7)]
  else [(lit "frames/1/position.f32.ind", List.replicate 12 9), (lit "type.u8.ind", [])]

/-- The two files, and an output that is replaced. -/
def twoInputs : Files ArchiveFile :=
  leave (leave (leave Dict.empty (lit "a.tar") (made quietHost (lit "a.tar") (twoStores (lit "a.tar"))))
    (lit "b.zip") (made quietHost (lit "b.zip") (twoStores (lit "b.zip"))))
    (lit "out.tar") (made quietHost (lit "out.tar") [(lit "old", [1])])

/-- Text that is not UTF-8, an array with rows and an empty one in `uint8` are copied. -/
theorem copies_twoInputs :
    Copies quietHost 4 twoInputs twoStores [lit "a.tar", lit "b.zip"] (lit "out.tar") := by
  have hfitsA : quietPlatform.Fits (archiveFormat (lit "a.tar")) (twoStores (lit "a.tar")) := by
    have hformat : archiveFormat (lit "a.tar") = .tar := by decide +kernel
    rw [hformat]
    exact ⟨by decide +kernel, by decide +kernel, by decide +kernel, by decide +kernel, by decide +kernel⟩
  have hfitsB : quietPlatform.Fits (archiveFormat (lit "b.zip")) (twoStores (lit "b.zip")) := by
    have hformat : archiveFormat (lit "b.zip") = .zip := by decide +kernel
    rw [hformat]
    exact ⟨by decide +kernel, by decide +kernel⟩
  obtain ⟨hthereA, logA, hstoresA, hltA, hsameA⟩ := exists_stores_quietHost hfitsA
  obtain ⟨hthereB, logB, hstoresB, hltB, hsameB⟩ := exists_stores_quietHost hfitsB
  have hname : lit "b.zip" ≠ lit "a.tar" := by decide
  -- The contents in the order in which the two files list them.
  obtain ⟨store, hA, hB⟩ : ∃ store : Bytes → Store, store (lit "a.tar") = logA ∧
      store (lit "b.zip") = logB :=
    ⟨fun input => if input = lit "a.tar" then logA else logB, if_pos rfl, if_neg hname⟩
  have hboth {P : Bytes → Prop} (ha : P (lit "a.tar")) (hb : P (lit "b.zip")) :
      ∀ input ∈ [lit "a.tar", lit "b.zip"], P input :=
    List.forall_mem_cons.mpr ⟨ha, List.forall_mem_singleton.mpr hb⟩
  have hsame : ∀ input ∈ [lit "a.tar", lit "b.zip"], ∀ p,
      lastWrite (store input) p = lastWrite (twoStores input) p :=
    hboth (hA ▸ hsameA) (hB ▸ hsameB)
  have hlt : ∀ input ∈ [lit "a.tar", lit "b.zip"], (store input).length < 2 ^ 32 :=
    hboth (hA ▸ hltA) (hB ▸ hltB)
  obtain ⟨hlast, hcopy⟩ := toCopy_congr hsame hlt (by decide +kernel)
  have hinputs : Inputs quietHost twoInputs store [lit "a.tar", lit "b.zip"] := by
    have hdiskA : onDisk twoInputs (lit "a.tar") = _ :=
      (onDisk_congr (get?_leave_of_ne _ _ (by decide))).trans
        ((onDisk_congr (get?_leave_of_ne _ _ (by decide))).trans (onDisk_leave _ _ _))
    have hdiskB : onDisk twoInputs (lit "b.zip") = _ :=
      (onDisk_congr (get?_leave_of_ne _ _ (by decide))).trans (onDisk_leave _ _ _)
    have hrelative : Relative twoStores [lit "a.tar", lit "b.zip"] := by
      unfold Relative
      decide +kernel
    refine ⟨hboth ?_ ?_, hrelative.congr hsame⟩
    · rw [hA, hdiskA]
      exact ⟨hthereA, hstoresA⟩
    · rw [hB, hdiskB]
      exact ⟨hthereB, hstoresB⟩
  have hfuel : twoInputs.entries.length < 4 := by
    refine Nat.lt_succ_of_le ((length_leave_le _ _ _).trans (Nat.succ_le_succ ?_))
    exact (length_leave_le _ _ _).trans (Nat.succ_le_succ (length_leave_le Dict.empty _ _))
  have hends : (splitext (lit "out.tar")).2 ≠ [] := by decide +kernel
  have hfits : quietPlatform.Fits (archiveFormat (lit "out.tar"))
      (toCopy store [lit "a.tar", lit "b.zip"]) := by
    have hformat : archiveFormat (lit "out.tar") = .tar := by decide +kernel
    rw [hcopy, hformat]
    exact ⟨by decide +kernel, by decide +kernel, by decide +kernel, by decide +kernel, by decide +kernel⟩
  -- There are three paths.
  have hpaths : ∀ input ∈ [lit "a.tar", lit "b.zip"], ∀ p ∈ (twoStores input).map Prod.fst,
      p.length + 1 < 100 ∧ IsUtf8 p ∧ ∀ contents ∈
        lastStored twoStores [lit "a.tar", lit "b.zip"] p, Kept (Record.ofPath p) contents := by
    decide +kernel
  have hstored {p : Bytes} (hp : Stored store [lit "a.tar", lit "b.zip"] p) : p.length + 1 < 100 ∧
      IsUtf8 p ∧ ∀ contents ∈ lastStored store [lit "a.tar", lit "b.zip"] p,
        Kept (Record.ofPath p) contents := by
    obtain ⟨contents, hcontents⟩ := stored_iff.mp hp
    rw [hlast] at hcontents ⊢
    obtain ⟨input, hinput, hmem⟩ := stored_iff.mpr ⟨contents, hcontents⟩
    exact hpaths input hinput p hmem
  have hfit : ∀ p, Stored store [lit "a.tar", lit "b.zip"] p → Record.SegmentsFit p := fun p hp => by
    have hlength := (hstored hp).1
    refine Record.segmentsFit_of_length_lt ?_
    unfold Record.segmentBound Record.intBound
    omega
  have hiff := (copies_iff quietPlatform _ _ quiet hinputs (lit "out.tar") hfuel).2.2
    Sqlite.literalLz4_inverts (by decide) quiet_quiet (Or.inr (Or.inr hends)) hfits hlt hfit
  have hcopies := hiff.mpr fun p contents hcontents => by
    obtain ⟨-, hutf8, hkept⟩ := hstored (stored_iff.mpr ⟨contents, hcontents⟩)
    exact ⟨hutf8, hkept contents hcontents⟩
  unfold Copies at hcopies ⊢
  rw [hlast] at hcopies
  exact hcopies

/-- A file with a record in `uint8`, which is the byte `5` as a digit. -/
def oneDigit : Files ArchiveFile :=
  leave Dict.empty (lit "a.tar") (made quietHost (lit "a.tar") [(lit "x.u8.ind", [53])])

/-- That is copied as the byte of value 5. -/
theorem copies_counterexample : ∃ store : Bytes → Store,
    Inputs quietHost oneDigit store [lit "a.tar"] ∧
      (∀ p, lastWrite (store (lit "a.tar")) p = lastWrite [(lit "x.u8.ind", [53])] p) ∧
      ¬Copies quietHost 2 oneDigit store [lit "a.tar"] (lit "b.tar") := by
  have hformat : archiveFormat (lit "a.tar") = .tar := by decide +kernel
  have hfits : quietPlatform.Fits .tar [(lit "x.u8.ind", [53])] :=
    ⟨by decide +kernel, by decide +kernel, by decide +kernel, by decide +kernel, by decide +kernel⟩
  rw [← hformat] at hfits
  obtain ⟨hthere, log, hstores, hlt, hsame⟩ := exists_stores_quietHost hfits
  have hdisk : onDisk oneDigit (lit "a.tar") = _ := onDisk_leave _ _ _
  have hsame' : ∀ input ∈ [lit "a.tar"], ∀ p,
      lastWrite ((fun _ => log) input) p = lastWrite ((fun _ => [(lit "x.u8.ind", [53])]) input) p :=
    fun _ _ => hsame
  have hinputs : Inputs quietHost oneDigit (fun _ => log) [lit "a.tar"] := by
    have hrelative : Relative (fun _ => [(lit "x.u8.ind", [53])]) [lit "a.tar"] := by
      unfold Relative
      decide
    refine ⟨List.forall_mem_singleton.mpr ?_, hrelative.congr hsame'⟩
    rw [hdisk]
    exact ⟨hthere, hstores⟩
  refine ⟨fun _ => log, hinputs, hsame, ?_⟩
  have hfull : ∀ input ∈ [lit "a.tar"], ((fun _ => log) input).length < 2 ^ 32 := fun _ _ => hlt
  obtain ⟨hlast, hcopy⟩ := toCopy_congr hsame' hfull fun _ _ => by decide
  have hpath : lastStored (fun _ => log) [lit "a.tar"] (lit "x.u8.ind") = some [53] := by
    rw [hlast]
    decide +kernel
  have hfit : ∀ p, Stored (fun _ => log) [lit "a.tar"] p → Record.SegmentsFit p := by
    intro p hp
    obtain ⟨contents, hcontents⟩ := stored_iff.mp hp
    rw [hlast] at hcontents
    obtain ⟨input, -, hmem⟩ := stored_iff.mpr ⟨contents, hcontents⟩
    rw [List.mem_singleton.mp hmem]
    exact Record.segmentsFit_of_length_lt (by decide)
  -- What is written fits in the output.
  have htoCopy : quietPlatform.Fits (archiveFormat (lit "b.tar"))
      (toCopy (fun _ => log) [lit "a.tar"]) := by
    have hformat' : archiveFormat (lit "b.tar") = .tar := by decide +kernel
    have hrecords : toCopy (fun _ => [(lit "x.u8.ind", [53])]) [lit "a.tar"] =
        [(lit "x.u8.ind", [53])] := by decide +kernel
    rw [hcopy, hrecords, hformat', ← hformat]
    exact hfits
  have hfuel : oneDigit.entries.length < 2 := Nat.lt_succ_of_le (length_leave_le Dict.empty _ _)
  have hnew : oneDigit.get? (lit "b.tar") = none := get?_leave_of_ne _ _ (by decide)
  have hdelivers : Delivers quietHost 2 oneDigit (lit "b.tar")
      (writtenLog (fun _ => log) [lit "a.tar"]) :=
    delivers_of_fits _ _ hfuel Sqlite.literalLz4_inverts (by decide) quiet_quiet (Or.inl hnew)
      (htoCopy.congr (sizes_writtenLog hinputs.relative hfull hfit))
  intro hcopies
  have hsurvives := (copies_iff_survives hinputs hdelivers).mp hcopies _ _ hpath
  obtain ⟨-, -, hkept⟩ := (survives_iff_kept hfull hpath).mp hsurvives
  exact absurd hkept (by decide +kernel)

end Cat

end Libgetar
