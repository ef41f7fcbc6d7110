import Libgetar.Python.Convert

/-!
# A new file in the place of the output

What `src/gtar/cat.py` and `src/gtar/fix.py` do around their work. They look for a name that is not
taken, under which a new file is made. If nothing was raised, it is moved to the output, and if it is
still there in the end, it is removed.

`finish_spec` says what is left of that: no file but the output is changed, and an output that was
there only if nothing was raised. The name is one of the same format as the output
(`archiveFormat_newName`), unless that has no extension in the sense of `os.path.splitext`.

Different names are those of different files, and a name that does not end in a slash is not that of a
directory.
-/

namespace Libgetar

open Lib

/-- The files, by their names. A file without contents is empty. -/
abbrev Files (φ : Type*) := Dict Bytes (Option φ)

variable {φ : Type*}

/-- What is under a name. -/
def onDisk (files : Files φ) (name : Bytes) : OnDisk φ :=
  match files.get? name with
  | none => .absent
  | some none => .empty
  | some (some f) => .file f

/-- What is left under a name. -/
def leave (files : Files φ) (name : Bytes) : OnDisk φ → Files φ
  | .absent => files.erase name
  | .empty => files.set name none
  | .file f => files.set name (some f)

/-! ## Names -/

/-- `s.rfind(c) + 1`. -/
def rfindEnd (s : Bytes) (c : UInt8) : ℕ := s.length - (s.reverse.takeWhile (· != c)).length

/-- `os.path.splitext`. The last dot of the file name is where the extension starts, unless there
are only dots in front of it. -/
def splitext (p : Bytes) : Bytes × Bytes :=
  let filenameIndex := rfindEnd p slash
  let dotIndex := rfindEnd p dot - 1
  if filenameIndex < rfindEnd p dot ∧
      (substr p filenameIndex (dotIndex - filenameIndex)).any (· != dot) then
    (p.take dotIndex, p.drop dotIndex)
  else (p, [])

example : splitext (lit "a.b/c.d.tar") = (lit "a.b/c.d", lit ".tar") := by decide +kernel

example : splitext (lit "a.b/..c") = (lit "a.b/..c", []) := by decide +kernel

/-- The loop that looks for the name of the new file. -/
def tempNameFrom (files : Files φ) : ℕ → Bytes × Bytes → Bytes → Option Bytes
  | 0, _, _ => none
  | fuel + 1, nameHalves, tempName =>
    if (files.get? tempName).isSome then
      let nameHalves := (nameHalves.1 ++ lit "_", nameHalves.2)
      tempNameFrom files fuel nameHalves (nameHalves.1 ++ nameHalves.2)
    else some tempName

/-! ## The end -/

/-- `os.path.samefile`. -/
def samefile (files : Files φ) (a b : Bytes) : Except PyError Bool :=
  if (files.get? a).isSome ∧ (files.get? b).isSome then .ok (decide (a = b))
  else .error .fileNotFoundError

/-- `os.rename` of a file. One that is there under the new name is replaced, but not a directory. -/
def rename (files : Files φ) (a b : Bytes) : Files φ × Option PyError :=
  match files.get? a with
  | some f =>
    if [slash] <:+ b then (files, some .isADirectoryError) else ((files.erase a).set b f, none)
  | none => (files, some .fileNotFoundError)

/-- `if not os.path.samefile(tempName, output): os.rename(tempName, output)`. -/
def moveToOutput (files : Files φ) (tempName output : Bytes) : Files φ × Option PyError :=
  match samefile files tempName output with
  | .ok true => (files, none)
  | .ok false => rename files tempName output
  | .error e => (files, some e)

/-- `finally`: the new file is removed, if it is there and not the output itself. -/
def removeTemp (files : Files φ) (tempName output : Bytes) (pending : Option PyError) :
    Files φ × Option PyError :=
  if (files.get? tempName).isSome then
    match samefile files tempName output with
    | .ok true => (files, pending)
    | .ok false => (files.erase tempName, pending)
    | .error e => (files, some e)
  else (files, pending)

/-- What comes behind the work: the new file is moved if nothing was raised, and then `finally`. -/
def finish (files : Files φ) (tempName output : Bytes) (pending : Option PyError) :
    Files φ × Option PyError :=
  match pending with
  | none =>
    let (moved, pending) := moveToOutput files tempName output
    removeTemp moved tempName output pending
  | some e => removeTemp files tempName output (some e)

section

variable {files files₀ : Files φ} {tempName output name : Bytes}

/-! ## Files under other names -/

theorem onDisk_eq_absent_iff : onDisk files name = .absent ↔ files.get? name = none := by
  unfold onDisk
  split <;> simp_all

theorem onDisk_congr (h : files.get? name = files₀.get? name) : onDisk files name = onDisk files₀ name := by
  unfold onDisk
  rw [h]

theorem onDisk_leave (files : Files φ) (name : Bytes) (disk : OnDisk φ) :
    onDisk (leave files name disk) name = disk := by
  unfold onDisk
  cases disk <;> simp [leave, Dict.get?_set, Dict.get?_erase]

theorem get?_leave_of_ne (files : Files φ) (disk : OnDisk φ) (hne : name ≠ tempName) :
    (leave files tempName disk).get? name = files.get? name := by
  cases disk <;> simp [leave, Dict.get?_set, Dict.get?_erase, hne]

/-- Files that differ in one name are at most one more. -/
theorem length_le_of_agree (hagree : ∀ name ≠ tempName, files.get? name = files₀.get? name) :
    files.entries.length ≤ files₀.entries.length + 1 := by
  have hsubset : files.keys ⊆ tempName :: files₀.keys := by
    intro name hname
    by_cases heq : name = tempName
    · exact heq ▸ List.mem_cons_self
    · obtain ⟨file, hfile⟩ := Dict.mem_keys_iff.mp hname
      rw [hagree name heq] at hfile
      exact List.mem_cons_of_mem _ (Dict.mem_keys_iff.mpr ⟨file, hfile⟩)
  have hle := (List.subperm_of_subset files.nodup hsubset).length_le
  simpa only [Dict.keys, List.length_cons, List.length_map] using hle

theorem length_leave_le (files : Files φ) (name : Bytes) (disk : OnDisk φ) :
    (leave files name disk).entries.length ≤ files.entries.length + 1 :=
  length_le_of_agree fun _ hne => get?_leave_of_ne files disk hne

/-! ## The name of the new file -/

/-- A name that is found is not taken, and it is the first one unless that is. -/
theorem tempNameFrom_spec {fuel : ℕ} {nameHalves : Bytes × Bytes} {found : Bytes}
    (h : tempNameFrom files fuel nameHalves tempName = some found) :
    files.get? found = none ∧ (files.get? tempName = none → found = tempName) := by
  induction fuel generalizing nameHalves tempName with
  | zero => cases h
  | succ fuel ih =>
    rw [tempNameFrom] at h
    split at h
    · next hthere =>
      refine ⟨(ih h).1, fun hnone => ?_⟩
      rw [hnone] at hthere
      cases hthere
    · next hthere =>
      obtain rfl := Option.some.inj h
      exact ⟨Option.not_isSome_iff_eq_none.mp hthere, fun _ => rfl⟩

/-- While no name is found, each one that was tried is there, and it is longer than the last. -/
theorem le_countP_of_tempNameFrom {fuel : ℕ} {nameHalves : Bytes × Bytes} {tempName : Bytes}
    (hlength : tempName.length = (nameHalves.1 ++ nameHalves.2).length)
    (h : tempNameFrom files fuel nameHalves tempName = none) :
    fuel ≤ files.keys.countP fun name => tempName.length ≤ name.length := by
  induction fuel generalizing nameHalves tempName with
  | zero => exact Nat.zero_le _
  | succ fuel ih =>
    rw [tempNameFrom] at h
    split at h
    · next hthere =>
      obtain ⟨f, hf⟩ := Option.isSome_iff_exists.mp hthere
      have hmem : tempName ∈ files.keys := Dict.mem_keys_iff.mpr ⟨f, hf⟩
      have hnext : (nameHalves.1 ++ lit "_" ++ nameHalves.2).length = tempName.length + 1 := by
        have hunderscore : (lit "_").length = 1 := rfl
        simp only [hlength, List.length_append, hunderscore]
        omega
      have hrest := ih rfl h
      rw [hnext] at hrest
      have hmono (names : List Bytes) :
          names.countP (fun name => tempName.length + 1 ≤ name.length) ≤
            names.countP fun name => tempName.length ≤ name.length :=
        List.countP_mono_left fun name _ hlonger => by
          simp only [decide_eq_true_eq] at hlonger ⊢
          omega
      -- The name itself is counted here, and not among the longer ones.
      obtain ⟨before, after, hkeys⟩ := List.append_of_mem hmem
      have hbefore := hmono before
      have hafter := hmono after
      rw [hkeys, List.countP_append, List.countP_cons_of_neg (by simp)] at hrest
      rw [hkeys, List.countP_append, List.countP_cons_of_pos (by simp)]
      omega
    · cases h

/-- The halves of a name. -/
theorem splitext_append (p : Bytes) : (splitext p).1 ++ (splitext p).2 = p := by
  unfold splitext
  simp only
  split
  · exact List.take_append_drop _ _
  · exact List.append_nil _

/-- More names than there are files are enough. -/
theorem exists_tempName {fuel : ℕ} (hfuel : files.entries.length < fuel) (output : Bytes) :
    ∃ tempName, tempNameFrom files fuel (splitext output) output = some tempName := by
  rw [← Option.ne_none_iff_exists']
  intro hnone
  have hcount := le_countP_of_tempNameFrom (by rw [splitext_append]) hnone
  have hle : files.keys.countP (fun name => output.length ≤ name.length) ≤ files.entries.length :=
    List.countP_le_length.trans (List.length_map _).le
  omega

/-- The new name has the halves of the first one, with underscores between them. -/
theorem exists_underscores {fuel : ℕ} {nameHalves : Bytes × Bytes} {found : Bytes}
    (h : tempNameFrom files fuel nameHalves tempName = some found) : found = tempName ∨
      ∃ between, found = nameHalves.1 ++ (between ++ lit "_") ++ nameHalves.2 := by
  induction fuel generalizing nameHalves tempName with
  | zero => cases h
  | succ fuel ih =>
    rw [tempNameFrom] at h
    split at h
    · right
      obtain rfl | ⟨between, rfl⟩ := ih h
      · exact ⟨[], rfl⟩
      · exact ⟨lit "_" ++ between, by simp only [List.append_assoc]⟩
    · exact Or.inl (Option.some.inj h).symm

/-- An extension is a dot with no other one behind it. -/
theorem exists_extension {p : Bytes} (h : (splitext p).2 ≠ []) :
    ∃ rest, (splitext p).2 = dot :: rest ∧ dot ∉ rest := by
  unfold splitext at h ⊢
  simp only at h ⊢
  split at h
  · next hsplit =>
    rw [if_pos hsplit]
    -- The name from behind, up to the dot.
    have hparts := List.takeWhile_append_dropWhile (p := (· != dot)) (l := p.reverse)
    have hlength := congrArg List.length hparts
    rw [List.length_append, List.length_reverse] at hlength
    have hdot : dot ∉ p.reverse.takeWhile (· != dot) := fun hmem => by
      have hne := List.mem_takeWhile_imp hmem
      simp at hne
    cases hrest : p.reverse.dropWhile (· != dot) with
    | nil =>
      rw [hrest] at hlength
      have hpos := Nat.zero_lt_of_lt hsplit.1
      unfold rfindEnd at hpos
      simp only [List.length_nil] at hlength
      omega
    | cons c front =>
      have hc : c = dot := by
        have hne : p.reverse.dropWhile (· != dot) ≠ [] := by simp [hrest]
        have hhead := List.head_dropWhile_not (· != dot) hne
        simpa [hrest] using hhead
      subst hc
      refine ⟨(p.reverse.takeWhile (· != dot)).reverse, ?_, by rwa [List.mem_reverse]⟩
      have hp : p = front.reverse ++ dot :: (p.reverse.takeWhile (· != dot)).reverse := by
        conv_lhs => rw [← List.reverse_reverse p, ← hparts, hrest]
        simp
      have hindex : rfindEnd p dot - 1 = front.reverse.length := by
        unfold rfindEnd
        rw [hrest, List.length_cons] at hlength
        rw [List.length_reverse]
        omega
      rw [hindex]
      conv_lhs => rw [hp]
      exact List.drop_left
  · exact absurd rfl h

/-- An extension with no other dot is the end of a name exactly if it is the extension of the name. -/
theorem suffix_iff_of_extension {front rest pattern : Bytes} (hrest : dot ∉ rest)
    (hpattern : dot ∉ pattern) : dot :: pattern <:+ front ++ dot :: rest ↔ pattern = rest := by
  -- Of two ends of one name, one is an end of the other.
  have hend {a b : Bytes} (hb : dot ∉ b) (h : dot :: a <:+ dot :: b) : a = b := by
    rcases List.suffix_cons_iff.mp h with heq | hshort
    · exact (List.cons.inj heq).2
    · exact absurd (hshort.mem List.mem_cons_self) hb
  constructor
  · intro h
    rcases le_total (dot :: pattern).length (dot :: rest).length with hle | hle
    · exact hend hrest (List.suffix_of_suffix_length_le h (List.suffix_append _ _) hle)
    · exact (hend hpattern (List.suffix_of_suffix_length_le (List.suffix_append _ _) h hle)).symm
  · rintro rfl
    exact List.suffix_append _ _

/-- Names with the same ends have the same format. -/
theorem archiveFormat_congr {a b : Bytes} (htar : lit ".tar" <:+ a ↔ lit ".tar" <:+ b)
    (hdir : lit "/" <:+ a ↔ lit "/" <:+ b) (hsqlite : lit ".sqlite" <:+ a ↔ lit ".sqlite" <:+ b) :
    archiveFormat a = archiveFormat b := by
  obtain ⟨ha₁, ha₂, ha₃⟩ := archiveFormat_iff a
  obtain ⟨hb₁, hb₂, hb₃⟩ := archiveFormat_iff b
  rw [← ha₁, ← hb₁] at htar
  rw [← ha₂, ← hb₂] at hdir
  rw [← ha₃, ← hb₃] at hsqlite
  cases hb : archiveFormat b with
  | tar => exact htar.mpr hb
  | dir => exact hdir.mpr hb
  | sqlite => exact hsqlite.mpr hb
  | zip =>
    simp only [hb, reduceCtorEq, iff_false] at htar hdir hsqlite
    cases ha : archiveFormat a with
    | tar => exact absurd ha htar
    | dir => exact absurd ha hdir
    | sqlite => exact absurd ha hsqlite
    | zip => rfl

/-- A name without one of the extensions is that of a zip file. -/
theorem archiveFormat_eq_zip {name : Bytes} (htar : ¬ lit ".tar" <:+ name) (hdir : ¬ lit "/" <:+ name)
    (hsqlite : ¬ lit ".sqlite" <:+ name) : archiveFormat name = .zip := by
  obtain ⟨htar', hdir', hsqlite'⟩ := archiveFormat_iff name
  cases h : archiveFormat name with
  | tar => exact absurd (htar'.mp h) htar
  | dir => exact absurd (hdir'.mp h) hdir
  | sqlite => exact absurd (hsqlite'.mp h) hsqlite
  | zip => rfl

/-- The new name has the format of the output, if it is the output, or that is the name of a zip file
or has an extension. -/
theorem archiveFormat_newName {fuel : ℕ} {output found : Bytes}
    (h : tempNameFrom files fuel (splitext output) output = some found)
    (hends : files.get? output = none ∨ archiveFormat output = .zip ∨ (splitext output).2 ≠ []) :
    archiveFormat found = archiveFormat output := by
  rcases hends with hnone | hends
  · rw [(tempNameFrom_spec h).2 hnone]
  have hsplit := splitext_append output
  obtain rfl | ⟨between, rfl⟩ := exists_underscores h
  · rfl
  by_cases hext : (splitext output).2 = []
  · -- The new name ends in an underscore.
    rw [hends.resolve_right (not_not.mpr hext), hext, List.append_nil]
    have hlast (pattern : Bytes) {c : UInt8} (hc : c ≠ 95) :
        ¬ pattern ++ [c] <:+ (splitext output).1 ++ (between ++ lit "_") := by
      rintro ⟨front, hfront⟩
      rw [← List.append_assoc, ← List.append_assoc] at hfront
      have hends := congrArg List.getLast? hfront
      rw [List.getLast?_concat] at hends
      have hunderscore : ((splitext output).1 ++ between ++ lit "_").getLast? = some 95 :=
        List.getLast?_concat
      exact hc (Option.some.inj (hends.trans hunderscore))
    exact archiveFormat_eq_zip (hlast (lit ".ta") (by decide)) (hlast [] (by decide))
      (hlast (lit ".sqlit") (by decide))
  · -- It ends in the extension of the output.
    obtain ⟨rest, hrest, hdot⟩ := exists_extension hext
    rw [hrest] at hsplit ⊢
    have hslash (front : Bytes) : lit "/" <:+ front ++ dot :: rest ↔ lit "/" <:+ dot :: rest := by
      refine ⟨fun h => ?_, fun h => h.trans (List.suffix_append _ _)⟩
      exact List.suffix_of_suffix_length_le h (List.suffix_append _ _) (Nat.succ_le_succ (Nat.zero_le _))
    have hend (front pattern : Bytes) (hpattern : dot ∉ pattern) :
        dot :: pattern <:+ front ++ dot :: rest ↔ dot :: pattern <:+ output := by
      rw [← hsplit, suffix_iff_of_extension hdot hpattern, suffix_iff_of_extension hdot hpattern]
    refine archiveFormat_congr (hend _ (lit "tar") (by decide)) ?_ (hend _ (lit "sqlite") (by decide))
    rw [hslash, ← hsplit, hslash]

/-! ## What is left -/

/-- Two files that are there are the same if their names are. -/
theorem samefile_eq {a b : Bytes} (ha : files.get? a ≠ none) (hb : files.get? b ≠ none) :
    samefile files a b = .ok (decide (a = b)) :=
  if_pos ⟨Option.isSome_iff_ne_none.mpr ha, Option.isSome_iff_ne_none.mpr hb⟩

/-- The output itself is not removed. -/
theorem removeTemp_output (pending : Option PyError) :
    removeTemp files output output pending = (files, pending) := by
  unfold removeTemp
  split
  · next hthere =>
    have hne := Option.isSome_iff_ne_none.mp hthere
    rw [samefile_eq hne hne, decide_eq_true rfl]
  · rfl

/-- A file that is not there is not removed. -/
theorem removeTemp_gone (h : files.get? tempName = none) (pending : Option PyError) :
    removeTemp files tempName output pending = (files, pending) := by
  unfold removeTemp
  rw [h]
  rfl

/-- Another file is removed. -/
theorem removeTemp_other (hne : tempName ≠ output) (htemp : files.get? tempName ≠ none)
    (houtput : files.get? output ≠ none) (pending : Option PyError) :
    removeTemp files tempName output pending = (files.erase tempName, pending) := by
  unfold removeTemp
  rw [if_pos (Option.isSome_iff_ne_none.mpr htemp), samefile_eq htemp houtput, decide_eq_false hne]

/-- The new file is the output. -/
theorem finish_self (pending : Option PyError) : finish files output output pending =
    (files, if files.get? output = none then pending.or (some .fileNotFoundError) else pending) := by
  unfold finish
  cases pending with
  | some e =>
    simp only [removeTemp_output, Option.some_or, ite_self]
  | none =>
    unfold moveToOutput
    by_cases hthere : files.get? output = none
    · have hsame : samefile files output output = .error .fileNotFoundError :=
        if_neg fun h => Option.isSome_iff_ne_none.mp h.1 hthere
      simp only [hsame, removeTemp_output, if_pos hthere, Option.none_or]
    · simp only [samefile_eq hthere hthere, decide_true, removeTemp_output, if_neg hthere]

/-- There is no new file. -/
theorem finish_gone (h : files.get? tempName = none) (pending : Option PyError) :
    finish files tempName output pending = (files, pending.or (some .fileNotFoundError)) := by
  unfold finish
  cases pending with
  | some e => exact removeTemp_gone h _
  | none =>
    have hsame : samefile files tempName output = .error .fileNotFoundError :=
      if_neg fun hthere => Option.isSome_iff_ne_none.mp hthere.1 h
    unfold moveToOutput
    simp only [hsame]
    exact removeTemp_gone h _

/-- The new file is another one than an output that is there. -/
theorem finish_other {f : Option φ} (hne : tempName ≠ output) (htemp : files.get? tempName = some f)
    (houtput : files.get? output ≠ none) (pending : Option PyError) :
    finish files tempName output pending =
      if pending = none ∧ ¬[slash] <:+ output then ((files.erase tempName).set output f, none)
      else (files.erase tempName, pending.or (some .isADirectoryError)) := by
  have hthere : files.get? tempName ≠ none := by
    rw [htemp]
    exact Option.some_ne_none f
  unfold finish
  cases pending with
  | some e =>
    rw [if_neg fun h => Option.some_ne_none e h.1]
    exact removeTemp_other hne hthere houtput _
  | none =>
    have hrename : moveToOutput files tempName output = rename files tempName output := by
      unfold moveToOutput
      rw [samefile_eq hthere houtput, decide_eq_false hne]
    simp only [hrename, rename, htemp, true_and]
    by_cases hslash : [slash] <:+ output
    · rw [if_pos hslash, if_neg (not_not.mpr hslash)]
      exact removeTemp_other hne hthere houtput _
    · rw [if_neg hslash, if_pos hslash]
      refine removeTemp_gone ?_ none
      rw [Dict.get?_set, if_neg hne, Dict.get?_erase, if_pos rfl]

/-- What is left when a new file was made, and nothing else was changed. No file but the output is
another one than before. The output is the new file, if nothing is raised, and otherwise what it was,
if it was there. -/
theorem finish_spec (hfresh : files₀.get? tempName = none)
    (hname : files₀.get? output = none → tempName = output)
    (hagree : ∀ name ≠ tempName, files.get? name = files₀.get? name) (pending : Option PyError) :
    (∀ name ≠ output, (finish files tempName output pending).1.get? name = files₀.get? name) ∧
      ((finish files tempName output pending).2 = none ↔ pending = none ∧
        files.get? tempName ≠ none ∧ (files₀.get? output ≠ none → ¬[slash] <:+ output)) ∧
      ((finish files tempName output pending).2 = none →
        (finish files tempName output pending).1.get? output = files.get? tempName) ∧
      ((finish files tempName output pending).2 ≠ none → files₀.get? output ≠ none →
        (finish files tempName output pending).1.get? output = files₀.get? output) := by
  by_cases hself : tempName = output
  · subst hself
    rw [finish_self]
    simp only [hfresh, ne_eq, not_true_eq_false, false_implies, implies_true, and_true]
    refine ⟨hagree, ?_⟩
    by_cases hthere : files.get? tempName = none
    · simp [hthere]
    · simp [hthere]
  · have hold : files₀.get? output ≠ none := fun hnone => hself (hname hnone)
    have houtput : files.get? output = files₀.get? output := hagree output (Ne.symm hself)
    cases htemp : files.get? tempName with
    | none =>
      -- The files are what they were.
      have hsame (name : Bytes) : files.get? name = files₀.get? name := by
        by_cases heq : name = tempName
        · rw [heq, htemp, hfresh]
        · exact hagree name heq
      rw [finish_gone htemp]
      refine ⟨fun name _ => hsame name, ?_, fun hnone => ?_, fun _ _ => houtput⟩
      · simp
      · simp at hnone
    | some f =>
      have herased (name : Bytes) : (files.erase tempName).get? name = files₀.get? name := by
        rw [Dict.get?_erase]
        split
        · next heq => rw [heq, hfresh]
        · next hne => exact hagree name hne
      rw [finish_other hself htemp (houtput ▸ hold)]
      split
      · next hmoved =>
        -- The output is replaced.
        refine ⟨fun name hne => ?_, ?_, fun _ => ?_, fun hnot => absurd rfl hnot⟩
        · rw [Dict.get?_set, if_neg hne, herased]
        · simp [hmoved.1, hmoved.2]
        · rw [Dict.get?_set, if_pos rfl]
      · next hremoved =>
        have hraised : pending.or (some .isADirectoryError) ≠ none := by simp
        refine ⟨fun name _ => herased name, ?_, fun hnone => absurd hnone hraised,
          fun _ _ => herased output⟩
        refine iff_of_false hraised fun h => hremoved ⟨h.1, h.2.2 hold⟩

end

end Libgetar
