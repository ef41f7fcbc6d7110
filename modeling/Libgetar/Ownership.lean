import Libgetar.SharedArray
import Mathlib.Data.List.ReduceOption

/-!
# Arrays that change hands

`disown` gives the target of an array to its caller and deletes the shim, without a look at the
count. `readIndividual` of `GTAR` does so with the bytes that it was given by the archive, and hands
the same target over to the array of numbers that it returns. If there is no record, that target is
NULL. `readUniform` copies the handle instead.

Operations on handles, and these three, keep a heap sound exactly if nothing is disowned that has
other handles, beside what `Admits` asks of the operations (`sound_calls_iff`). If each target that is
handed over is a new one, nothing else can go wrong. When the last handle is gone, the arrays that were
deleted and the ones that were disowned are then all that were ever handed over, each once.
-/

namespace Libgetar

open Lib

namespace SharedArray

namespace Heap

/-- `disown`. Whoever calls it is in charge of the target from then on, and no longer the shim. -/
def disown (m : Heap) (h : ℕ) : Heap × Option ℕ :=
  match m.handle h with
  | none => (m, none)
  | some none => (m, none)
  | some (some s) =>
    match m.shimAt s with
    | none => (m.touch, none)
    | some shim =>
      ({ m with handles := m.handles.set h (some none), cells := m.cells.set s ⟨none, none⟩ },
        shim.target)

/-- `size`. -/
def size (m : Heap) (h : ℕ) : ℕ :=
  match m.handle h with
  | some (some s) => ((m.shimAt s).map Shim.length).getD 0
  | _ => 0

/-- What an archive returns: a null array, or one with a target and a number of bytes. -/
def archiveRead (m : Heap) : Option (ℕ × ℕ) → Heap
  | none => m.construct
  | some (target, byteLength) => m.ofTarget (some target) byteLength

/-- `readIndividual`, for items of a size. It throws if they are not whole. -/
def readIndividual (m : Heap) (itemSize : ℕ) (found : Option (ℕ × ℕ)) : Heap :=
  let bytes := m.handles.length
  let m := m.archiveRead found
  let byteLength := m.size bytes
  if byteLength % itemSize ≠ 0 then m.destroy bytes
  else
    let given := m.disown bytes
    (given.1.ofTarget given.2 (byteLength / itemSize)).destroy bytes

/-- `readUniform`. It throws in the same case. -/
def readUniform (m : Heap) (itemSize : ℕ) (found : Option (ℕ × ℕ)) : Heap :=
  let bytes := m.handles.length
  let m := m.archiveRead found
  if m.size bytes % itemSize ≠ 0 then m.destroy bytes
  else if m.size bytes ≠ 0 then (m.copyOf bytes).destroy bytes
  else m.construct.destroy bytes

end Heap

/-- What a program does with arrays. The archive has a target and a number of bytes for what is
read, if there is such a record. -/
inductive Call where
  | op (operation : Op)
  | disown (h : ℕ)
  | readIndividual (itemSize : ℕ) (found : Option (ℕ × ℕ))
  | readUniform (itemSize : ℕ) (found : Option (ℕ × ℕ))

/-- One call, and the target that was disowned. -/
def call (m : Heap) : Call → Heap × Option ℕ
  | .op operation => (step m operation, none)
  | .disown h => m.disown h
  | .readIndividual itemSize found => (m.readIndividual itemSize found, none)
  | .readUniform itemSize found => (m.readUniform itemSize found, none)

/-- The heap after calls, starting without a handle. -/
def runCalls (calls : List Call) : Heap := exec call {} calls

/-- The targets that were disowned. -/
def disowned (calls : List Call) : List ℕ := (outputs call {} calls).reduceOption

/-- The targets that a call hands over to shims that outlast it, or to ones that do not. What is not
found is NULL. -/
def Call.targets : Call → List (Option ℕ)
  | .op operation => operation.targets
  | .disown _ => []
  | .readIndividual _ found => [found.map Prod.fst]
  | .readUniform _ found => found.toList.map fun record => some record.1

/-- No other handle points to what the handle points to. -/
def SoleOwner (m : Heap) (h : ℕ) : Prop := ∀ s, m.handle h = some (some s) → m.pointing s = 1

/-- A target can be taken over, and be deleted at once if that is asked for. -/
def Takes (m : Heap) (target : ℕ) (deleted : Prop) : Prop :=
  target ∉ m.freed ∧ (deleted → some target ∉ m.givens)

/-- The call is one that a sound heap allows. -/
def Allows (m : Heap) : Call → Prop
  | .op operation => Admits m operation
  | .disown h => SoleOwner m h
  | .readIndividual itemSize found => ∀ record ∈ found, Takes m record.1 (record.2 % itemSize ≠ 0)
  | .readUniform itemSize found =>
    ∀ record ∈ found, Takes m record.1 (record.2 % itemSize ≠ 0 ∨ record.2 = 0)

section

variable {m : Heap} {h s : ℕ}

/-! ## Disowning -/

/-- A handle that lets go of its shim. -/
theorem pointing_letGo (hh : m.handle h = some (some s)) (s' : ℕ) :
    (m.handles.set h (some none)).count (some (some s')) =
      if s' = s then m.pointing s - 1 else m.pointing s' := by
  have hset := count_set_add (Heap.handle_eq_some_iff.mp hh) (some none) (some (some s'))
  simp only [Option.some.injEq, reduceCtorEq, if_false, Nat.add_zero] at hset
  unfold Heap.pointing
  split
  · next heq =>
    rw [heq, if_pos rfl] at hset
    rw [heq]
    omega
  · next hne =>
    rw [if_neg fun heq => hne heq.symm] at hset
    omega

/-- Disowning what a handle of a sound heap points to. -/
theorem Sound.disown_eq (hm : Sound m) (hh : m.handle h = some (some s)) {given : Option ℕ}
    {shim : Shim} (hcell : m.cells[s]? = some ⟨given, some shim⟩) : m.disown h =
      ({ m with handles := m.handles.set h (some none), cells := m.cells.set s ⟨none, none⟩ },
        given) := by
  unfold Heap.disown
  simp only [hh, Heap.shimAt_of_cell hcell, (hm.shim s given shim hcell).2.2]

/-- A sound heap stays so exactly if the only handle disowns. -/
theorem Sound.disown_iff (hm : Sound m) (h : ℕ) : Sound (m.disown h).1 ↔ SoleOwner m h := by
  by_cases hh : ∃ s, m.handle h = some (some s)
  · obtain ⟨s, hh⟩ := hh
    obtain ⟨given, shim, hcell, hcount, hpos, htarget⟩ := hm.cell_of_handle hh
    rw [hm.disown_eq hh hcell]
    have hpointing := pointing_letGo hh
    have hlt : s < m.cells.length := (List.getElem?_eq_some_iff.mp hcell).1
    have hcells (s' : ℕ) : (m.cells.set s ⟨none, none⟩)[s']? =
        if s' = s then some ⟨none, none⟩ else m.cells[s']? := by
      simp only [List.getElem?_set, hlt, if_true, eq_comm]
    constructor
    · -- With another handle, that one would point to nothing.
      intro hm' s' hs'
      obtain rfl : s = s' := by
        rw [hh] at hs'
        exact Option.some.inj (Option.some.inj hs')
      by_contra hmany
      have hleft : 0 < (m.handles.set h (some none)).count (some (some s)) := by
        rw [hpointing, if_pos rfl]
        omega
      have hsome := hm'.held s hleft
      rw [Heap.shimAt_of_cell ((hcells s).trans (if_pos rfl))] at hsome
      cases hsome
    · intro hsole
      have hlast : m.pointing s = 1 := hsole s hh
      refine hm.update hm.untouched hcells (fun s' hne => (hpointing s').trans (if_neg hne))
        (fun _ => ?_) (fun shim' hshim' => by cases hshim') fun s' target shim' hs' => ?_
      · exact (hpointing s).trans ((if_pos rfl).trans (by omega))
      · rw [hcells] at hs'
        split at hs'
        · cases hs'
        · exact hm.freed s' target shim' hs'
  · -- The handle points to nothing.
    have hsame : (m.disown h).1 = m := by
      unfold Heap.disown
      split
      · rfl
      · rfl
      · next s hs => exact absurd ⟨s, hs⟩ hh
    rw [hsame]
    exact iff_of_true hm fun s hs => absurd ⟨s, hs⟩ hh

/-! ## Reading numbers -/

/-- Behind a read, the handle for the bytes is gone. -/
def Heap.gap (m : Heap) : Heap := { m with handles := m.handles ++ [none] }

/-- Its shim may have been deleted, with the target disowned. -/
def Heap.passed (m : Heap) : Heap := { m.gap with cells := m.cells ++ [⟨none, none⟩] }

/-- Or the target was deleted with it. -/
def Heap.lost (m : Heap) (target : ℕ) : Heap :=
  { m.gap with cells := m.cells ++ [⟨some target, none⟩], freed := m.freed ++ [target] }

/-- The last one of a list is changed. -/
theorem modify_concat {α : Type*} (l : List α) (a : α) (f : α → α) :
    (l ++ [a]).modify l.length f = l ++ [f a] := by
  rw [List.modify_eq_set_getElem?]
  simp

/-- The bytes that were read. -/
theorem size_archiveRead (m : Heap) (found : Option (ℕ × ℕ)) :
    (m.archiveRead found).size m.handles.length = (found.map Prod.snd).getD 0 := by
  cases found with
  | none => simp [Heap.archiveRead, Heap.construct, Heap.size, Heap.handle]
  | some record => simp [Heap.archiveRead, Heap.ofTarget, Heap.size, Heap.handle, Heap.shimAt]

/-- The only handle of a new array is destroyed. -/
theorem destroy_ofTarget (m : Heap) (target byteLength : ℕ) :
    (m.ofTarget (some target) byteLength).destroy m.handles.length = m.lost target := by
  simp [Heap.ofTarget, Heap.destroy, Heap.release, Heap.handle, Heap.decrement, Heap.shimAt,
    Heap.setShim, Heap.deleteIfNull, Heap.lost, Heap.gap, modify_concat]

/-- If there is no record, the target of the numbers is NULL. -/
theorem readIndividual_none (m : Heap) (itemSize : ℕ) :
    m.readIndividual itemSize none = m.gap.ofTarget none 0 := by
  simp only [Heap.readIndividual, size_archiveRead]
  simp [Heap.archiveRead, Heap.construct, Heap.disown, Heap.handle, Heap.ofTarget, Heap.destroy,
    Heap.release, Heap.gap]

/-- Otherwise they have that of the bytes. -/
theorem readIndividual_some (m : Heap) (itemSize : ℕ) (record : ℕ × ℕ) :
    m.readIndividual itemSize (some record) =
      if record.2 % itemSize ≠ 0 then m.lost record.1
      else m.passed.ofTarget (some record.1) (record.2 / itemSize) := by
  simp only [Heap.readIndividual, size_archiveRead]
  refine if_congr Iff.rfl (destroy_ofTarget m record.1 record.2) ?_
  simp [Heap.archiveRead, Heap.disown, Heap.handle, Heap.shimAt, Heap.ofTarget, Heap.destroy,
    Heap.release, Heap.passed, Heap.gap]

/-- If there is no record, the pointer to a number is NULL. -/
theorem readUniform_none (m : Heap) (itemSize : ℕ) :
    m.readUniform itemSize none = m.gap.construct := by
  simp only [Heap.readUniform, size_archiveRead]
  simp [Heap.archiveRead, Heap.construct, Heap.handle, Heap.destroy, Heap.release, Heap.gap]

/-- Otherwise it is a copy of the handle for the bytes, if there are any. -/
theorem readUniform_some (m : Heap) (itemSize : ℕ) (record : ℕ × ℕ) :
    m.readUniform itemSize (some record) =
      if record.2 % itemSize ≠ 0 then m.lost record.1
      else if record.2 ≠ 0 then m.gap.ofTarget (some record.1) record.2
      else (m.lost record.1).construct := by
  simp only [Heap.readUniform, size_archiveRead]
  refine if_congr Iff.rfl (destroy_ofTarget m record.1 record.2) (if_congr Iff.rfl ?_ ?_)
  · simp [Heap.archiveRead, Heap.copyOf, Heap.increment, Heap.handle, Heap.shimAt, Heap.ofTarget,
      Heap.destroy, Heap.release, Heap.decrement, Heap.setShim, Heap.deleteIfNull, Heap.gap,
      modify_concat]
  · simp [Heap.archiveRead, Heap.construct, Heap.handle, Heap.shimAt, Heap.ofTarget,
      Heap.destroy, Heap.release, Heap.decrement, Heap.setShim, Heap.deleteIfNull, Heap.lost,
      Heap.gap, modify_concat]

/-! ## Calls that keep a heap sound -/

/-- A cell at the end. -/
theorem getElem?_cells_concat (m : Heap) (cell : Cell) (s : ℕ) :
    (m.cells ++ [cell])[s]? = if s = m.cells.length then some cell else m.cells[s]? := by
  rw [List.getElem?_append]
  split
  · next hlt => rw [if_neg (Nat.ne_of_lt hlt)]
  · next hge =>
    split
    · next heq => rw [heq, Nat.sub_self, List.getElem?_cons_zero]
    · next hne =>
      rw [List.getElem?_eq_none (by simp only [List.length_singleton]; omega),
        List.getElem?_eq_none (by omega)]

/-- Nothing points to what is not allocated yet. -/
theorem Sound.pointing_length (hm : Sound m) : m.pointing m.cells.length = 0 := by
  by_contra hne
  have hsome := hm.held m.cells.length (Nat.pos_of_ne_zero hne)
  rw [Heap.shimAt, List.getElem?_eq_none le_rfl] at hsome
  cases hsome

theorem pointing_gap (m : Heap) (s : ℕ) : m.gap.pointing s = m.pointing s := by
  unfold Heap.pointing Heap.gap
  rw [List.count_append, List.count_singleton]
  rfl

theorem sound_gap_iff : Sound m.gap ↔ Sound m :=
  ⟨fun hm => hm.of_pointing fun s => (pointing_gap m s).symm, fun hm => hm.of_pointing (pointing_gap m)⟩

theorem sound_construct_iff : Sound m.construct ↔ Sound m := by
  refine ⟨fun hm => hm.of_pointing fun s => ?_, Sound.construct⟩
  unfold Heap.pointing Heap.construct
  rw [List.count_append, List.count_singleton]
  simp

/-- A shim that is deleted before the read is over. -/
theorem Sound.dead (hm : Sound m) {m' : Heap} {given : Option ℕ} (hhandles : m'.handles = m.gap.handles)
    (huntouched : m'.touched = m.touched) (hcells : m'.cells = m.cells ++ [⟨given, none⟩])
    (hfreed : ∀ (s target : ℕ) (shim : Option Shim), m'.cells[s]? = some ⟨some target, shim⟩ →
      m'.freed.count target = if shim.isNone then 1 else 0) : Sound m' := by
  have hpointing (s : ℕ) : m'.pointing s = m.pointing s := by
    rw [← pointing_gap m, Heap.pointing, hhandles]
    rfl
  refine hm.update (huntouched.trans hm.untouched)
    (fun s => by rw [hcells]; exact getElem?_cells_concat m _ s) (fun s _ => hpointing s) (fun _ => ?_)
    (fun shim hshim => by cases hshim) hfreed
  rw [hpointing, hm.pointing_length]

theorem Sound.passed (hm : Sound m) : Sound m.passed := by
  refine hm.dead rfl rfl rfl fun s target shim hcell => ?_
  rw [Heap.passed, getElem?_cells_concat] at hcell
  split at hcell
  · cases hcell
  · exact hm.freed s target shim hcell

/-- A target can be deleted at once if it is new. -/
theorem Sound.lost_iff (hm : Sound m) (target : ℕ) : Sound (m.lost target) ↔ Takes m target True := by
  have hcell (s : ℕ) : (m.lost target).cells[s]? =
      if s = m.cells.length then some ⟨some target, none⟩ else m.cells[s]? :=
    getElem?_cells_concat m _ s
  have hcount (t : ℕ) : (m.lost target).freed.count t =
      m.freed.count t + if target = t then 1 else 0 := by
    show (m.freed ++ [target]).count t = _
    rw [List.count_append, List.count_singleton]
    simp only [beq_iff_eq]
  constructor
  · intro hm'
    have hnew := hm'.freed m.cells.length target none ((hcell _).trans (if_pos rfl))
    rw [hcount, if_pos rfl] at hnew
    refine ⟨List.count_eq_zero.mp (Nat.add_right_cancel hnew), fun _ hmem => ?_⟩
    -- A shim with the target would have it deleted or not, but not once before and once now.
    obtain ⟨⟨given, shim⟩, hmem, rfl : given = some target⟩ := List.mem_map.mp hmem
    obtain ⟨s, hs⟩ := List.mem_iff_getElem?.mp hmem
    have hne : s ≠ m.cells.length := (List.getElem?_eq_some_iff.mp hs).1.ne
    have hold := hm.freed s target shim hs
    have hafter := hm'.freed s target shim (((hcell s).trans (if_neg hne)).trans hs)
    rw [hcount, if_pos rfl] at hafter
    omega
  · rintro ⟨hfreed, hgivens⟩
    refine hm.dead rfl rfl rfl fun s t shim hs => ?_
    rw [hcell] at hs
    rw [hcount]
    split at hs
    · cases hs
      rw [if_pos rfl, List.count_eq_zero.mpr hfreed]
      rfl
    · have hne : target ≠ t := by
        rintro rfl
        exact hgivens trivial (List.mem_map.mpr ⟨_, List.mem_of_getElem? hs, rfl⟩)
      rw [if_neg hne]
      exact hm.freed s t shim hs

theorem takes_iff_of_not {target : ℕ} {deleted : Prop} (h : ¬deleted) :
    Takes m target deleted ↔ target ∉ m.freed :=
  and_iff_left fun hdeleted => absurd hdeleted h

theorem takes_iff_of {target : ℕ} {deleted : Prop} (h : deleted) :
    Takes m target deleted ↔ Takes m target True :=
  and_congr_right fun _ => imp_congr_left (iff_true_intro h)

/-- What was read is handed over, or deleted. -/
theorem Sound.readIndividual_iff (hm : Sound m) (itemSize : ℕ) (found : Option (ℕ × ℕ)) :
    Sound (m.readIndividual itemSize found) ↔ Allows m (.readIndividual itemSize found) := by
  simp only [Allows, Option.mem_def]
  cases found with
  | none =>
    rw [readIndividual_none, (sound_gap_iff.mpr hm).ofTarget_iff]
    exact iff_of_true trivial fun record hrecord => by cases hrecord
  | some record =>
    simp only [readIndividual_some, Option.some.injEq, forall_eq']
    split
    · next hrest => rw [hm.lost_iff, takes_iff_of hrest]
    · next hwhole => rw [hm.passed.ofTarget_iff, takes_iff_of_not hwhole]; rfl

/-- The same of a single number. -/
theorem Sound.readUniform_iff (hm : Sound m) (itemSize : ℕ) (found : Option (ℕ × ℕ)) :
    Sound (m.readUniform itemSize found) ↔ Allows m (.readUniform itemSize found) := by
  simp only [Allows, Option.mem_def]
  cases found with
  | none =>
    rw [readUniform_none, sound_construct_iff, sound_gap_iff]
    exact iff_of_true hm fun record hrecord => by cases hrecord
  | some record =>
    simp only [readUniform_some, Option.some.injEq, forall_eq']
    split
    · next hrest => rw [hm.lost_iff, takes_iff_of (Or.inl hrest)]
    · next hwhole =>
      split
      · next hsome =>
        rw [(sound_gap_iff.mpr hm).ofTarget_iff, takes_iff_of_not (not_or.mpr ⟨hwhole, hsome⟩)]
        rfl
      · next hempty =>
        rw [sound_construct_iff, hm.lost_iff, takes_iff_of (Or.inr (not_not.mp hempty))]

/-- One call keeps a sound heap sound exactly if it is allowed. -/
theorem Sound.call_iff (hm : Sound m) (c : Call) : Sound (call m c).1 ↔ Allows m c := by
  cases c with
  | op operation => exact hm.step_iff operation
  | disown h => exact hm.disown_iff h
  | readIndividual itemSize found => exact hm.readIndividual_iff itemSize found
  | readUniform itemSize found => exact hm.readUniform_iff itemSize found

/-! ## Targets that are handed over once -/

/-- The targets that shims are in charge of, or were deleted with. -/
def Heap.charged (m : Heap) : List ℕ := m.givens.reduceOption

/-- No shim that is there has the target NULL. -/
def NullFree (cells : List Cell) : Prop := ∀ (s : ℕ) (shim : Shim), cells[s]? ≠ some ⟨none, some shim⟩

theorem NullFree.setShim (hnull : NullFree m.cells) {old : Shim} (hold : m.shimAt s = some old)
    (new : Option Shim) : NullFree (m.setShim s new).cells := by
  obtain ⟨⟨given, shim⟩, hcell, rfl : shim = some old⟩ := Option.bind_eq_some_iff.mp hold
  intro s' shim' hcell'
  rw [m.getElem?_setShim hcell] at hcell'
  split at hcell'
  · -- The shim was there, with the same target.
    obtain ⟨rfl, -⟩ := Cell.mk.inj (Option.some.inj hcell')
    exact hnull s old hcell
  · exact hnull s' shim' hcell'

theorem NullFree.copyOf (hnull : NullFree m.cells) (rhs : ℕ) : NullFree (m.copyOf rhs).cells := by
  unfold Heap.copyOf Heap.increment
  split
  · exact hnull
  · exact hnull
  · split
    · exact hnull
    · next shim hshim => exact hnull.setShim hshim _

theorem NullFree.release (hnull : NullFree m.cells) (h : ℕ) : NullFree (m.release h).cells := by
  have hdecrement (s : ℕ) : NullFree (m.decrement s).cells := by
    unfold Heap.decrement
    split
    · exact hnull
    · next shim hshim =>
      split
      · exact hnull.setShim hshim _
      · exact hnull.setShim hshim _
  unfold Heap.release
  split
  · exact hnull
  · exact hnull
  · next s _ =>
    unfold Heap.deleteIfNull
    split
    · exact hdecrement s
    · next shim hshim =>
      split
      · exact (hdecrement s).setShim hshim _
      · exact hdecrement s

theorem NullFree.concat {cells : List Cell} (hnull : NullFree cells) {cell : Cell}
    (hcell : cell.given = none → cell.shim = none) : NullFree (cells ++ [cell]) := by
  intro s shim hs
  rw [getElem?_cells_concat ⟨[], cells, [], false⟩ cell s] at hs
  split at hs
  · rw [Option.some.inj hs] at hcell
    cases hcell rfl
  · exact hnull s shim hs

theorem NullFree.step (hnull : NullFree m.cells) {op : Op} (htargets : none ∉ op.targets) :
    NullFree (step m op).cells := by
  cases op with
  | construct => exact hnull
  | ofTarget target length =>
    refine hnull.concat fun (hgiven : target = none) => absurd ?_ htargets
    rw [hgiven]
    exact List.mem_singleton_self _
  | copyOf rhs => exact hnull.copyOf rhs
  | swap h target =>
    show NullFree (m.swap h target).cells
    rw [Heap.cells_swap]
    exact hnull
  | release h => exact hnull.release h
  | destroy h => exact hnull.release h
  | assign h rhs =>
    show NullFree (m.assign h rhs).cells
    unfold Heap.assign
    split
    · split
      · exact hnull
      · refine NullFree.release (m := (m.copyOf rhs).swap h m.handles.length) ?_ _
        rw [Heap.cells_swap]
        exact hnull.copyOf rhs
    · exact hnull

theorem mem_charged {target : ℕ} : target ∈ m.charged ↔ some target ∈ m.givens :=
  List.reduceOption_mem_iff

/-- Something in a list of options is removed. -/
theorem perm_reduceOption_set {α : Type*} {l : List (Option α)} {i : ℕ} {a : Option α}
    (h : l[i]? = some a) : l.reduceOption.Perm (a.toList ++ (l.set i none).reduceOption) := by
  obtain ⟨hi, rfl⟩ := List.getElem?_eq_some_iff.mp h
  calc l.reduceOption
      = (l.take i).reduceOption ++ (l[i].toList ++ (l.drop (i + 1)).reduceOption) := by
        conv_lhs => rw [← List.take_append_drop i l, List.drop_eq_getElem_cons hi]
        rw [List.reduceOption_append, ← List.singleton_append, List.reduceOption_append,
          List.reduceOption_singleton]
    List.Perm _ (l[i].toList ++ ((l.take i).reduceOption ++ (l.drop (i + 1)).reduceOption)) := by
        rw [← List.append_assoc, ← List.append_assoc]
        exact List.perm_append_comm.append_right _
    _ = l[i].toList ++ (l.set i none).reduceOption := by
        rw [List.set_eq_take_append_cons_drop, if_pos hi, List.reduceOption_append,
          List.reduceOption_cons_of_none]

/-- The target of a cell. -/
theorem getElem?_givens {cell : Cell} (hcell : m.cells[s]? = some cell) :
    m.givens[s]? = some cell.given := by
  rw [Heap.givens, List.getElem?_map, hcell]
  rfl

/-- A shim with a target that no other was given can be let go of. -/
theorem droppable_of_charged (hnull : NullFree m.cells) (honce : m.charged.Nodup)
    (hthere : (m.shimAt s).isSome) : Droppable m s := by
  obtain ⟨shim, hshim⟩ := Option.isSome_iff_exists.mp hthere
  obtain ⟨⟨given, -⟩, hcell, rfl⟩ := Option.bind_eq_some_iff.mp hshim
  intro cell hcell'
  obtain rfl := Option.some.inj (hcell.symm.trans hcell')
  constructor
  · rintro rfl
    exact absurd hcell (hnull s shim)
  · rintro target rfl
    right
    intro s' cell' hs' hgiven
    by_contra hne
    -- The target would be in the list again without that of this shim.
    have honce' := (perm_reduceOption_set (getElem?_givens hcell)).nodup_iff.mp honce
    refine (List.nodup_cons.mp honce').1 (List.reduceOption_mem_iff.mpr ?_)
    refine List.mem_of_getElem? (i := s') ?_
    rw [List.getElem?_set_ne (Ne.symm hne), getElem?_givens hs', hgiven]

/-- An operation that hands over new targets only. -/
theorem admits_of_charged (hm : Sound m) (howned : Owned m) (hnull : NullFree m.cells) {op : Op}
    (honce : (m.charged ++ op.targets.reduceOption).Nodup) : Admits m op := by
  have hcharged : m.charged.Nodup := (List.nodup_append.mp honce).1
  have hletsGo (h : ℕ) : LetsGo m h := fun s hh =>
    droppable_of_charged hnull hcharged (hm.held s (List.count_pos_iff.mpr
      (List.mem_of_getElem? (Heap.handle_eq_some_iff.mp hh))))
  cases op with
  | construct => trivial
  | copyOf rhs => trivial
  | swap h target => trivial
  | release h => exact hletsGo h
  | destroy h => exact hletsGo h
  | ofTarget target length =>
    cases target with
    | none => trivial
    | some target =>
      intro hfreed
      exact (List.nodup_append.mp honce).2.2 _ (mem_charged.mpr (howned target hfreed)) target
        (List.mem_singleton_self _) rfl
  | assign h rhs =>
    intro _ _ _ s hh
    have hcharged' : (m.copyOf rhs).charged = m.charged :=
      congrArg List.reduceOption (m.copyOf_frame rhs).1
    exact droppable_of_charged (hnull.copyOf rhs) (hcharged' ▸ hcharged)
      ((hm.copyOf rhs).held s (List.count_pos_iff.mpr
        (List.mem_of_getElem? (Heap.handle_eq_some_iff.mp hh))))

/-- What is known of a heap when targets were handed over, and some of them are gone. -/
structure Accounted (m : Heap) (handed : List (Option ℕ)) (gone : List ℕ) : Prop where
  sound : Sound m
  owned : Owned m
  nullFree : NullFree m.cells
  /-- Shims are in charge of the targets that are not gone. -/
  balance : (m.charged ++ gone).Perm handed.reduceOption

section

variable {handed targets : List (Option ℕ)} {gone : List ℕ}

theorem Accounted.nodup (hm : Accounted m handed gone) (honce : (handed ++ targets).Nodup) :
    (m.charged ++ targets.reduceOption).Nodup := by
  have honce' : (handed ++ targets).reduceOption.Nodup :=
    honce.filterMap fun a a' b (ha : a = some b) (ha' : a' = some b) => ha.trans ha'.symm
  rw [List.reduceOption_append] at honce'
  have hall := (hm.balance.append_right targets.reduceOption).nodup_iff.mpr honce'
  exact hall.sublist ((List.sublist_append_left _ _).append (List.Sublist.refl _))

/-- The balance when more targets are handed over, and shims are in charge of them. -/
theorem Accounted.balance_append (hm : Accounted m handed gone) {m' : Heap}
    (hgivens : m'.givens = m.givens ++ targets) :
    (m'.charged ++ gone).Perm (handed ++ targets).reduceOption := by
  calc List.Perm (m'.charged ++ gone) ((m.charged ++ gone) ++ targets.reduceOption) := by
        rw [Heap.charged, hgivens, List.reduceOption_append, List.append_assoc, List.append_assoc]
        exact List.perm_append_comm.append_left _
    List.Perm _ (handed.reduceOption ++ targets.reduceOption) := hm.balance.append_right _
    _ = (handed ++ targets).reduceOption := (List.reduceOption_append _ _).symm

/-- A target that was not handed over yet is new to the shims. -/
theorem Accounted.takes (hm : Accounted m handed gone) {target : ℕ}
    (honce : (handed ++ [some target]).Nodup) : Takes m target True := by
  have hnew : target ∉ m.charged := fun hmem =>
    (List.nodup_append.mp (hm.nodup honce)).2.2 target hmem target (List.mem_singleton_self _) rfl
  exact ⟨fun hfreed => hnew (mem_charged.mpr (hm.owned target hfreed)),
    fun _ hgiven => hnew (mem_charged.mpr hgiven)⟩

theorem Accounted.op (hm : Accounted m handed gone) (op : Op) (hnull : none ∉ op.targets)
    (honce : (handed ++ op.targets).Nodup) : Accounted (step m op) (handed ++ op.targets) gone where
  sound := (hm.sound.step_iff op).mpr
    (admits_of_charged hm.sound hm.owned hm.nullFree (hm.nodup honce))
  owned := hm.owned.step hm.sound op
  nullFree := hm.nullFree.step hnull
  balance := hm.balance_append (givens_step m op)

theorem Accounted.gap (hm : Accounted m handed gone) : Accounted m.gap handed gone where
  sound := sound_gap_iff.mpr hm.sound
  owned := hm.owned
  nullFree := hm.nullFree
  balance := hm.balance

theorem Accounted.passed (hm : Accounted m handed gone) : Accounted m.passed handed gone where
  sound := hm.sound.passed
  owned := fun target htarget => by
    rw [Heap.givens, Heap.passed, List.map_append]
    exact List.mem_append_left _ (hm.owned target htarget)
  nullFree := hm.nullFree.concat fun _ => rfl
  balance := by
    have hcharged : m.passed.charged = m.charged := by
      rw [Heap.charged, Heap.givens, Heap.passed, List.map_append, List.reduceOption_append]
      exact List.append_nil _
    rw [hcharged]
    exact hm.balance

theorem Accounted.lost (hm : Accounted m handed gone) {target : ℕ}
    (honce : (handed ++ [some target]).Nodup) :
    Accounted (m.lost target) (handed ++ [some target]) gone where
  sound := (hm.sound.lost_iff target).mpr (hm.takes honce)
  owned := fun t ht => by
    rw [Heap.givens, Heap.lost, List.map_append]
    rcases List.mem_append.mp ht with hold | hnew
    · exact List.mem_append_left _ (hm.owned t hold)
    · exact List.mem_append_right _ (List.mem_singleton.mpr (congrArg some (List.mem_singleton.mp hnew)))
  nullFree := hm.nullFree.concat fun _ => rfl
  balance := hm.balance_append List.map_append

/-- What is disowned by its only handle is gone. -/
theorem Accounted.disown (hm : Accounted m handed gone) {h : ℕ} (hsole : SoleOwner m h) :
    Accounted (m.disown h).1 handed (gone ++ (m.disown h).2.toList) := by
  have hsound := (hm.sound.disown_iff h).mpr hsole
  by_cases hh : ∃ s, m.handle h = some (some s)
  · obtain ⟨s, hh⟩ := hh
    obtain ⟨given, shim, hcell, -⟩ := hm.sound.cell_of_handle hh
    rw [hm.sound.disown_eq hh hcell] at hsound ⊢
    have hgivens : (m.cells.set s ⟨none, none⟩).map Cell.given = m.givens.set s none := List.map_set
    have hperm := perm_reduceOption_set (getElem?_givens hcell)
    refine ⟨hsound, fun target htarget => ?_, fun s' shim' hs' => ?_, ?_⟩
    · -- What was deleted is not the target of a shim that is there.
      show some target ∈ (m.cells.set s ⟨none, none⟩).map Cell.given
      rw [hgivens]
      have hne : given ≠ some target := by
        rintro rfl
        exact List.count_eq_zero.mp (hm.sound.freed s target _ hcell) htarget
      have hmem := hperm.mem_iff.mp (mem_charged.mpr (hm.owned target htarget))
      rcases List.mem_append.mp hmem with hgiven | hrest
      · exact absurd (Option.mem_toList.mp hgiven) hne
      · exact List.reduceOption_mem_iff.mp hrest
    · rw [List.getElem?_set] at hs'
      split at hs'
      · split at hs'
        · cases hs'
        · cases hs'
      · exact hm.nullFree s' shim' hs'
    · show List.Perm (((m.cells.set s ⟨none, none⟩).map Cell.given).reduceOption ++ _) _
      rw [hgivens, ← List.append_assoc]
      -- What is gone now is the target of the shim.
      calc List.Perm _ (given.toList ++ ((m.givens.set s none).reduceOption ++ gone)) :=
            List.perm_append_comm
        _ = (given.toList ++ (m.givens.set s none).reduceOption) ++ gone :=
            (List.append_assoc _ _ _).symm
        List.Perm _ (m.charged ++ gone) := hperm.symm.append_right _
        List.Perm _ handed.reduceOption := hm.balance
  · have hsame : m.disown h = (m, none) := by
      unfold Heap.disown
      split
      · rfl
      · rfl
      · next s hs => exact absurd ⟨s, hs⟩ hh
    rw [hsame]
    exact ⟨hm.sound, hm.owned, hm.nullFree, by rw [Option.toList_none, List.append_nil]; exact hm.balance⟩

/-- Any call that hands over new targets, none of them NULL, and disowns through the only handle. -/
theorem Accounted.call (hm : Accounted m handed gone) {c : Call} (hnull : none ∉ c.targets)
    (honce : (handed ++ c.targets).Nodup) (hsole : ∀ h, c = .disown h → SoleOwner m h) :
    Accounted (call m c).1 (handed ++ c.targets) (gone ++ (call m c).2.toList) := by
  cases c with
  | op operation =>
    show Accounted (step m operation) _ (gone ++ [])
    rw [List.append_nil]
    exact hm.op operation hnull honce
  | disown h =>
    show Accounted (m.disown h).1 (handed ++ []) _
    rw [List.append_nil]
    exact hm.disown (hsole h rfl)
  | readIndividual itemSize found =>
    show Accounted (m.readIndividual itemSize found) _ (gone ++ [])
    rw [List.append_nil]
    cases found with
    | none => exact absurd (List.mem_singleton_self _) hnull
    | some record =>
      rw [readIndividual_some]
      split
      · exact hm.lost honce
      · exact hm.passed.op (.ofTarget (some record.1) (record.2 / itemSize)) hnull honce
  | readUniform itemSize found =>
    show Accounted (m.readUniform itemSize found) _ (gone ++ [])
    rw [List.append_nil]
    cases found with
    | none =>
      rw [readUniform_none]
      exact hm.gap.op .construct List.not_mem_nil honce
    | some record =>
      rw [readUniform_some]
      split
      · exact hm.lost honce
      · split
        · exact hm.gap.op (.ofTarget (some record.1) record.2) hnull honce
        · have hlost := (hm.lost honce).op .construct List.not_mem_nil
            ((List.append_nil _).symm ▸ honce)
          exact (List.append_nil (handed ++ [some record.1])) ▸ hlost

/-- Without a handle that points to a shim, everything that was handed over is deleted or gone. -/
theorem Accounted.all (hm : Accounted m handed gone) (honce : handed.Nodup)
    (hend : ∀ s, some (some s) ∉ m.handles) : (m.freed ++ gone).Perm handed.reduceOption := by
  refine (List.Perm.append_right gone ?_).trans hm.balance
  have hcharged : m.charged.Nodup := by
    have hall : (m.charged ++ ([] : List (Option ℕ)).reduceOption).Nodup :=
      hm.nodup ((List.append_nil handed).symm ▸ honce)
    exact (List.nodup_append.mp hall).1
  refine List.perm_iff_count.mpr fun target => ?_
  by_cases hmem : target ∈ m.charged
  · -- Its shim was deleted with the last handle.
    rw [List.count_eq_one_of_mem hcharged hmem]
    obtain ⟨⟨given, shim⟩, hcell, rfl : given = some target⟩ := List.mem_map.mp (mem_charged.mp hmem)
    obtain ⟨s, hs⟩ := List.mem_iff_getElem?.mp hcell
    rw [hm.sound.freed s target shim hs]
    cases shim with
    | none => rfl
    | some shim =>
      exact absurd (List.count_pos_iff.mp (hm.sound.shim s _ shim hs).2.1) (hend s)
  · rw [List.count_eq_zero.mpr hmem, List.count_eq_zero]
    exact fun hfreed => hmem (mem_charged.mpr (hm.owned target hfreed))

end

end

/-! ## Runs of calls -/

theorem runCalls_concat (calls : List Call) (c : Call) :
    runCalls (calls ++ [c]) = (call (runCalls calls) c).1 := by
  unfold runCalls exec
  rw [List.foldl_append]
  rfl

theorem disowned_concat (calls : List Call) (c : Call) :
    disowned (calls ++ [c]) = disowned calls ++ (call (runCalls calls) c).2.toList := by
  unfold disowned
  rw [outputs_append, List.reduceOption_append]
  exact congrArg _ (List.reduceOption_singleton _)

/-- Such calls keep account of their targets. -/
theorem accounted_run {calls : List Call} (hnull : none ∉ calls.flatMap Call.targets)
    (honce : (calls.flatMap Call.targets).Nodup)
    (hsole : ∀ before h after, calls = before ++ .disown h :: after →
      SoleOwner (runCalls before) h) :
    ∀ before after, calls = before ++ after →
      Accounted (runCalls before) (before.flatMap Call.targets) (disowned before) := by
  intro before
  induction before using List.reverseRecOn with
  | nil =>
    intro _ _
    refine ⟨sound_empty, fun target htarget => absurd htarget List.not_mem_nil, ?_, List.Perm.refl _⟩
    intro s shim hs
    cases hs
  | append_singleton before c ih =>
    intro after hcalls
    have hcalls' : calls = before ++ c :: after := by rw [hcalls, List.append_assoc]; rfl
    rw [hcalls'] at hnull honce
    rw [List.flatMap_append, List.flatMap_cons] at hnull honce
    rw [runCalls_concat, disowned_concat, List.flatMap_append, List.flatMap_singleton]
    refine (ih _ hcalls').call ?_ ?_ fun h hc => hsole before h after (hc ▸ hcalls')
    · exact fun hmem => hnull (List.mem_append_right _ (List.mem_append_left _ hmem))
    · rw [← List.append_assoc] at honce
      exact (List.nodup_append.mp honce).1

/-- The heap is sound behind every part of a run exactly if every call is allowed. If no target is
NULL, each is new when it is handed over, and only handles that are alone disown, that is so; and once
no handle points to a shim, the targets that were deleted and the ones that were disowned are those
that were handed over, each once. -/
theorem sound_calls_iff (calls : List Call) :
    ((∀ before after, calls = before ++ after → Sound (runCalls before)) ↔
      ∀ before c after, calls = before ++ c :: after → Allows (runCalls before) c) ∧
    (none ∉ calls.flatMap Call.targets → (calls.flatMap Call.targets).Nodup →
      (∀ before h after, calls = before ++ .disown h :: after → SoleOwner (runCalls before) h) →
      (∀ before after, calls = before ++ after → Sound (runCalls before)) ∧
      ((∀ s, some (some s) ∉ (runCalls calls).handles) →
        ((runCalls calls).freed ++ disowned calls).Perm (calls.flatMap Call.targets).reduceOption)) := by
  refine ⟨forall_prefix_iff (fun m c hm => hm.call_iff c) sound_empty calls, ?_⟩
  intro hnull honce hsole
  have haccounted := accounted_run hnull honce hsole
  refine ⟨fun before after hcalls => (haccounted before after hcalls).sound, fun hend => ?_⟩
  exact (haccounted calls [] (List.append_nil calls).symm).all honce hend

/-- Numbers are read and copied, and another array is disowned. -/
theorem sound_calls_disowned :
    let calls : List Call := [.readIndividual 4 (some (0, 8)), .op (.copyOf 1),
      .op (.ofTarget (some 1) 3), .disown 3, .op (.destroy 1), .op (.destroy 2), .op (.destroy 3)]
    Sound (runCalls (calls.take 3)) ∧ (runCalls calls).freed = [0] ∧
      ((runCalls calls).freed ++ disowned calls).Perm [0, 1] := by
  intro calls
  have hsole : ∀ before h after, calls = before ++ .disown h :: after →
      SoleOwner (runCalls before) h := by
    intro before h after hcalls
    -- The fourth call is the one that disowns.
    rcases before with - | ⟨_, - | ⟨_, - | ⟨_, - | ⟨_, before⟩⟩⟩⟩
    · simp [calls] at hcalls
    · simp [calls] at hcalls
    · simp [calls] at hcalls
    · obtain ⟨rfl, rfl, rfl, rfl, -⟩ : _ ∧ _ ∧ _ ∧ _ ∧ _ := by simpa [calls] using hcalls
      have hhandle : (runCalls (calls.take 3)).handle 3 = some (some 2) := by decide
      intro s hs
      obtain rfl : 2 = s := Option.some.inj (Option.some.inj (hhandle.symm.trans hs))
      decide
    · have hmem : Call.disown h ∈ calls.drop 4 := by
        rw [hcalls]
        simp
      simp [calls] at hmem
  obtain ⟨hsound, hall⟩ := (sound_calls_iff calls).2 (by decide) (by decide) hsole
  have hhandles : (runCalls calls).handles = List.replicate 4 none := by decide
  refine ⟨hsound _ _ (List.take_append_drop 3 calls).symm, by decide, hall fun s hmem => ?_⟩
  rw [hhandles] at hmem
  cases List.eq_of_mem_replicate hmem

-- The array of numbers that a missing record is read as, and a copy of it: when the copy is destroyed,
-- the array is left with a shim that is deleted, and uses it in its turn.
example : (runCalls [.readIndividual 4 none, .op (.copyOf 1), .op (.destroy 2),
    .op (.destroy 1)]).touched = true := by decide

end SharedArray

end Libgetar
