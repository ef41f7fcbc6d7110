import Libgetar.Lib.Machine

/-!
# Shared arrays

`SharedArray` and `SharedPtr` count the references to an array in a shim that all of its handles
point to. The heap has the handles in the order of their construction, and the shims and the arrays
with what has become of them; no address is used twice, so that whatever touches a deleted shim is
seen (`touched`).

A heap is sound if every shim that a handle points to is there, counts its handles, and is deleted
with its target when the last of them lets go (`Sound`). What decides that a shim is dead is its
target, and not its count: a shim whose target is NULL is deleted by the first handle that lets go of
it. The operations keep the heap sound exactly if no handle does so that has others beside it, and
no array is handed over twice (`sound_iff`).
-/

namespace Libgetar

open Lib

namespace SharedArray

/-! ## The heap -/

/-- `SharedArrayShim`. A pointer to an array is `none` if it is NULL. -/
structure Shim where
  target : Option ℕ
  length : ℕ
  count : ℕ
deriving DecidableEq

/-- Where a shim was allocated. -/
structure Cell where
  /-- The target that its constructor was given. -/
  given : Option ℕ
  /-- The shim, until it is deleted. -/
  shim : Option Shim
deriving DecidableEq

/-- Handles, shims and arrays. -/
structure Heap where
  /-- `m_shim` of each handle that was constructed, until it is destroyed. -/
  handles : List (Option (Option ℕ)) := []
  /-- The shims, by their addresses. -/
  cells : List Cell := []
  /-- The arrays that were deleted. -/
  freed : List ℕ := []
  /-- A deleted shim was used. -/
  touched : Bool := false
deriving DecidableEq

namespace Heap

/-- The shim at an address. -/
def shimAt (m : Heap) (s : ℕ) : Option Shim := (m.cells[s]?).bind Cell.shim

/-- The shim at an address is changed or deleted. -/
def setShim (m : Heap) (s : ℕ) (shim : Option Shim) : Heap :=
  { m with cells := m.cells.modify s fun cell => { cell with shim := shim } }

/-- A member of a deleted shim was used. What happens then is undefined. -/
def touch (m : Heap) : Heap := { m with touched := true }

/-- `SharedArrayShim::increment`. -/
def increment (m : Heap) (s : ℕ) : Heap :=
  match m.shimAt s with
  | none => m.touch
  | some shim => m.setShim s (some { shim with count := shim.count + 1 })

/-- `SharedArrayShim::decrement`. `delete[]` does nothing to NULL. -/
def decrement (m : Heap) (s : ℕ) : Heap :=
  match m.shimAt s with
  | none => m.touch
  | some shim =>
    if shim.count - 1 = 0 then
      { m.setShim s (some ⟨none, 0, 0⟩) with freed := m.freed ++ shim.target.toList }
    else m.setShim s (some { shim with count := shim.count - 1 })

/-- `if(m_shim->m_target == NULL) delete m_shim;` -/
def deleteIfNull (m : Heap) (s : ℕ) : Heap :=
  match m.shimAt s with
  | none => m.touch
  | some shim => if shim.target = none then m.setShim s none else m

/-- `m_shim` of a handle, if there is such a handle. -/
def handle (m : Heap) (h : ℕ) : Option (Option ℕ) := m.handles[h]?.join

/-! ## Operations -/

/-- The default constructor. -/
def construct (m : Heap) : Heap := { m with handles := m.handles ++ [some none] }

/-- The constructor with a target. That of `SharedPtr` passes the length 1. -/
def ofTarget (m : Heap) (target : Option ℕ) (length : ℕ) : Heap :=
  { m with
    handles := m.handles ++ [some (some m.cells.length)]
    cells := m.cells ++ [⟨target, some ⟨target, length, 1⟩⟩] }

/-- The copy constructor, also between `SharedArray` and `SharedPtr`. -/
def copyOf (m : Heap) (rhs : ℕ) : Heap :=
  match m.handle rhs with
  | none => m
  | some none => { m with handles := m.handles ++ [some none] }
  | some (some s) =>
    let m := m.increment s
    { m with handles := m.handles ++ [some (some s)] }

/-- `swap`. -/
def swap (m : Heap) (h target : ℕ) : Heap :=
  match m.handle h, m.handle target with
  | some p, some q => { m with handles := (m.handles.set h (some q)).set target (some p) }
  | _, _ => m

/-- `release`. -/
def release (m : Heap) (h : ℕ) : Heap :=
  match m.handle h with
  | none => m
  | some none => m
  | some (some s) =>
    let m := (m.decrement s).deleteIfNull s
    { m with handles := m.handles.set h (some none) }

/-- The destructor. -/
def destroy (m : Heap) (h : ℕ) : Heap :=
  let m := m.release h
  { m with handles := m.handles.set h none }

/-- The assignment: a copy of `rhs` is swapped with the handle, and destroyed. -/
def assign (m : Heap) (h rhs : ℕ) : Heap :=
  match m.handle h, m.handle rhs with
  | some _, some _ =>
    if h = rhs then m
    else
      let cpy := m.handles.length
      ((m.copyOf rhs).swap h cpy).destroy cpy
  | _, _ => m

end Heap

/-- The operations. A handle is named by the number of constructions before its own. -/
inductive Op where
  | construct
  | ofTarget (target : Option ℕ) (length : ℕ)
  | copyOf (rhs : ℕ)
  | assign (h rhs : ℕ)
  | swap (h target : ℕ)
  | release (h : ℕ)
  | destroy (h : ℕ)

/-- One operation. A program has no operation on a handle that was not constructed, or that was
destroyed; such an operation is left out. -/
def step (m : Heap) : Op → Heap
  | .construct => m.construct
  | .ofTarget target length => m.ofTarget target length
  | .copyOf rhs => m.copyOf rhs
  | .assign h rhs => m.assign h rhs
  | .swap h target => m.swap h target
  | .release h => m.release h
  | .destroy h => m.destroy h

/-- The heap after operations, starting without a handle. -/
def run (ops : List Op) : Heap := ops.foldl step {}

/-! ## Soundness -/

/-- The number of handles that point to a shim. -/
def Heap.pointing (m : Heap) (s : ℕ) : ℕ := m.handles.count (some (some s))

/-- Every shim that is pointed to is there and counts its handles; it is deleted with its target,
once, when none is left. -/
structure Sound (m : Heap) : Prop where
  /-- No operation has used a deleted shim. -/
  untouched : m.touched = false
  /-- A shim is not deleted before its last handle lets go. -/
  held : ∀ s, 0 < m.pointing s → (m.shimAt s).isSome
  /-- A shim that is there counts its handles, of which there is one, and has its target. -/
  shim : ∀ (s : ℕ) (given : Option ℕ) (shim : Shim), m.cells[s]? = some ⟨given, some shim⟩ →
    shim.count = m.pointing s ∧ 0 < m.pointing s ∧ shim.target = given
  /-- The target of a shim is deleted with it, once. -/
  freed : ∀ (s target : ℕ) (shim : Option Shim), m.cells[s]? = some ⟨some target, shim⟩ →
    m.freed.count target = if shim.isNone then 1 else 0

/-- A handle can let go of the shim: there is no other handle if the target is NULL, and otherwise
there is one, or no other shim was given the target. -/
def Droppable (m : Heap) (s : ℕ) : Prop :=
  ∀ cell, m.cells[s]? = some cell →
    (cell.given = none → m.pointing s = 1) ∧
      ∀ target, cell.given = some target → 2 ≤ m.pointing s ∨
        ∀ s' cell', m.cells[s']? = some cell' → cell'.given = some target → s' = s

/-- A handle can let go of what it points to. -/
def LetsGo (m : Heap) (h : ℕ) : Prop := ∀ s, m.handle h = some (some s) → Droppable m s

/-- The operation is one that a sound heap admits. An assignment lets go of what the handle points
to when there is already a copy of the right hand side. -/
def Admits (m : Heap) : Op → Prop
  | .ofTarget (some target) _ => target ∉ m.freed
  | .assign h rhs => m.handle h ≠ none → m.handle rhs ≠ none → h ≠ rhs → LetsGo (m.copyOf rhs) h
  | .release h => LetsGo m h
  | .destroy h => LetsGo m h
  | _ => True

/-! ## Handles -/

section

variable {m m' : Heap} {s : ℕ} {h : ℕ} {p : Option ℕ}

theorem Heap.handle_eq_some_iff : m.handle h = some p ↔ m.handles[h]? = some (some p) := by
  rw [Heap.handle, Option.join_eq_some_iff]

/-- A slot of a list is overwritten. -/
theorem count_set_add {α : Type} [DecidableEq α] [BEq α] [LawfulBEq α] {l : List α} {i : ℕ} {old : α}
    (hold : l[i]? = some old) (new a : α) :
    (l.set i new).count a + (if old = a then 1 else 0) = l.count a + (if new = a then 1 else 0) := by
  obtain ⟨hi, hget⟩ := List.getElem?_eq_some_iff.mp hold
  have hmem : (if old = a then 1 else 0) ≤ l.count a := by
    split
    · next heq =>
      rw [← heq, ← hget]
      exact List.count_pos_iff.mpr (List.getElem_mem hi)
    · exact Nat.zero_le _
  rw [List.count_set hi, hget]
  simp only [beq_iff_eq]
  omega

/-- The heap is as sound with other handles that point to each shim as often. -/
theorem Sound.of_pointing (hm : Sound m) {handles : List (Option (Option ℕ))}
    (hsame : ∀ s, handles.count (some (some s)) = m.pointing s) :
    Sound { m with handles := handles } where
  untouched := hm.untouched
  held := fun s hs => hm.held s (hsame s ▸ hs)
  shim := fun s given shim hcell => by
    have hpointing : Heap.pointing { m with handles := handles } s = m.pointing s := hsame s
    rw [hpointing]
    exact hm.shim s given shim hcell
  freed := hm.freed

/-- One more handle without a shim. -/
theorem Sound.construct (hm : Sound m) : Sound m.construct := by
  refine hm.of_pointing fun s => ?_
  rw [List.count_append, List.count_singleton]
  simp [Heap.pointing]

/-- Exchanging two handles. -/
theorem pointing_swap (m : Heap) (h target : ℕ) (s : ℕ) : (m.swap h target).pointing s = m.pointing s := by
  unfold Heap.swap
  split
  · next p q hp hq =>
    rw [Heap.handle_eq_some_iff] at hp hq
    have hfirst := count_set_add hp (some q) (some (some s))
    have hq' : (m.handles.set h (some q))[target]? = some (some q) := by
      rw [List.getElem?_set]
      split
      · rw [if_pos (List.getElem?_eq_some_iff.mp hp).1]
      · exact hq
    have hsecond := count_set_add hq' (some p) (some (some s))
    unfold Heap.pointing
    simp only
    omega
  · rfl

theorem Sound.swap (hm : Sound m) (h target : ℕ) : Sound (m.swap h target) := by
  have hsame := pointing_swap m h target
  unfold Heap.swap at hsame ⊢
  split at hsame
  · exact hm.of_pointing hsame
  · exact hm

/-! ## Shims -/

theorem Heap.shimAt_of_cell {given : Option ℕ} {shim : Option Shim}
    (hcell : m.cells[s]? = some ⟨given, shim⟩) : m.shimAt s = shim := by
  rw [Heap.shimAt, hcell, Option.bind_some]

/-- A handle points to a shim that is there. -/
theorem Sound.cell_of_handle (hm : Sound m) (hh : m.handle h = some (some s)) : ∃ given shim,
    m.cells[s]? = some ⟨given, some shim⟩ ∧ shim.count = m.pointing s ∧ 0 < m.pointing s ∧
      shim.target = given := by
  have hpos : 0 < m.pointing s := by
    rw [Heap.handle_eq_some_iff] at hh
    exact List.count_pos_iff.mpr (List.mem_of_getElem? hh)
  obtain ⟨shim, hshim⟩ := Option.isSome_iff_exists.mp (hm.held s hpos)
  obtain ⟨⟨given, shim'⟩, hcell, heq⟩ := Option.bind_eq_some_iff.mp hshim
  obtain rfl : shim' = some shim := heq
  exact ⟨given, shim, hcell, hm.shim s given shim hcell⟩

/-- A shim is changed or deleted. -/
theorem Heap.getElem?_setShim (m : Heap) {given : Option ℕ} {old : Option Shim}
    (hcell : m.cells[s]? = some ⟨given, old⟩) (new : Option Shim) (s' : ℕ) :
    (m.setShim s new).cells[s']? = if s' = s then some ⟨given, new⟩ else m.cells[s']? := by
  unfold Heap.setShim
  rw [List.getElem?_modify]
  split
  · next heq =>
    obtain rfl := heq
    rw [hcell, if_pos rfl]
    rfl
  · next hne =>
    rw [if_neg fun heq => hne heq.symm]
    simp

/-- What is to be shown where one shim has changed. -/
theorem Sound.update (hm : Sound m) {given : Option ℕ} {new : Option Shim}
    (huntouched : m'.touched = false)
    (hcells : ∀ s', m'.cells[s']? = if s' = s then some ⟨given, new⟩ else m.cells[s']?)
    (hpointing : ∀ s', s' ≠ s → m'.pointing s' = m.pointing s')
    (hdeleted : new = none → m'.pointing s = 0)
    (hnew : ∀ shim, new = some shim →
      shim.count = m'.pointing s ∧ 0 < m'.pointing s ∧ shim.target = given)
    (hfreed : ∀ (s' target : ℕ) (shim : Option Shim), m'.cells[s']? = some ⟨some target, shim⟩ →
      m'.freed.count target = if shim.isNone then 1 else 0) : Sound m' where
  untouched := huntouched
  held := by
    intro s' hpos
    by_cases heq : s' = s
    · rw [heq] at hpos ⊢
      have hcell := (hcells s).trans (if_pos rfl)
      rw [Heap.shimAt_of_cell hcell]
      cases new with
      | none => rw [hdeleted rfl] at hpos; exact absurd hpos (lt_irrefl 0)
      | some shim => rfl
    · have hold := hm.held s' (hpointing s' heq ▸ hpos)
      unfold Heap.shimAt at hold ⊢
      rwa [hcells, if_neg heq]
  shim := by
    intro s' given' shim hcell
    rw [hcells] at hcell
    by_cases heq : s' = s
    · rw [if_pos heq, Option.some.injEq, Cell.mk.injEq] at hcell
      obtain ⟨rfl, hshim⟩ := hcell
      rw [heq]
      exact hnew shim hshim
    · rw [if_neg heq] at hcell
      rw [hpointing s' heq]
      exact hm.shim s' given' shim hcell
  freed := hfreed

/-! ## Constructors -/

/-- A new handle at the end. -/
theorem count_concat (handles : List (Option (Option ℕ))) (p : Option ℕ) (s' : ℕ) :
    (handles ++ [some p]).count (some (some s')) =
      handles.count (some (some s')) + if p = some s' then 1 else 0 := by
  rw [List.count_append, List.count_singleton]
  simp only [beq_iff_eq, Option.some.injEq]

/-- The constructor with a target keeps a heap sound exactly if the target was not deleted. -/
theorem Sound.ofTarget_iff (hm : Sound m) (target : Option ℕ) (length : ℕ) :
    Sound (m.ofTarget target length) ↔ Admits m (.ofTarget target length) := by
  let n : ℕ := m.cells.length
  have hcells : ∀ s', (m.ofTarget target length).cells[s']? =
      if s' = n then some ⟨target, some ⟨target, length, 1⟩⟩ else m.cells[s']? := by
    intro s'
    show (m.cells ++ [_])[s']? = _
    rw [List.getElem?_append]
    split
    · next hlt => rw [if_neg (by omega)]
    · next hge =>
      split
      · next heq => rw [heq, Nat.sub_self, List.getElem?_cons_zero]
      · next hne =>
        rw [List.getElem?_eq_none (by simp only [List.length_singleton]; omega),
          List.getElem?_eq_none (by omega)]
  have hpointing (s' : ℕ) : (m.ofTarget target length).pointing s' =
      m.pointing s' + if n = s' then 1 else 0 := by
    refine (count_concat m.handles (some n) s').trans ?_
    simp only [Option.some.injEq, Heap.pointing]
  -- Nothing points to the new shim yet.
  have hzero : m.pointing n = 0 := by
    by_contra hne
    have hsome := hm.held n (Nat.pos_of_ne_zero hne)
    rw [Heap.shimAt, List.getElem?_eq_none le_rfl] at hsome
    cases hsome
  constructor
  · intro hm'
    cases target with
    | none => trivial
    | some t =>
      have hcount := hm'.freed n t _ ((hcells n).trans (if_pos rfl))
      exact List.count_eq_zero.mp hcount
  · intro hadmits
    refine hm.update hm.untouched hcells (fun s' hne => ?_) (fun hnone => ?_) (fun shim hshim => ?_)
      fun s' t shim hcell => ?_
    · -- The counts of the other shims.
      rw [hpointing, if_neg fun heq => hne heq.symm, Nat.add_zero]
    · cases hnone
    · -- The new shim has the new handle.
      cases hshim
      rw [hpointing, hzero, if_pos rfl]
      exact ⟨rfl, Nat.one_pos, rfl⟩
    · -- No target has been freed.
      rw [hcells] at hcell
      split at hcell
      · cases hcell
        exact List.count_eq_zero.mpr hadmits
      · exact hm.freed s' t shim hcell

/-- A copy keeps a heap sound. -/
theorem Sound.copyOf (hm : Sound m) (rhs : ℕ) : Sound (m.copyOf rhs) := by
  cases hrhs : m.handle rhs with
  | none =>
    rw [Heap.copyOf, hrhs]
    exact hm
  | some p =>
    cases p with
    | none =>
      rw [Heap.copyOf, hrhs]
      exact hm.construct
    | some s =>
      obtain ⟨given, shim, hcell, hcount, hpos, htarget⟩ := hm.cell_of_handle hrhs
      have hcopy : m.copyOf rhs = { m.setShim s (some { shim with count := shim.count + 1 }) with
          handles := m.handles ++ [some (some s)] } := by
        simp only [Heap.copyOf, hrhs, Heap.increment, Heap.shimAt_of_cell hcell]
        rfl
      have hcells := m.getElem?_setShim hcell (some { shim with count := shim.count + 1 })
      have hpointing (s' : ℕ) : (m.copyOf rhs).pointing s' =
          m.pointing s' + if s = s' then 1 else 0 := by
        rw [hcopy]
        refine (count_concat m.handles (some s) s').trans ?_
        simp only [Option.some.injEq, Heap.pointing]
      refine hm.update (by rw [hcopy]; exact hm.untouched) (by rw [hcopy]; exact hcells)
        (fun s' hne => ?_) (fun hnone => ?_) (fun shim' hshim' => ?_) fun s' t shim' hcell' => ?_
      · rw [hpointing, if_neg fun heq => hne heq.symm, Nat.add_zero]
      · cases hnone
      · cases hshim'
        rw [hpointing, if_pos rfl]
        exact ⟨congrArg (· + 1) hcount, Nat.succ_pos _, htarget⟩
      · rw [hcopy] at hcell' ⊢
        rw [hcells] at hcell'
        split at hcell'
        · cases hcell'
          exact hm.freed s t (some shim) hcell
        · exact hm.freed s' t shim' hcell'

/-! ## Letting go -/

/-- What it does to a sound heap when a handle lets go of a shim. -/
theorem Sound.release_spec (hm : Sound m) (hh : m.handle h = some (some s)) {given : Option ℕ}
    {shim : Shim} (hcell : m.cells[s]? = some ⟨given, some shim⟩) :
    (m.release h).touched = false ∧
      (∀ s', (m.release h).pointing s' = if s' = s then m.pointing s - 1 else m.pointing s') ∧
      (∀ s', (m.release h).cells[s']? = if s' = s then some ⟨given,
          if m.pointing s = 1 ∨ given = none then none
          else some { shim with count := m.pointing s - 1 }⟩ else m.cells[s']?) ∧
      (m.release h).freed = m.freed ++ if m.pointing s = 1 then given.toList else [] := by
  obtain ⟨hcount, hpos, htarget⟩ := hm.shim s given shim hcell
  have hhandle := Heap.handle_eq_some_iff.mp hh
  have hpointing (m' : Heap) (hhandles : m'.handles = m.handles) (s' : ℕ) :
      Heap.pointing { m' with handles := m'.handles.set h (some none) } s' =
        if s' = s then m.pointing s - 1 else m.pointing s' := by
    have hset := count_set_add hhandle (some none) (some (some s'))
    simp only [Option.some.injEq, reduceCtorEq, if_false, Nat.add_zero] at hset
    show (m'.handles.set h (some none)).count (some (some s')) = _
    rw [hhandles]
    unfold Heap.pointing
    split
    · next heq =>
      rw [heq, if_pos rfl] at hset
      rw [heq]
      omega
    · next hne =>
      rw [if_neg fun heq => hne heq.symm] at hset
      omega
  -- What `decrement` leaves at the address, and what `release` then sees of it.
  have hchange (new : Option Shim) (freed : List ℕ) :
      ({ m.setShim s new with freed := freed } : Heap).cells[s]? = some ⟨given, new⟩ := by
    exact (m.getElem?_setShim hcell new s).trans (if_pos rfl)
  unfold Heap.release Heap.decrement
  simp only [hh, Heap.shimAt_of_cell hcell]
  by_cases hlast : m.pointing s = 1
  · -- The last handle deletes the target, and then the shim, whose target is now NULL.
    have hzero : shim.count - 1 = 0 := by omega
    have hshim := Heap.shimAt_of_cell (hchange (some ⟨none, 0, 0⟩) (m.freed ++ shim.target.toList))
    rw [if_pos hzero, if_pos (Or.inl hlast), if_pos hlast, Heap.deleteIfNull, hshim]
    simp only [if_true]
    refine ⟨hm.untouched, hpointing _ rfl, fun s' => ?_, by rw [htarget]; rfl⟩
    refine (Heap.getElem?_setShim _ (hchange (some ⟨none, 0, 0⟩) _) none s').trans ?_
    split
    · rfl
    · next hne => exact (m.getElem?_setShim hcell _ s').trans (if_neg hne)
  · -- Other handles are left.
    have hzero : ¬ shim.count - 1 = 0 := by omega
    have hshim := Heap.shimAt_of_cell
      ((m.getElem?_setShim hcell (some { shim with count := shim.count - 1 }) s).trans (if_pos rfl))
    rw [if_neg hzero, if_neg hlast, Heap.deleteIfNull, hshim]
    simp only [htarget, List.append_nil]
    by_cases hnull : given = none
    · -- The shim is deleted all the same if its target was NULL before.
      rw [if_pos hnull, if_pos (Or.inr hnull)]
      refine ⟨hm.untouched, hpointing _ rfl, fun s' => ?_, rfl⟩
      refine (Heap.getElem?_setShim _ ((m.getElem?_setShim hcell _ s).trans (if_pos rfl)) none
        s').trans ?_
      split
      · rfl
      · next hne => exact (m.getElem?_setShim hcell _ s').trans (if_neg hne)
    · rw [if_neg hnull, if_neg (by tauto), ← hcount]
      refine ⟨hm.untouched, fun s' => ?_, m.getElem?_setShim hcell _, rfl⟩
      rw [hcount]
      exact hpointing _ rfl s'

/-- A handle that points to no shim lets go of nothing. -/
theorem letsGo_of_not_pointing (hh : ∀ s, m.handle h ≠ some (some s)) :
    m.release h = m ∧ LetsGo m h := by
  refine ⟨?_, fun s hs => absurd hs (hh s)⟩
  unfold Heap.release
  split
  · rfl
  · rfl
  · next s hs => exact absurd hs (hh s)

/-- A sound heap in which a handle lets go of a shim is sound exactly if the handle can. -/
theorem Sound.release_iff (hm : Sound m) (h : ℕ) : Sound (m.release h) ↔ LetsGo m h := by
  by_cases hh : ∃ s, m.handle h = some (some s)
  · obtain ⟨s, hh⟩ := hh
    obtain ⟨given, shim, hcell, hcount, hpos, htarget⟩ := hm.cell_of_handle hh
    obtain ⟨huntouched, hpointing, hcells, hfreed⟩ := hm.release_spec hh hcell
    have hself : (m.release h).pointing s = m.pointing s - 1 := (hpointing s).trans (if_pos rfl)
    have hcell' := (hcells s).trans (if_pos rfl)
    constructor
    · intro hm' s' hs' cell hs
      obtain rfl : s = s' := by
        rw [hh] at hs'
        cases hs'
        rfl
      obtain rfl : cell = ⟨given, some shim⟩ := Option.some.inj (hs.symm.trans hcell)
      constructor
      · -- With a NULL target, the shim is gone: no handle may be left.
        rintro (rfl : given = none)
        rw [if_pos (Or.inr rfl)] at hcell'
        by_contra hmany
        have hleft : 0 < (m.release h).pointing s := by omega
        have hsome := hm'.held s hleft
        rw [Heap.shimAt_of_cell hcell'] at hsome
        cases hsome
      · rintro target (rfl : given = some target)
        by_cases hlast : m.pointing s = 1
        · -- The target is deleted, so no other shim may have it.
          right
          rintro s' ⟨given', shim'⟩ hs' (rfl : given' = some target)
          by_contra hne
          have hbefore : m.freed.count target = 0 := hm.freed s target _ hcell
          have hthere := hm.freed s' target shim' hs'
          have hafter := hm'.freed s' target shim' (((hcells s').trans (if_neg hne)).trans hs')
          rw [hfreed, if_pos hlast, Option.toList_some, List.count_append, List.count_singleton_self]
            at hafter
          omega
        · left
          omega
    · -- Conversely, the shims that are left stay sound.
      intro hletsGo
      obtain ⟨hnull, htwice⟩ := hletsGo s hh _ hcell
      refine hm.update huntouched hcells (fun s' hne => (hpointing s').trans (if_neg hne))
        (fun hgone => ?_) (fun shim' hshim' => ?_) fun s' t shim' hs' => ?_
      · -- A shim that is gone was the one of the last handle.
        split at hgone
        · next hor =>
          have hlast : m.pointing s = 1 := hor.elim id hnull
          omega
        · cases hgone
      · -- A shim that stays counts one handle less.
        split at hshim'
        · cases hshim'
        · next hnot =>
          cases hshim'
          have hmany : m.pointing s ≠ 1 := fun hlast => hnot (Or.inl hlast)
          rw [hself]
          exact ⟨rfl, by omega, htarget⟩
      · -- What a shim has as its target is freed by its last handle only.
        rw [hcells] at hs'
        rw [hfreed, List.count_append]
        split at hs'
        · cases hs'
          have hbefore : m.freed.count t = 0 := hm.freed s t _ hcell
          rw [hbefore, Nat.zero_add]
          by_cases hlast : m.pointing s = 1
          · rw [if_pos hlast, if_pos (Or.inl hlast), Option.toList_some, List.count_singleton_self]
            rfl
          · rw [if_neg hlast, if_neg (by simp [hlast])]
            rfl
        · next hne =>
          have hother : (if m.pointing s = 1 then given.toList else []).count t = 0 := by
            rw [List.count_eq_zero]
            intro hmem
            split at hmem
            · next hlast =>
              have hgiven : given = some t := Option.mem_toList.mp hmem
              rcases htwice t hgiven with hmany | hunique
              · omega
              · exact hne (hunique s' _ hs' rfl)
            · cases hmem
          rw [hother, Nat.add_zero]
          exact hm.freed s' t shim' hs'
  · -- The handle points to nothing.
    obtain ⟨hsame, hletsGo⟩ := letsGo_of_not_pointing (not_exists.mp hh)
    rw [hsame]
    exact ⟨fun _ => hletsGo, fun _ => hm⟩

/-- Behind `release`, the handle points to no shim. -/
theorem handle_release (m : Heap) (h s : ℕ) : (m.release h).handle h ≠ some (some s) := by
  unfold Heap.release
  split
  · next hh =>
    rw [hh]
    exact nofun
  · next hh =>
    rw [hh]
    exact nofun
  · next s' hh =>
    rw [ne_eq, Heap.handle_eq_some_iff]
    simp only [List.getElem?_set, if_true]
    split
    · simp
    · exact nofun

/-- A destroyed handle pointed to no shim any more. -/
theorem Sound.destroy_iff (hm : Sound m) (h : ℕ) : Sound (m.destroy h) ↔ LetsGo m h := by
  rw [← hm.release_iff h]
  have hsame (s : ℕ) : ((m.release h).handles.set h none).count (some (some s)) =
      (m.release h).pointing s := by
    cases hslot : (m.release h).handles[h]? with
    | none => rw [List.set_eq_of_length_le (List.getElem?_eq_none_iff.mp hslot)]; rfl
    | some old =>
      have hold : old ≠ some (some s) := by
        rintro rfl
        exact handle_release m h s (Heap.handle_eq_some_iff.mpr hslot)
      have hset := count_set_add hslot none (some (some s))
      rw [if_neg hold, if_neg nofun] at hset
      exact hset
  constructor
  · exact fun hdestroyed => hdestroyed.of_pointing fun s => (hsame s).symm
  · exact fun hreleased => hreleased.of_pointing hsame

/-! ## Assignment -/

theorem Heap.cells_swap (m : Heap) (h target : ℕ) : (m.swap h target).cells = m.cells := by
  unfold Heap.swap
  split
  · rfl
  · rfl

/-- Whether a handle can let go is not changed by a swap. -/
theorem droppable_swap (m : Heap) (h target s : ℕ) : Droppable (m.swap h target) s ↔ Droppable m s := by
  rw [Droppable, Droppable, Heap.cells_swap, pointing_swap]

/-- The handle that was swapped. -/
theorem handle_swap {q : Option ℕ} {target : ℕ} (hp : m.handle h = some p)
    (hq : m.handle target = some q) : (m.swap h target).handle target = some p := by
  rw [Heap.swap, hp, hq, Heap.handle_eq_some_iff]
  rw [Heap.handle_eq_some_iff] at hq
  have hlt : target < (m.handles.set h (some q)).length := by
    rw [List.length_set]
    exact (List.getElem?_eq_some_iff.mp hq).1
  rw [List.getElem?_set, if_pos rfl, if_pos hlt]

/-- The new handle of a copy is the last one. -/
theorem handles_copyOf {rhs : ℕ} (hq : m.handle rhs = some p) :
    (m.copyOf rhs).handles = m.handles ++ [some p] := by
  unfold Heap.copyOf
  rw [hq]
  cases p with
  | none => rfl
  | some s =>
    simp only
    unfold Heap.increment
    split
    · rfl
    · rfl

/-- An assignment lets go of what the handle points to, beside a copy of the right hand side. -/
theorem Sound.assign_iff (hm : Sound m) (h rhs : ℕ) :
    Sound (m.assign h rhs) ↔ Admits m (.assign h rhs) := by
  unfold Heap.assign Admits
  cases hp : m.handle h with
  | none => exact ⟨fun _ hlive => absurd hp hlive, fun _ => hm⟩
  | some p =>
    cases hq : m.handle rhs with
    | none => exact ⟨fun _ _ hlive => absurd hq hlive, fun _ => hm⟩
    | some q =>
      simp only
      by_cases hself : h = rhs
      · rw [if_pos hself]
        exact ⟨fun _ _ _ hne => absurd hself hne, fun _ => hm⟩
      · rw [if_neg hself]
        have hcopied := hm.copyOf rhs
        have hhandles := handles_copyOf hq
        have hlt : h < m.handles.length := (List.getElem?_eq_some_iff.mp (Heap.handle_eq_some_iff.mp hp)).1
        have hp' : (m.copyOf rhs).handle h = some p := by
          rw [Heap.handle_eq_some_iff, hhandles, List.getElem?_append_left hlt]
          exact Heap.handle_eq_some_iff.mp hp
        have hcpy : (m.copyOf rhs).handle m.handles.length = some q := by
          rw [Heap.handle_eq_some_iff, hhandles, List.getElem?_concat_length]
        have hswapped := handle_swap hp' hcpy
        rw [(hcopied.swap h m.handles.length).destroy_iff]
        -- The copy now has the shim of the handle.
        have hsame : LetsGo ((m.copyOf rhs).swap h m.handles.length) m.handles.length ↔
            LetsGo (m.copyOf rhs) h := by
          rw [LetsGo, LetsGo, hswapped, hp']
          simp only [droppable_swap]
        rw [hsame]
        have hlive : m.handle h ≠ none := by
          rw [hp]
          exact nofun
        have hlive' : m.handle rhs ≠ none := by
          rw [hq]
          exact nofun
        exact ⟨fun hletsGo _ _ _ => hletsGo, fun hall => hall hlive hlive' hself⟩

end

/-! ## Runs -/

theorem run_concat (ops : List Op) (op : Op) : run (ops ++ [op]) = step (run ops) op := by
  rw [run, List.foldl_append]
  rfl

theorem sound_empty : Sound {} where
  untouched := rfl
  held := fun s hs => absurd hs (lt_irrefl 0)
  shim := fun s given shim hcell => by cases hcell
  freed := fun s target shim hcell => by cases hcell

/-- One operation keeps a sound heap sound exactly if it is admitted. -/
theorem Sound.step_iff {m : Heap} (hm : Sound m) (op : Op) : Sound (step m op) ↔ Admits m op := by
  cases op with
  | construct => exact ⟨fun _ => trivial, fun _ => hm.construct⟩
  | ofTarget target length => exact hm.ofTarget_iff target length
  | copyOf rhs => exact ⟨fun _ => trivial, fun _ => hm.copyOf rhs⟩
  | assign h rhs => exact hm.assign_iff h rhs
  | swap h target => exact ⟨fun _ => trivial, fun _ => hm.swap h target⟩
  | release h => exact hm.release_iff h
  | destroy h => exact hm.destroy_iff h

/-! ### Arrays that are handed over once -/

/-- The target that an operation hands over. -/
def Op.targets : Op → List (Option ℕ)
  | .ofTarget target _ => [target]
  | _ => []

/-- The targets that were given to shims. -/
def Heap.givens (m : Heap) : List (Option ℕ) := m.cells.map Cell.given

section

variable {m : Heap}

theorem Heap.givens_setShim (m : Heap) (s : ℕ) (shim : Option Shim) :
    (m.setShim s shim).givens = m.givens := by
  unfold Heap.givens Heap.setShim
  refine List.ext_getElem? fun i => ?_
  rw [List.getElem?_map, List.getElem?_map, List.getElem?_modify]
  cases m.cells[i]? with
  | none => rfl
  | some cell =>
    split
    · rfl
    · rfl

/-- Copying deletes nothing, and gives nothing to a shim. -/
theorem Heap.copyOf_frame (m : Heap) (rhs : ℕ) :
    (m.copyOf rhs).givens = m.givens ∧ (m.copyOf rhs).freed = m.freed := by
  unfold Heap.copyOf Heap.increment
  split
  · exact ⟨rfl, rfl⟩
  · exact ⟨rfl, rfl⟩
  · split
    · exact ⟨rfl, rfl⟩
    · exact ⟨m.givens_setShim _ _, rfl⟩

theorem Heap.swap_frame (m : Heap) (h target : ℕ) :
    (m.swap h target).givens = m.givens ∧ (m.swap h target).freed = m.freed := by
  unfold Heap.swap
  split
  · exact ⟨rfl, rfl⟩
  · exact ⟨rfl, rfl⟩

theorem Heap.givens_decrement (m : Heap) (s : ℕ) : (m.decrement s).givens = m.givens := by
  unfold Heap.decrement
  split
  · rfl
  · split
    · exact m.givens_setShim s _
    · exact m.givens_setShim s _

theorem Heap.givens_deleteIfNull (m : Heap) (s : ℕ) : (m.deleteIfNull s).givens = m.givens := by
  unfold Heap.deleteIfNull
  split
  · rfl
  · split
    · exact m.givens_setShim s _
    · rfl

theorem Heap.givens_release (m : Heap) (h : ℕ) : (m.release h).givens = m.givens := by
  unfold Heap.release
  split
  · rfl
  · rfl
  · exact (Heap.givens_deleteIfNull _ _).trans (Heap.givens_decrement _ _)

theorem Heap.givens_assign (m : Heap) (h rhs : ℕ) : (m.assign h rhs).givens = m.givens := by
  unfold Heap.assign
  split
  · split
    · rfl
    · exact (Heap.givens_release _ _).trans
        ((Heap.swap_frame _ _ _).1.trans (Heap.copyOf_frame m rhs).1)
  · rfl

/-- Only the constructor with a target gives one to a shim. -/
theorem givens_step (m : Heap) (op : Op) : (step m op).givens = m.givens ++ op.targets := by
  cases op with
  | construct => exact (List.append_nil _).symm
  | ofTarget target length => exact List.map_append
  | copyOf rhs => exact (m.copyOf_frame rhs).1.trans (List.append_nil _).symm
  | assign h rhs => exact (m.givens_assign h rhs).trans (List.append_nil _).symm
  | swap h target => exact (m.swap_frame h target).1.trans (List.append_nil _).symm
  | release h => exact (m.givens_release h).trans (List.append_nil _).symm
  | destroy h => exact (m.givens_release h).trans (List.append_nil _).symm

theorem givens_run (ops : List Op) : (run ops).givens = ops.flatMap Op.targets := by
  induction ops using List.reverseRecOn with
  | nil => rfl
  | append_singleton ops op ih =>
    rw [run_concat, givens_step, ih, List.flatMap_append, List.flatMap_singleton]

/-- Every array that was deleted was given to a shim. -/
def Owned (m : Heap) : Prop := ∀ target ∈ m.freed, some target ∈ m.givens

theorem Owned.release (howned : Owned m) (hm : Sound m) (h : ℕ) : Owned (m.release h) := by
  intro target htarget
  rw [Heap.givens_release]
  by_cases hh : ∃ s, m.handle h = some (some s)
  · obtain ⟨s, hh⟩ := hh
    obtain ⟨given, shim, hcell, -⟩ := hm.cell_of_handle hh
    rw [(hm.release_spec hh hcell).2.2.2] at htarget
    rcases List.mem_append.mp htarget with hold | hnew
    · exact howned target hold
    · -- The target of the shim itself.
      split at hnew
      · have hgiven : given = some target := Option.mem_toList.mp hnew
        rw [← hgiven]
        exact List.mem_map.mpr ⟨_, List.mem_of_getElem? hcell, rfl⟩
      · cases hnew
  · rw [(letsGo_of_not_pointing (not_exists.mp hh)).1] at htarget
    exact howned target htarget

/-- Where as much is given and as little deleted, what was deleted was given. -/
theorem Owned.of_frame (howned : Owned m) {m' : Heap}
    (h : m'.givens = m.givens ∧ m'.freed = m.freed) : Owned m' := by
  intro target htarget
  rw [h.2] at htarget
  rw [h.1]
  exact howned target htarget

theorem Owned.step (howned : Owned m) (hm : Sound m) (op : Op) : Owned (step m op) := by
  cases op with
  | construct => exact howned
  | ofTarget target length =>
    intro t ht
    rw [givens_step]
    exact List.mem_append_left _ (howned t ht)
  | copyOf rhs => exact howned.of_frame (m.copyOf_frame rhs)
  | swap h target => exact howned.of_frame (m.swap_frame h target)
  | release h => exact howned.release hm h
  | destroy h => exact howned.release hm h
  | assign h rhs =>
    show Owned (m.assign h rhs)
    unfold Heap.assign
    split
    · split
      · exact howned
      · have hcopied := howned.of_frame (m.copyOf_frame rhs)
        have hswapped := hcopied.of_frame ((m.copyOf rhs).swap_frame h m.handles.length)
        exact hswapped.release ((hm.copyOf rhs).swap h m.handles.length) m.handles.length
    · exact howned

/-- Without a NULL target, and with every target given once, handles can let go. -/
theorem droppable_of_nodup {m : Heap} (hnull : none ∉ m.givens) (honce : m.givens.Nodup) (s : ℕ) :
    Droppable m s := by
  have hgivens {s : ℕ} {cell : Cell} (hcell : m.cells[s]? = some cell) :
      m.givens[s]? = some cell.given := by
    rw [Heap.givens, List.getElem?_map, hcell]
    rfl
  intro cell hcell
  constructor
  · intro hgiven
    exact absurd (hgiven ▸ List.mem_of_getElem? (hgivens hcell)) hnull
  · intro target hgiven
    right
    intro s' cell' hcell' hgiven'
    have hs := List.getElem?_eq_some_iff.mp (hgivens hcell)
    have hs' := List.getElem?_eq_some_iff.mp (hgivens hcell')
    rw [hgiven] at hs
    rw [hgiven'] at hs'
    obtain ⟨hlt, hget⟩ := hs
    obtain ⟨hlt', hget'⟩ := hs'
    exact (honce.getElem_inj_iff).mp (hget'.trans hget.symm)

/-- Such an operation is admitted. -/
theorem admits_of_nodup (howned : Owned m) {op : Op} (hnull : none ∉ m.givens ++ op.targets)
    (honce : (m.givens ++ op.targets).Nodup) : Admits m op := by
  have hnull' : none ∉ m.givens := fun hmem => hnull (List.mem_append_left _ hmem)
  have honce' : m.givens.Nodup := (List.nodup_append.mp honce).1
  cases op with
  | construct => trivial
  | copyOf rhs => trivial
  | swap h target => trivial
  | ofTarget target length =>
    cases target with
    | none => trivial
    | some target =>
      intro hfreed
      have hnew : some target ∈ (Op.ofTarget (some target) length).targets := List.mem_singleton_self _
      exact (List.nodup_append.mp honce).2.2 _ (howned target hfreed) _ hnew rfl
  | assign h rhs =>
    intro _ _ _ s _
    have hsame := (m.copyOf_frame rhs).1
    exact droppable_of_nodup (hsame ▸ hnull') (hsame ▸ honce') s
  | release h => exact fun s _ => droppable_of_nodup hnull' honce' s
  | destroy h => exact fun s _ => droppable_of_nodup hnull' honce' s

end

/-- The heap is sound behind every part of a run exactly if it admits every operation. In particular
it is so if no target is NULL, and none is handed over twice. -/
theorem sound_iff (ops : List Op) :
    ((∀ before after, ops = before ++ after → Sound (run before)) ↔
      ∀ before op after, ops = before ++ op :: after → Admits (run before) op) ∧
    (none ∉ ops.flatMap Op.targets → (ops.flatMap Op.targets).Nodup →
      ∀ before after, ops = before ++ after → Sound (run before)) := by
  constructor
  · exact forall_prefix_iff (fun m op hm => hm.step_iff op) sound_empty ops
  · intro hnull honce before
    suffices hboth : ∀ after, ops = before ++ after → Sound (run before) ∧ Owned (run before) from
      fun after hops => (hboth after hops).1
    induction before using List.reverseRecOn with
    | nil => exact fun _ _ => ⟨sound_empty, fun target htarget => absurd htarget List.not_mem_nil⟩
    | append_singleton before op ih =>
      intro after hops
      rw [List.append_assoc] at hops
      obtain ⟨hm, howned⟩ := ih _ hops
      -- The targets up to here are among those of the run.
      have hgivens : ops.flatMap Op.targets =
          (run before).givens ++ op.targets ++ after.flatMap Op.targets := by
        rw [hops, givens_run, List.flatMap_append, List.flatMap_append, List.flatMap_singleton,
          List.append_assoc]
      rw [hgivens] at hnull honce
      have hadmits := admits_of_nodup howned (fun hmem => hnull (List.mem_append_left _ hmem))
        (List.nodup_append.mp honce).1
      rw [run_concat]
      exact ⟨(hm.step_iff op).mpr hadmits, howned.step hm op⟩

/-- An array, a copy of it that is assigned to another handle, and the end of all of them. -/
theorem sound_copies :
    let ops : List Op := [.ofTarget (some 0) 3, .copyOf 0, .ofTarget (some 1) 2, .assign 2 1,
      .release 0, .destroy 1, .destroy 2]
    Sound (run (ops.take 5)) ∧ Sound (run ops) ∧ (run ops).freed.Perm [0, 1] := by
  intro ops
  have hsound := (sound_iff ops).2 (by decide) (by decide)
  refine ⟨hsound _ _ (List.take_append_drop 5 ops).symm, hsound ops [] (List.append_nil ops).symm, ?_⟩
  decide

/-- An array whose target is NULL, a copy of it, and the end of the copy: the first handle is left
with a shim that is deleted, and uses it when it is destroyed. -/
theorem sound_counterexample :
    ¬Sound (run [.ofTarget none 0, .copyOf 0, .destroy 1]) ∧
      (run [.ofTarget none 0, .copyOf 0, .destroy 1, .destroy 0]).touched = true := by
  constructor
  · intro hsound
    exact absurd (hsound.held 0 (by decide)) (by decide)
  · decide

end SharedArray

end Libgetar
