import Mathlib

/-!
# Locks on a file

Parties read and write a file in transactions. Any number of them hold a `shared` lock. One at a time
holds a `reserved` lock, while it changes what it has read, and others go on reading; its lock is
`pending` when it keeps them from beginning to read. A lock is held to the end of a transaction, and
there a party that has changed something needs the file for itself.

There is never more than one writer (`OneWriter`). When every party that holds a lock waits for another
one, one of them waits to commit for a party that has read and waits to write (`exists_upgrade`).
-/

namespace Libgetar.Lib

/-- What a party holds. -/
inductive Lock where
  | unlocked
  | shared
  | reserved
  | pending
deriving DecidableEq

/-- The party has changed the file, or may do so. -/
def Lock.writes : Lock → Bool
  | .reserved | .pending => true
  | .unlocked | .shared => false

/-- The lock of a party that has read. -/
def Lock.read (lock : Lock) : Lock := if lock = .unlocked then .shared else lock

/-- The lock of a party that has written, and may keep others from beginning to read. -/
def Lock.write (lock : Lock) (keepOut : Bool) : Lock :=
  if keepOut || lock == .pending then .pending else .reserved

/-- The lock of a party that could not commit. -/
def Lock.wait (lock : Lock) : Lock := if lock.writes then .pending else lock

theorem Lock.writes_read (lock : Lock) : lock.read.writes = lock.writes := by
  cases lock <;> rfl

theorem Lock.writes_write (lock : Lock) (keepOut : Bool) : (lock.write keepOut).writes = true := by
  unfold Lock.write
  split <;> rfl

theorem Lock.writes_wait (lock : Lock) : lock.wait.writes = lock.writes := by
  cases lock <;> rfl

/-- A party that has a lock and may not change the file may read it. -/
theorem Lock.eq_shared {lock : Lock} (hlock : lock ≠ .unlocked) (hreads : lock.writes = false) :
    lock = .shared := by
  cases lock with
  | unlocked => exact absurd rfl hlock
  | shared => rfl
  | reserved => cases hreads
  | pending => cases hreads

/-- The locks of all parties. -/
abbrev Locks (ι : Type*) := ι → Lock

namespace Locks

variable {ι : Type*} [Fintype ι] [DecidableEq ι] {t : Locks ι} {i j : ι}

/-! ## What is granted -/

/-- The party has a lock, or can get one to read. -/
def mayRead (t : Locks ι) (i : ι) : Bool := decide (t i ≠ .unlocked ∨ ∀ j, t j ≠ .pending)

/-- The party is the writer, or there is none and it can become the writer. -/
def mayWrite (t : Locks ι) (i : ι) : Bool :=
  (t i).writes || (t.mayRead i && decide (∀ j, (t j).writes = false))

/-- No other party has a lock. -/
def alone (t : Locks ι) (i : ι) : Bool := decide (∀ j, j ≠ i → t j = .unlocked)

/-- The party has changed nothing, or has the file for itself. -/
def mayCommit (t : Locks ι) (i : ι) : Bool := !(t i).writes || t.alone i

/-! ## There is one writer -/

/-- No two parties may change the file. -/
def OneWriter (t : Locks ι) : Prop := ∀ i j, (t i).writes = true → (t j).writes = true → i = j

omit [Fintype ι] [DecidableEq ι] in
theorem oneWriter_unlocked : OneWriter fun _ : ι => Lock.unlocked :=
  fun _ _ hwrites => Bool.noConfusion hwrites

omit [Fintype ι] in
/-- A party changes its lock, and writes only if it did before or if there is no writer. -/
theorem OneWriter.update (h : OneWriter t) {lock : Lock}
    (hlock : lock.writes = true → (t i).writes = true ∨ ∀ j, (t j).writes = false) :
    OneWriter (Function.update t i lock) := by
  have hother {k : ι} (hk : k ≠ i) (hwrites : (t k).writes = true) : lock.writes = false := by
    by_contra hi
    rcases hlock (Bool.eq_true_of_not_eq_false hi) with hold | hnone
    · exact hk (h k i hwrites hold)
    · rw [hnone k] at hwrites
      cases hwrites
  intro j k hj hk
  rcases eq_or_ne j i with rfl | hji
  · rcases eq_or_ne k j with rfl | hkj
    · rfl
    · rw [Function.update_self] at hj
      rw [Function.update_of_ne hkj] at hk
      rw [hother hkj hk] at hj
      cases hj
  · rw [Function.update_of_ne hji] at hj
    rcases eq_or_ne k i with rfl | hki
    · rw [Function.update_self, hother hji hj] at hk
      cases hk
    · rw [Function.update_of_ne hki] at hk
      exact h j k hj hk

omit [Fintype ι] in
/-- A party that does not become a writer. -/
theorem OneWriter.same (h : OneWriter t) {lock : Lock}
    (hlock : lock.writes = true → (t i).writes = true) : OneWriter (Function.update t i lock) :=
  h.update fun hwrites => Or.inl (hlock hwrites)

/-- A party that may write. -/
theorem OneWriter.write (h : OneWriter t) (hmay : t.mayWrite i = true) (lock : Lock) :
    OneWriter (Function.update t i lock) := by
  refine h.update fun _ => ?_
  rcases Bool.or_eq_true_iff.mp hmay with hwrites | hfree
  · exact Or.inl hwrites
  · exact Or.inr (of_decide_eq_true (Bool.and_eq_true_iff.mp hfree).2)

/-! ## Parties that wait for each other -/

/-- What a party asks for. -/
inductive Request where
  | nothing
  | read
  | write
  | commit
deriving DecidableEq

/-- The party gets what it asks for. -/
def grants (t : Locks ι) (i : ι) : Request → Bool
  | .nothing => true
  | .read => t.mayRead i
  | .write => t.mayWrite i
  | .commit => t.mayCommit i

/-- A party that has read waits to write, and the writer waits to commit. -/
structure Upgrade (t : Locks ι) (asks : ι → Request) (i j : ι) : Prop where
  shared : t i = .shared
  write : asks i = .write
  writes : (t j).writes = true
  commit : asks j = .commit

omit [DecidableEq ι] in
theorem mayWrite_iff : t.mayWrite i = true ↔
    (t i).writes = true ∨ t.mayRead i = true ∧ ∀ j, (t j).writes = false := by
  rw [mayWrite, Bool.or_eq_true, Bool.and_eq_true, decide_eq_true_iff]

theorem mayCommit_iff :
    t.mayCommit i = true ↔ ((t i).writes = true → ∀ j, j ≠ i → t j = .unlocked) := by
  cases hwrites : (t i).writes <;> simp [mayCommit, alone, hwrites]

omit [DecidableEq ι] in
/-- A party that has a lock may read. -/
theorem mayRead_of_ne (h : t i ≠ .unlocked) : t.mayRead i = true := decide_eq_true (Or.inl h)

omit [DecidableEq ι] in
/-- Another writer keeps a party from writing. -/
theorem mayWrite_eq_false (hi : (t i).writes = false) (hj : (t j).writes = true) :
    t.mayWrite i = false := by
  rw [← Bool.not_eq_true, mayWrite_iff]
  rintro (hwrites | ⟨-, hnone⟩)
  · rw [hi] at hwrites
    cases hwrites
  · rw [hnone j] at hj
    cases hj

/-- Another party with a lock keeps the writer from committing. -/
theorem mayCommit_eq_false (hne : i ≠ j) (hi : t i ≠ .unlocked) (hj : (t j).writes = true) :
    t.mayCommit j = false := by
  rw [← Bool.not_eq_true, mayCommit_iff]
  exact fun hfree => hi (hfree hj i hne)

/-- When every party with a lock is refused what it asks for, and there is one, two of them wait for
each other in this way. -/
theorem exists_upgrade (h : OneWriter t) {asks : ι → Request}
    (hrefused : ∀ i, t i ≠ .unlocked → t.grants i (asks i) = false) (hheld : ∃ i, t i ≠ .unlocked) :
    ∃ i j, Upgrade t asks i j := by
  -- A party with a lock can read and do nothing, so it waits to write or to commit.
  have hasks {i : ι} (hi : t i ≠ .unlocked) :
      asks i = .write ∧ t.mayWrite i = false ∨ asks i = .commit ∧ t.mayCommit i = false := by
    have hno := hrefused i hi
    cases hask : asks i <;> rw [hask] at hno
    · cases hno
    · rw [grants, mayRead_of_ne hi] at hno
      cases hno
    · exact Or.inl ⟨rfl, hno⟩
    · exact Or.inr ⟨rfl, hno⟩
  by_cases hwriter : ∃ j, (t j).writes = true
  · -- The writer waits to commit, so somebody else has a lock.
    obtain ⟨j, hj⟩ := hwriter
    have hjlock : t j ≠ .unlocked := by
      intro hunlocked
      rw [hunlocked] at hj
      cases hj
    have hcommit : asks j = .commit ∧ t.mayCommit j = false := by
      refine (hasks hjlock).resolve_left fun hwrite => ?_
      have hmay := mayWrite_iff.mpr (Or.inl hj)
      rw [hwrite.2] at hmay
      cases hmay
    obtain ⟨i, hne, hi⟩ : ∃ i, i ≠ j ∧ t i ≠ .unlocked := by
      by_contra hnone
      push Not at hnone
      have hmay := mayCommit_iff.mpr fun _ => hnone
      rw [hcommit.2] at hmay
      cases hmay
    -- It is no writer, so it cannot wait to commit.
    have hreads : (t i).writes = false := by
      by_contra hwrites
      exact hne (h i j (Bool.eq_true_of_not_eq_false hwrites) hj)
    refine ⟨i, j, Lock.eq_shared hi hreads, ((hasks hi).resolve_right fun hwaits => ?_).1, hj, hcommit.1⟩
    have hmay : t.mayCommit i = true := mayCommit_iff.mpr fun hwrites => by
      rw [hreads] at hwrites
      cases hwrites
    rw [hwaits.2] at hmay
    cases hmay
  · -- Without a writer everything is granted.
    push Not at hwriter
    have hnone : ∀ j, (t j).writes = false := fun j => Bool.eq_false_of_not_eq_true (hwriter j)
    obtain ⟨i, hi⟩ := hheld
    have hgranted : t.mayWrite i = true ∧ t.mayCommit i = true := by
      refine ⟨mayWrite_iff.mpr (Or.inr ⟨mayRead_of_ne hi, hnone⟩), mayCommit_iff.mpr fun hwrites => ?_⟩
      rw [hnone i] at hwrites
      cases hwrites
    rcases hasks hi with ⟨-, hno⟩ | ⟨-, hno⟩
    · rw [hgranted.1] at hno
      cases hno
    · rw [hgranted.2] at hno
      cases hno

end Locks

end Libgetar.Lib
