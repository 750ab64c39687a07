import MarketPeer.Lib.Counting

/-!
# A readers-writer lock

Readers share the lock. A writer has it alone, and from the moment that it has announced
itself no reader gets in. `Tracks` says that the lock is held by the routines of a system
and by nobody else.
-/

namespace MarketPeer

inductive Writer where
  | none
  | waiting
  | writing
  deriving DecidableEq

structure RWLock where
  readers : Nat
  writer : Writer
  alone : writer = .writing → readers = 0

namespace RWLock

def free : RWLock := ⟨0, .none, nofun⟩

def rLock (l : RWLock) : Option RWLock :=
  if h : l.writer = .none then some ⟨l.readers + 1, l.writer, by simp [h]⟩ else none

def rUnlock (l : RWLock) : Option RWLock :=
  if 0 < l.readers then some ⟨l.readers - 1, l.writer, fun h => by rw [l.alone h]⟩ else none

/-- Writers announce themselves one at a time. -/
def announce (l : RWLock) : Option RWLock :=
  if l.writer = .none then some ⟨l.readers, .waiting, nofun⟩ else none

def acquire (l : RWLock) : Option RWLock :=
  if h : l.writer = .waiting ∧ l.readers = 0 then some ⟨l.readers, .writing, fun _ => h.2⟩ else none

def unlock (l : RWLock) : Option RWLock :=
  if l.writer = .writing then some ⟨l.readers, .none, nofun⟩ else none

/-- What a routine has of the lock. -/
inductive Hold where
  | nothing
  | reads
  | waits
  | writes
  deriving DecidableEq

/-- The operation that takes a routine from one hold to another. -/
def pass (l : RWLock) : Hold → Hold → Option RWLock
  | .nothing, .reads => l.rLock
  | .reads, .nothing => l.rUnlock
  | .nothing, .waits => l.announce
  | .waits, .writes => l.acquire
  | .writes, .nothing => l.unlock
  | hold, hold' => if hold = hold' then some l else none

/-- What an operation changes for the lock is what it changes for the routine. -/
theorem pass_counts {l l' : RWLock} {a b : Hold} (h : l.pass a b = some l') :
    (l'.readers + (if a = .reads then 1 else 0) = l.readers + if b = .reads then 1 else 0) ∧
    ((if l'.writer = .waiting then 1 else 0) + (if a = .waits then 1 else 0) =
      (if l.writer = .waiting then 1 else 0) + if b = .waits then 1 else 0) ∧
    ((if l'.writer = .writing then 1 else 0) + (if a = .writes then 1 else 0) =
      (if l.writer = .writing then 1 else 0) + if b = .writes then 1 else 0) := by
  unfold pass at h
  split at h
  · obtain ⟨_, hl⟩ := Option.dite_none_right_eq_some.mp h
    cases hl
    simp
  · obtain ⟨hpos, hl⟩ := Option.ite_none_right_eq_some.mp h
    cases hl
    simp only [if_true, reduceCtorEq, if_false, Nat.add_zero, and_self, and_true]
    omega
  · obtain ⟨hnone, hl⟩ := Option.ite_none_right_eq_some.mp h
    cases hl
    simp [hnone]
  · obtain ⟨⟨hwaiting, _⟩, hl⟩ := Option.dite_none_right_eq_some.mp h
    cases hl
    simp [hwaiting]
  · obtain ⟨hwriting, hl⟩ := Option.ite_none_right_eq_some.mp h
    cases hl
    simp [hwriting]
  · obtain ⟨rfl, hl⟩ := Option.ite_none_right_eq_some.mp h
    cases hl
    exact ⟨rfl, rfl, rfl⟩

/-- A writer waits as long as there are readers. -/
theorem pass_waiting {l l' : RWLock} {a b : Hold} (h : l.pass a b = some l') (hwaiting : l.writer = .waiting)
    (hpos : 0 < l.readers) : l'.writer = .waiting := by
  unfold pass at h
  split at h
  · obtain ⟨hnone, _⟩ := Option.dite_none_right_eq_some.mp h
    cases hwaiting.symm.trans hnone
  · obtain ⟨-, hl⟩ := Option.ite_none_right_eq_some.mp h
    cases hl
    exact hwaiting
  · obtain ⟨hnone, -⟩ := Option.ite_none_right_eq_some.mp h
    cases hwaiting.symm.trans hnone
  · obtain ⟨⟨-, hzero⟩, _⟩ := Option.dite_none_right_eq_some.mp h
    exact absurd hzero (Nat.ne_of_gt hpos)
  · obtain ⟨hwriting, -⟩ := Option.ite_none_right_eq_some.mp h
    cases hwaiting.symm.trans hwriting
  · obtain ⟨-, hl⟩ := Option.ite_none_right_eq_some.mp h
    cases hl
    exact hwaiting

section Tracks

variable {α : Type} (hold : α → Hold)

def holders (h : Hold) (routines : List α) : Nat := routines.countP fun c => hold c = h

structure Tracks (l : RWLock) (routines : List α) : Prop where
  reads : holders hold .reads routines = l.readers
  waits : holders hold .waits routines = if l.writer = .waiting then 1 else 0
  writes : holders hold .writes routines = if l.writer = .writing then 1 else 0

variable {hold} {l l' : RWLock} {routines : List α} {c c' : α} {i : Nat}

variable (hold) in
theorem holders_set (h : Hold) (hi : routines[i]? = some c) (c' : α) :
    holders hold h (routines.set i c') + (if hold c = h then 1 else 0) =
      holders hold h routines + if hold c' = h then 1 else 0 := by
  unfold holders
  simpa only [decide_eq_true_eq] using countP_set_add hi c' fun c => hold c = h

theorem Tracks.free (hnothing : ∀ c ∈ routines, hold c = .nothing) : Tracks hold RWLock.free routines := by
  have hzero (h : Hold) (hne : Hold.nothing ≠ h) : holders hold h routines = 0 := by
    refine List.countP_eq_zero.mpr fun c hc => ?_
    rw [hnothing c hc, decide_eq_true_eq]
    exact hne
  exact ⟨hzero _ nofun, hzero _ nofun, hzero _ nofun⟩

theorem Tracks.append (ht : Tracks hold l routines) (hc : hold c = .nothing) : Tracks hold l (routines ++ [c]) := by
  have hsame (h : Hold) (hne : Hold.nothing ≠ h) : holders hold h (routines ++ [c]) = holders hold h routines := by
    simp [holders, hc, hne]
  constructor
  · exact (hsame .reads nofun).trans ht.reads
  · exact (hsame .waits nofun).trans ht.waits
  · exact (hsame .writes nofun).trans ht.writes

/-- One routine moves, with the operation that belongs to its move. -/
theorem Tracks.pass (ht : Tracks hold l routines) (hi : routines[i]? = some c)
    (hpass : l.pass (hold c) (hold c') = some l') : Tracks hold l' (routines.set i c') := by
  have hreads := holders_set hold .reads hi c'
  have hwaits := holders_set hold .waits hi c'
  have hwrites := holders_set hold .writes hi c'
  obtain ⟨hr, hwaiting, hwriting⟩ := pass_counts hpass
  rw [ht.reads] at hreads
  rw [ht.waits] at hwaits
  rw [ht.writes] at hwrites
  constructor
  · omega
  · omega
  · omega

theorem Tracks.readers_pos (ht : Tracks hold l routines) (hc : c ∈ routines) (hreads : hold c = .reads) :
    0 < l.readers := by
  rw [← ht.reads]
  exact List.countP_pos_iff.mpr ⟨c, hc, by rw [hreads]; rfl⟩

theorem Tracks.writing (ht : Tracks hold l routines) (hc : c ∈ routines) (hwrites : hold c = .writes) :
    l.writer = .writing := by
  have hpos : 0 < holders hold .writes routines := List.countP_pos_iff.mpr ⟨c, hc, by rw [hwrites]; rfl⟩
  rw [ht.writes] at hpos
  by_contra hne
  rw [if_neg hne] at hpos
  exact Nat.not_lt_zero 0 hpos

theorem Tracks.exists_reader (ht : Tracks hold l routines) (hpos : 0 < l.readers) :
    ∃ c ∈ routines, hold c = .reads := by
  rw [← ht.reads] at hpos
  obtain ⟨c, hc, hreads⟩ := List.countP_pos_iff.mp hpos
  exact ⟨c, hc, of_decide_eq_true hreads⟩

theorem Tracks.exists_waiting (ht : Tracks hold l routines) (hw : l.writer = .waiting) :
    ∃ c ∈ routines, hold c = .waits := by
  have hone := ht.waits
  rw [if_pos hw] at hone
  obtain ⟨c, hc, hwaits⟩ := List.countP_pos_iff.mp (by rw [← holders, hone]; exact Nat.one_pos)
  exact ⟨c, hc, of_decide_eq_true hwaits⟩

theorem Tracks.exists_writing (ht : Tracks hold l routines) (hw : l.writer = .writing) :
    ∃ c ∈ routines, hold c = .writes := by
  have hone := ht.writes
  rw [if_pos hw] at hone
  obtain ⟨c, hc, hwrites⟩ := List.countP_pos_iff.mp (by rw [← holders, hone]; exact Nat.one_pos)
  exact ⟨c, hc, of_decide_eq_true hwrites⟩

end Tracks

end RWLock

end MarketPeer
