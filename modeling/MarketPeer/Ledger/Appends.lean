import MarketPeer.Ledger.Chain

/-!
# What `TryAppend` promises and what `OverWrite` leaves

`TryAppend` tells its callers what `Append` will do with a block, and `OverWrite` puts
the blocks of a peer in the place of the chain, one `Append` after the other.
-/

namespace MarketPeer.Ledger

variable {F : Type} {env : Env F} {bc : BlockChain F} {last : Block F}

namespace BlockChain

/-- The loop of `OverWrite`, oldest block first. -/
def appendAll (env : Env F) (bc : BlockChain F) : List (Block F) → Res F Unit × BlockChain F
  | [] => (.ok (), bc)
  | b :: rest =>
    match bc.append env b with
    | (.ok _, bc') => bc'.appendAll env rest
    | r => r

/-- `OverWrite` of blocks that are given newest first; the lock is left out. -/
def overWrite (env : Env F) (bc : BlockChain F) (blocks : List (Block F)) : Res F Unit × BlockChain F :=
  match blocks.reverse with
  | [] => (.panic outOfRange, bc)
  | genesis :: rest => appendAll env (.newWithGenesis env genesis) rest

/-- The chains that a program can have in its hands. -/
inductive Reached (env : Env F) : BlockChain F → Prop where
  | genesis (g : Block F) : Reached env (.newWithGenesis env g)
  | append (bc : BlockChain F) (b : Block F) (h : Reached env bc) : Reached env (bc.append env b).2
  | overWrite (bc : BlockChain F) (blocks : List (Block F)) (h : Reached env bc) :
      Reached env (bc.overWrite env blocks).2

/-! ## One end -/

theorem append_ends (env : Env F) (hends : bc.ends = [last]) (b : Block F) :
    ∃ last', (bc.append env b).2.ends = [last'] := by
  rcases append_cases env bc b last hends with ⟨heq, -, -⟩ | ⟨-, hsame⟩
  · exact ⟨b, by rw [heq]⟩
  · exact ⟨last, by rw [hsame, hends]⟩

theorem appendAll_ends (hends : bc.ends = [last]) (blocks : List (Block F)) :
    ∃ last', (bc.appendAll env blocks).2.ends = [last'] := by
  induction blocks generalizing bc last with
  | nil => exact ⟨last, hends⟩
  | cons b rest ih =>
    obtain ⟨last', hlast'⟩ := append_ends env hends b
    unfold appendAll
    split
    · next heq => rw [heq] at hlast'; exact ih hlast'
    · exact ⟨last', hlast'⟩

theorem Reached.ends (h : Reached env bc) : ∃ last, bc.ends = [last] := by
  induction h with
  | genesis g => exact ⟨g, rfl⟩
  | append bc b _ ih =>
    obtain ⟨last, hends⟩ := ih
    exact append_ends env hends b
  | overWrite bc blocks _ ih =>
    unfold BlockChain.overWrite
    split
    · exact ih
    · exact appendAll_ends rfl _

/-! ## Trying to append -/

theorem append_eq (env : Env F) (hends : bc.ends = [last]) (b : Block F) :
    bc.append env b =
      if b.header.number - last.header.number ≥ 2 then
        (.err (tooNew b.header.number last.header.number), bc)
      else if last.hash env = b.header.parentHash then
        if b.header.number ≠ last.header.number + 1 then (.panic conflict, bc)
        else (.ok (), ⟨bc.blocksMap.insert (b.hash env) b, [b]⟩)
      else (.err (.errorf "block too old, cannot connect to ends, block=%s" []), bc) := by
  unfold append firstEnd
  rw [hends]
  by_cases hparent : last.hash env = b.header.parentHash <;> simp [hparent]

theorem tryAppend_eq (env : Env F) (hends : bc.ends = [last]) (b : Block F) :
    bc.tryAppend env b =
      if b.header.number - last.header.number ≥ 2 then .err (tooNew b.header.number last.header.number)
      else if b.header.number - last.header.number ≤ 0 then
        .err (.errorf "block number(%d) not valid, cannot connect to ends(number=%d), block=%s"
          [.int b.header.number, .int last.header.number])
      else if last.hash env = b.header.parentHash then
        if b.header.number ≠ last.header.number + 1 then .panic conflict else .ok last
      else .err (.errorf "block(parentHash=%s) cannot be connected to ends(%s), block=%s"
        [.str (String.ofList ((b.hash env).toList.take 6) ++ "..."),
          .str (String.ofList ((last.hash env).toList.take 6) ++ "...")]) := by
  unfold tryAppend firstEnd
  rw [hends]
  by_cases hparent : last.hash env = b.header.parentHash <;> simp [hparent]

/-- A number that is neither too new nor too old is the next one. -/
theorem next_number {number endsNumber : Int64} (hnew : ¬ number - endsNumber ≥ 2)
    (hold : ¬ number - endsNumber ≤ 0) : number = endsNumber + 1 := by
  have hgap : number - endsNumber = 1 := by
    rw [ge_iff_le, Int64.le_iff_toInt_le] at hnew
    rw [Int64.le_iff_toInt_le] at hold
    apply Int64.toInt_inj.mp
    change ¬ (2 : Int) ≤ _ at hnew
    change ¬ _ ≤ (0 : Int) at hold
    change _ = (1 : Int)
    omega
  rw [← hgap, Int64.add_comm, Int64.sub_add_cancel]

theorem old_not_next {number endsNumber : Int64} (hold : number - endsNumber ≤ 0) :
    ¬ number - endsNumber ≥ 2 ∧ number ≠ endsNumber + 1 := by
  constructor
  · intro hnew
    have := Int64.le_trans hnew hold
    exact absurd this (by decide)
  · rintro rfl
    rw [Int64.add_comm, Int64.add_sub_cancel] at hold
    exact absurd hold (by decide)

end BlockChain

/-- The call returns an error that wraps `ErrBlockTooNew`. -/
def TooNew {α : Type} (r : Res F α) : Prop := ∃ e, r = .err e ∧ e.is .blockTooNew = true

def OtherError {α : Type} (r : Res F α) : Prop := ∃ e, r = .err e ∧ e.is .blockTooNew = false

structure Predicts (env : Env F) (bc : BlockChain F) (b : Block F) : Prop where
  ok : (∃ p, bc.tryAppend env b = .ok p) ↔ (bc.append env b).1 = .ok ()
  parent : ∀ p, bc.tryAppend env b = .ok p → bc.ends = [p]
  tooNew : TooNew (bc.tryAppend env b) ↔ TooNew (bc.append env b).1
  other : OtherError (bc.tryAppend env b) ↔ OtherError (bc.append env b).1
  noPanic : ¬ (bc.tryAppend env b).Panics ∧ ¬ (bc.append env b).1.Panics
  unchanged : ∀ e, (bc.append env b).1 = .err e → (bc.append env b).2 = bc

/-- The block names an end as its parent and its number is not above the number of that end. -/
def NamesEndButOld (env : Env F) (bc : BlockChain F) (b : Block F) : Prop :=
  ∃ last ∈ bc.ends, b.header.parentHash = last.hash env ∧ b.header.number - last.header.number ≤ 0

section Predicts

open BlockChain

variable (b : Block F)

/-- `Append` lacks the check of `TryAppend` that comes first, and runs into its own cross-check. -/
theorem append_panics_of_namesEndButOld (hends : bc.ends = [last]) (h : NamesEndButOld env bc b) :
    (bc.append env b).1 = .panic conflict := by
  obtain ⟨last', hlast', hparent, hold⟩ := h
  rw [hends, List.mem_singleton] at hlast'
  subst hlast'
  obtain ⟨hnew, hnext⟩ := old_not_next hold
  rw [append_eq env hends, if_neg hnew, if_pos hparent.symm, if_pos hnext]

theorem predicts_of_not_namesEndButOld (hends : bc.ends = [last]) (h : ¬ NamesEndButOld env bc b) :
    Predicts env bc b := by
  have hguard : last.hash env = b.header.parentHash → ¬ b.header.number - last.header.number ≤ 0 := by
    intro hparent hold
    exact h ⟨last, by simp [hends], hparent.symm, hold⟩
  have happend := append_eq env hends b
  have htry := tryAppend_eq env hends b
  by_cases hnew : b.header.number - last.header.number ≥ 2
  · rw [if_pos hnew] at happend htry
    constructor <;> simp [happend, htry, TooNew, OtherError]
  rw [if_neg hnew] at happend htry
  by_cases hparent : last.hash env = b.header.parentHash
  · have hold := hguard hparent
    have hnext := next_number hnew hold
    rw [if_pos hparent, if_neg (not_not.mpr hnext)] at happend
    rw [if_neg hold, if_pos hparent, if_neg (not_not.mpr hnext)] at htry
    constructor <;> simp [happend, htry, TooNew, OtherError, hends]
  · rw [if_neg hparent] at happend
    rw [if_neg hparent] at htry
    by_cases hold : b.header.number - last.header.number ≤ 0
    · rw [if_pos hold] at htry
      constructor <;> simp [happend, htry, TooNew, OtherError, GoError.is]
    · rw [if_neg hold] at htry
      constructor <;> simp [happend, htry, TooNew, OtherError, GoError.is]

end Predicts

/-- `TryAppend` predicts `Append` on exactly the blocks that do not name the end with an old number. -/
theorem tryAppend_predicts_append (env : Env F) (bc : BlockChain F) (b : Block F) (h : bc.Reached env) :
    Predicts env bc b ↔ ¬ NamesEndButOld env bc b := by
  obtain ⟨last, hends⟩ := h.ends
  constructor
  · intro hpredicts hold
    apply hpredicts.noPanic.2
    exact ⟨_, append_panics_of_namesEndButOld b hends hold⟩
  · exact predicts_of_not_namesEndButOld b hends

theorem sampleChild_predicts :
    Predicts (blockEnv none) (.newWithGenesis (blockEnv none) sampleRoot) sampleChild := by
  rw [tryAppend_predicts_append _ _ _ (.genesis sampleRoot)]
  rintro ⟨last, hlast, -, hold⟩
  rw [BlockChain.newWithGenesis, List.mem_singleton] at hlast
  subst hlast
  exact absurd hold (by decide)

/-- A block with the genesis block for a parent and its number: an error first, and then a panic. -/
theorem tryAppend_not_predicts :
    (BlockChain.newWithGenesis (blockEnv none) sampleRoot).Reached (blockEnv none) ∧
      ¬ Predicts (blockEnv none) (.newWithGenesis (blockEnv none) sampleRoot)
        (sampleBlock (sampleRoot.hash (blockEnv none)) 0) := by
  refine ⟨.genesis sampleRoot, fun h => h.noPanic.2 ⟨BlockChain.conflict, ?_⟩⟩
  apply append_panics_of_namesEndButOld _ rfl
  exact ⟨sampleRoot, by simp [BlockChain.newWithGenesis], rfl, by decide⟩

/-! ## Overwriting -/

def Follows (env : Env F) (b below : Block F) : Prop :=
  b.header.parentHash = below.hash env ∧ b.header.number = below.header.number + 1

instance (env : Env F) (b below : Block F) : Decidable (Follows env b below) := instDecidableAnd

/-- Newest first, each block follows the one below it; the lowest may be any block. -/
def Connected (env : Env F) (blocks : List (Block F)) : Prop := blocks.IsChain (Follows env)

instance (env : Env F) (blocks : List (Block F)) : Decidable (Connected env blocks) :=
  inferInstanceAs (Decidable (blocks.IsChain (Follows env)))

/-- The longest end of the list that is connected. -/
def connectedEnd (env : Env F) : List (Block F) → List (Block F)
  | [] => []
  | b :: rest => if Connected env (b :: rest) then b :: rest else connectedEnd env rest

/-- The chain has these blocks, and their first one is its end. -/
structure Holds (env : Env F) (bc : BlockChain F) (blocks : List (Block F)) : Prop where
  ends : bc.ends = blocks.take 1
  stored : ∀ h, bc.blocksMap[h]? = blocks.find? fun b => b.hash env = h

def AllOrNothing (env : Env F) (bc : BlockChain F) (blocks : List (Block F)) : Prop :=
  ((bc.overWrite env blocks).1 = .ok () → Holds env (bc.overWrite env blocks).2 blocks ∧ Connected env blocks) ∧
  ((bc.overWrite env blocks).1.isOk = false →
    (bc.overWrite env blocks).2.blocksMap = bc.blocksMap ∧ (bc.overWrite env blocks).2.ends = bc.ends)

section OverWrite

open BlockChain

variable {blocks rest : List (Block F)} {b : Block F}

theorem connectedEnd_of_connected (h : Connected env blocks) : connectedEnd env blocks = blocks := by
  cases blocks with
  | nil => rfl
  | cons b rest => exact if_pos h

theorem Holds.unique {bc' : BlockChain F} (h : Holds env bc blocks) (h' : Holds env bc' blocks) :
    bc.blocksMap = bc'.blocksMap ∧ bc.ends = bc'.ends := by
  constructor
  · apply Std.ExtTreeMap.ext_getElem?
    intro k
    rw [h.stored, h'.stored]
  · rw [h.ends, h'.ends]

theorem appendAll_snoc (bc : BlockChain F) (bs : List (Block F)) (b : Block F) :
    bc.appendAll env (bs ++ [b]) =
      match bc.appendAll env bs with
      | (.ok _, bc') => bc'.append env b
      | r => r := by
  induction bs generalizing bc with
  | nil =>
    simp only [List.nil_append, appendAll]
    split
    · next u bc' heq => cases u; exact heq.symm
    · rfl
  | cons x xs ih =>
    simp only [List.cons_append, appendAll]
    split
    · exact ih _
    · next r hr =>
      split
      · next u bc' heq => exact (hr u bc' heq).elim
      · rfl

/-- The newest block comes last. -/
theorem overWrite_cons (bc : BlockChain F) (b : Block F) (hne : rest ≠ []) :
    bc.overWrite env (b :: rest) =
      match bc.overWrite env rest with
      | (.ok _, bc') => bc'.append env b
      | r => r := by
  unfold overWrite
  rw [List.reverse_cons]
  cases hrev : rest.reverse with
  | nil => exact (hne (List.reverse_eq_nil_iff.mp hrev)).elim
  | cons genesis above =>
    simp only [List.cons_append]
    exact appendAll_snoc _ above b

theorem holds_newWithGenesis (g : Block F) : Holds env (.newWithGenesis env g) [g] where
  ends := rfl
  stored h := by
    unfold newWithGenesis
    rw [Std.ExtTreeMap.getElem?_insert]
    by_cases hh : g.hash env = h <;> simp [hh]

/-- A block is appended to a chain that holds a list when it follows the first of the list. -/
theorem Holds.append (h : Holds env bc (last :: rest)) (b : Block F) :
    (Follows env b last → (bc.append env b).1 = .ok () ∧ Holds env (bc.append env b).2 (b :: last :: rest)) ∧
    (¬ Follows env b last → (bc.append env b).1.isOk = false ∧ (bc.append env b).2 = bc) := by
  have hends : bc.ends = [last] := h.ends
  constructor
  · rintro ⟨hparent, hnumber⟩
    have hnew : ¬ b.header.number - last.header.number ≥ 2 := by
      rw [hnumber, Int64.add_comm, Int64.add_sub_cancel]
      decide
    rw [append_eq env hends, if_neg hnew, if_pos hparent.symm, if_neg (not_not.mpr hnumber)]
    refine ⟨rfl, rfl, fun k => ?_⟩
    rw [Std.ExtTreeMap.getElem?_insert, h.stored]
    by_cases hk : b.hash env = k <;> simp [hk]
  · intro hnot
    rcases append_cases env bc b last hends with ⟨-, hparent, hnumber⟩ | hrefused
    · exact (hnot ⟨hparent, hnumber⟩).elim
    · exact hrefused

/-- `OverWrite` ends with the blocks below the first that does not follow, and returns nil when
there is none. -/
theorem overWrite_spec (env : Env F) (bc : BlockChain F) (hne : blocks ≠ []) :
    Holds env (bc.overWrite env blocks).2 (connectedEnd env blocks) ∧
    ((bc.overWrite env blocks).1.isOk = true ↔ Connected env blocks) := by
  induction blocks with
  | nil => exact (hne rfl).elim
  | cons b rest ih =>
    cases rest with
    | nil =>
      have hconnected : Connected env [b] := List.IsChain.singleton b
      rw [connectedEnd_of_connected hconnected]
      exact ⟨holds_newWithGenesis b, by simp [overWrite, appendAll, hconnected]⟩
    | cons last below =>
      obtain ⟨hholds, hok⟩ := ih (List.cons_ne_nil last below)
      have hsplit : Connected env (b :: last :: below) ↔ Follows env b last ∧ Connected env (last :: below) :=
        List.isChain_cons_cons
      rw [overWrite_cons bc b (List.cons_ne_nil last below), hsplit]
      rcases hover : bc.overWrite env (last :: below) with ⟨r, bc'⟩
      rw [hover] at hholds hok
      by_cases hbelow : Connected env (last :: below)
      · obtain ⟨u, rfl⟩ := (Outcome.isOk_iff r).mp (hok.mpr hbelow)
        rw [connectedEnd_of_connected hbelow] at hholds
        by_cases hfollows : Follows env b last
        · obtain ⟨hret, hnew⟩ := (hholds.append b).1 hfollows
          rw [connectedEnd_of_connected (hsplit.mpr ⟨hfollows, hbelow⟩)]
          exact ⟨hnew, by simp [hret, hfollows, hbelow]⟩
        · obtain ⟨hret, hsame⟩ := (hholds.append b).2 hfollows
          rw [connectedEnd, if_neg (fun h => hfollows (hsplit.mp h).1), connectedEnd_of_connected hbelow]
          exact ⟨hsame ▸ hholds, by simp [hret, hfollows]⟩
      · have hr : r.isOk = false := by simpa [hbelow] using hok
        rw [connectedEnd, if_neg (fun h => hbelow (hsplit.mp h).2)]
        cases r with
        | ok u => cases hr
        | err e => exact ⟨hholds, by simp [hbelow]⟩
        | panic why => exact ⟨hholds, by simp [hbelow]⟩

end OverWrite

/-- `OverWrite` is all or nothing when its list is connected, and otherwise only by coincidence: when
the chain already holds the end of the list that is. -/
theorem overWrite_allOrNothing (env : Env F) (bc : BlockChain F) (blocks : List (Block F)) :
    AllOrNothing env bc blocks ↔ Connected env blocks ∨ Holds env bc (connectedEnd env blocks) := by
  by_cases hne : blocks = []
  · subst hne
    simp [AllOrNothing, BlockChain.overWrite, Connected]
  obtain ⟨hholds, hok⟩ := overWrite_spec env bc hne
  by_cases hconnected : Connected env blocks
  · have hret : (bc.overWrite env blocks).1.isOk = true := hok.mpr hconnected
    rw [connectedEnd_of_connected hconnected] at hholds
    simp [AllOrNothing, hconnected, hholds, hret]
  · have hret : (bc.overWrite env blocks).1.isOk = false := by simpa [hconnected] using hok
    have hnotOk : (bc.overWrite env blocks).1 ≠ .ok () := by
      intro h
      rw [h] at hret
      cases hret
    simp only [AllOrNothing, hnotOk, false_implies, true_and, hret, true_implies, hconnected, false_or]
    constructor
    · rintro ⟨hmap, hends⟩
      exact ⟨hends ▸ hholds.ends, fun k => hmap ▸ hholds.stored k⟩
    · intro hbefore
      exact hholds.unique hbefore

/-- A chain of two blocks, and a peer whose second block names no parent: the chain has one block
then. -/
theorem overWrite_not_allOrNothing :
    ¬ AllOrNothing (blockEnv none)
      ((BlockChain.newWithGenesis (blockEnv none) sampleRoot).append (blockEnv none) sampleChild).2
      [sampleBlock "" 1, sampleRoot] := by
  intro h
  have hends := (h.2 (by decide +kernel)).2
  have hnumbers := congrArg (List.map fun b : Block Int => b.header.number) hends
  exact absurd hnumbers (by decide +kernel)

end MarketPeer.Ledger
