import MarketPeer.Ledger.BlockChain
import MarketPeer.Ledger.Execute
import Mathlib.Algebra.Group.Nat.Defs
import Mathlib.Data.List.Basic
import Mathlib.Data.List.Nodup

/-!
# A chain is a list

The blocks that were appended, newest first, are all there is to a `BlockChain`:
the map finds them by hash, each names the one below it, and its number is how
many are below it. The loops of the queries walk down this list.
-/

namespace MarketPeer.Ledger

variable {F : Type}

/-! ## The list -/

/-- The hash a block on top of the list has to name; below genesis it is the dummy. -/
def tipHash (env : Env F) : List (Block F) → String
  | [] => DUMMY_PARENT_HASH
  | b :: _ => b.hash env

@[simp] theorem tipHash_cons (env : Env F) (b : Block F) (rest : List (Block F)) :
    tipHash env (b :: rest) = b.hash env := rfl

def Linked (env : Env F) : List (Block F) → Prop
  | [] => True
  | b :: rest => b.header.parentHash = tipHash env rest ∧ Linked env rest

def Numbered : List (Block F) → Prop
  | [] => True
  | b :: rest => b.header.number = Int64.ofNat rest.length ∧ Numbered rest

structure Represents (env : Env F) (bc : BlockChain F) (blocks : List (Block F)) : Prop where
  ends : bc.ends = blocks.take 1
  nonempty : blocks ≠ []
  stored : ∀ h, bc.blocksMap[h]? = blocks.find? fun b => b.hash env = h
  linked : Linked env blocks
  numbered : Numbered blocks

/-- A chain and the blocks it has accepted, newest first. -/
structure ChainHistory (F : Type) where
  bc : BlockChain F
  blocks : List (Block F)

def ChainHistory.genesis (env : Env F) (g : Block F) : ChainHistory F := ⟨.newWithGenesis env g, [g]⟩

def ChainHistory.append (env : Env F) (s : ChainHistory F) (b : Block F) : ChainHistory F :=
  match s.bc.append env b with
  | (.ok _, bc') => ⟨bc', b :: s.blocks⟩
  | (_, bc') => ⟨bc', s.blocks⟩

theorem represents_genesis (env : Env F) (g : Block F) (hparent : g.header.parentHash = DUMMY_PARENT_HASH)
    (hnumber : g.header.number = 0) : Represents env (.newWithGenesis env g) [g] where
  ends := rfl
  nonempty := by simp
  stored h := by
    unfold BlockChain.newWithGenesis
    rw [Std.ExtTreeMap.getElem?_insert]
    by_cases hh : g.hash env = h <;> simp [hh]
  linked := ⟨hparent, trivial⟩
  numbered := ⟨hnumber, trivial⟩

/-- An accepted block names the end and has the next number; nothing else is accepted, and what is
not accepted changes nothing. -/
theorem append_cases (env : Env F) (bc : BlockChain F) (b last : Block F) (hends : bc.ends = [last]) :
    (bc.append env b = (.ok (), ⟨bc.blocksMap.insert (b.hash env) b, [b]⟩) ∧
      b.header.parentHash = last.hash env ∧ b.header.number = last.header.number + 1) ∨
    ((bc.append env b).1.isOk = false ∧ (bc.append env b).2 = bc) := by
  have hfirst : bc.firstEnd = .ok last := by simp [BlockChain.firstEnd, hends]
  unfold BlockChain.append
  rw [hfirst, hends]
  dsimp only
  by_cases hnew : b.header.number - last.header.number ≥ 2
  · rw [if_pos hnew]
    exact Or.inr ⟨rfl, rfl⟩
  · rw [if_neg hnew]
    by_cases hparent : last.hash env = b.header.parentHash
    · simp only [List.find?_cons, hparent, decide_true]
      by_cases hnumber : b.header.number = last.header.number + 1
      · exact Or.inl ⟨if_neg (not_not.mpr hnumber), trivial, hnumber⟩
      · rw [if_pos hnumber]
        exact Or.inr ⟨rfl, rfl⟩
    · simp only [List.find?_cons, hparent, decide_false, List.find?_nil]
      exact Or.inr ⟨rfl, trivial⟩

theorem append_represents (env : Env F) (s : ChainHistory F) (b : Block F)
    (h : Represents env s.bc s.blocks) :
    Represents env (s.append env b).bc (s.append env b).blocks := by
  obtain ⟨last, rest, hblocks⟩ := List.exists_cons_of_ne_nil h.nonempty
  have hends : s.bc.ends = [last] := by rw [h.ends, hblocks]; rfl
  unfold ChainHistory.append
  rcases append_cases env s.bc b last hends with ⟨heq, hparent, hnumber⟩ | ⟨hno, hsame⟩
  · rw [heq]
    refine ⟨rfl, by simp, ?_, ?_, ?_⟩
    · intro k
      rw [Std.ExtTreeMap.getElem?_insert, h.stored, List.find?_cons]
      by_cases hk : b.hash env = k <;> simp [hk]
    · rw [hblocks]
      exact ⟨hparent, hblocks ▸ h.linked⟩
    · have hlast := h.numbered
      rw [hblocks] at hlast ⊢
      refine ⟨?_, hlast⟩
      rw [hnumber, hlast.1, List.length_cons, Int64.ofNat_add]
      rfl
  · rcases happend : s.bc.append env b with ⟨r, bc'⟩
    rw [happend] at hno hsame
    cases r with
    | ok u => cases hno
    | err e => rw [← hsame] at h; exact h
    | panic why => rw [← hsame] at h; exact h

/-! ## Walking down -/

/-- Every block of the list can be found by its hash, and no hash is the dummy. -/
structure Walkable (env : Env F) (bc : BlockChain F) (blocks : List (Block F)) : Prop where
  found : ∀ b ∈ blocks, bc.blocksMap[b.hash env]? = some b
  real : ∀ b ∈ blocks, b.hash env ≠ DUMMY_PARENT_HASH

theorem Walkable.tail {env : Env F} {bc : BlockChain F} {b : Block F} {rest : List (Block F)}
    (h : Walkable env bc (b :: rest)) : Walkable env bc rest :=
  ⟨fun x hx => h.found x (List.mem_cons_of_mem b hx), fun x hx => h.real x (List.mem_cons_of_mem b hx)⟩

theorem find?_hash_of_mem (env : Env F) (blocks : List (Block F)) (hnodup : (blocks.map (Block.hash env)).Nodup)
    (b : Block F) (hb : b ∈ blocks) : blocks.find? (fun x => x.hash env = b.hash env) = some b := by
  induction blocks with
  | nil => simp at hb
  | cons x rest ih =>
    rw [List.map_cons, List.nodup_cons] at hnodup
    rw [List.find?_cons]
    rcases List.mem_cons.mp hb with rfl | hb
    · simp
    · have hne : x.hash env ≠ b.hash env := by
        intro heq
        rw [heq] at hnodup
        exact hnodup.1 (List.mem_map_of_mem hb)
      simp only [hne, decide_false]
      exact ih hnodup.2 hb

theorem walkable_of_represents (env : Env F) (bc : BlockChain F) (blocks : List (Block F))
    (h : Represents env bc blocks) (hnodup : (blocks.map (Block.hash env)).Nodup)
    (hreal : ∀ b ∈ blocks, b.hash env ≠ DUMMY_PARENT_HASH) : Walkable env bc blocks where
  found b hb := by rw [h.stored, find?_hash_of_mem env blocks hnodup b hb]
  real := hreal

section Loops

variable {env : Env F} {bc : BlockChain F} {blocks : List (Block F)} {fuel : Nat}

theorem lenLoop_spec (hwalk : Walkable env bc blocks) (hlinked : Linked env blocks)
    (hfuel : blocks.length < fuel) (ret : Int64) :
    bc.lenLoop fuel (tipHash env blocks) ret = some (.ok (ret + Int64.ofNat blocks.length)) := by
  induction blocks generalizing fuel ret with
  | nil =>
    obtain ⟨fuel, rfl⟩ : ∃ n, fuel = n + 1 := ⟨fuel - 1, by omega⟩
    simp [BlockChain.lenLoop, tipHash]
  | cons b rest ih =>
    obtain ⟨fuel, rfl⟩ : ∃ n, fuel = n + 1 := ⟨fuel - 1, by omega⟩
    have hfound := hwalk.found b List.mem_cons_self
    have hreal := hwalk.real b List.mem_cons_self
    have hrest := ih hwalk.tail hlinked.2 (Nat.lt_of_succ_lt_succ hfuel) (ret + 1)
    simp only [BlockChain.lenLoop, tipHash_cons, hreal, if_false, hfound, hlinked.1, hrest,
      List.length_cons, Int64.ofNat_add]
    rw [Int64.add_assoc, Int64.add_comm 1]
    rfl

/-- The loop of `GetBlock` finds the block with the number, which is the one with that many below. -/
theorem getBlockLoop_spec (hwalk : Walkable env bc blocks) (hlinked : Linked env blocks)
    (hnumbered : Numbered blocks) (hfuel : blocks.length < fuel) (hsmall : blocks.length ≤ 2 ^ 63)
    (k : Nat) (hk : k < blocks.length) :
    ∃ b, blocks.reverse[k]? = some b ∧
      bc.getBlockLoop (Int64.ofNat k) fuel (tipHash env blocks) = some (.ok b) := by
  induction blocks generalizing fuel with
  | nil => simp at hk
  | cons b rest ih =>
    obtain ⟨fuel, rfl⟩ : ∃ n, fuel = n + 1 := ⟨fuel - 1, by omega⟩
    have hfound := hwalk.found b List.mem_cons_self
    have hreal := hwalk.real b List.mem_cons_self
    rw [List.length_cons] at hk hsmall
    simp only [BlockChain.getBlockLoop, tipHash_cons, hreal, if_false, hfound, hnumbered.1, List.reverse_cons]
    by_cases heq : k = rest.length
    · refine ⟨b, ?_, by rw [heq, if_pos rfl]⟩
      rw [heq, List.getElem?_append_right (by simp), List.length_reverse]
      simp
    · have hlt : k < rest.length := by omega
      have hne : Int64.ofNat rest.length ≠ Int64.ofNat k := by
        intro h
        have := congrArg Int64.toInt h
        rw [Int64.toInt_ofNat_of_lt (by omega), Int64.toInt_ofNat_of_lt (by omega)] at this
        omega
      obtain ⟨b', hb', hloop⟩ := ih hwalk.tail hlinked.2 hnumbered.2 (Nat.lt_of_succ_lt_succ hfuel) (by omega) hlt
      refine ⟨b', ?_, by rw [if_neg hne, hlinked.1, hloop]⟩
      rw [List.getElem?_append_left (by simpa using hlt)]
      exact hb'

variable [Float64 F]

def txnDepth (env : Env F) (blocks : List (Block F)) (handle : String) : Option Nat :=
  blocks.findIdx? fun b => b.hasTxn env handle

theorem hasTxnLoop_spec (hwalk : Walkable env bc blocks) (hlinked : Linked env blocks)
    (hfuel : blocks.length < fuel) (handle : String) (above : Int64) :
    bc.hasTxnLoop env handle fuel (tipHash env blocks) above =
      some (.ok ((txnDepth env blocks handle).elim (false, -1) fun j => (true, above + 1 + Int64.ofNat j))) := by
  induction blocks generalizing fuel above with
  | nil =>
    obtain ⟨fuel, rfl⟩ : ∃ n, fuel = n + 1 := ⟨fuel - 1, by omega⟩
    simp [BlockChain.hasTxnLoop, tipHash, txnDepth]
  | cons b rest ih =>
    obtain ⟨fuel, rfl⟩ : ∃ n, fuel = n + 1 := ⟨fuel - 1, by omega⟩
    have hfound := hwalk.found b List.mem_cons_self
    have hreal := hwalk.real b List.mem_cons_self
    have hrest := ih hwalk.tail hlinked.2 (Nat.lt_of_succ_lt_succ hfuel) (above + 1)
    simp only [BlockChain.hasTxnLoop, tipHash_cons, hreal, if_false, hfound, hlinked.1, hrest, txnDepth,
      List.findIdx?_cons]
    by_cases hb : b.hasTxn env handle = true
    · simp [hb]
    · simp only [hb, Bool.false_eq_true, if_false]
      cases List.findIdx? (fun b => b.hasTxn env handle) rest with
      | none => rfl
      | some j =>
        simp only [Option.elim_some, Option.map_some, Int64.ofNat_add]
        rw [Int64.add_comm (Int64.ofNat j), ← Int64.add_assoc]
        rfl

end Loops

/-! ## The queries -/

structure Answers [Float64 F] (env : Env F) (bc : BlockChain F) (blocks : List (Block F)) (fuel : Nat) :
    Prop where
  len : bc.len fuel = some (.ok (Int64.ofNat blocks.length))
  -- A Go map has fewer than 2 ^ 63 entries.
  getBlock : blocks.length < 2 ^ 63 → ∀ k : Int64,
    (0 ≤ k.toInt → k.toInt < blocks.length →
      ∃ b, blocks.reverse[k.toInt.toNat]? = some b ∧ bc.getBlock fuel k = some (.ok b)) ∧
    (k.toInt < 0 ∨ blocks.length ≤ k.toInt → ∃ e, bc.getBlock fuel k = some (.err e))
  hasTxn : ∀ handle, bc.hasTxn env fuel handle =
    some (.ok ((txnDepth env blocks handle).elim (false, -1) fun j => (true, Int64.ofNat j)))

section Queries

variable {env : Env F} {bc : BlockChain F} {last : Block F} {rest : List (Block F)} {fuel : Nat}

theorem firstEnd_of_represents (h : Represents env bc (last :: rest)) : bc.firstEnd = .ok last := by
  unfold BlockChain.firstEnd
  rw [h.ends]
  rfl

theorem len_spec (h : Represents env bc (last :: rest)) (hwalk : Walkable env bc (last :: rest))
    (hfuel : (last :: rest).length ≤ fuel) :
    bc.len fuel = some (.ok (Int64.ofNat (last :: rest).length)) := by
  unfold BlockChain.len
  rw [firstEnd_of_represents h]
  dsimp only
  rw [h.linked.1, lenLoop_spec hwalk.tail h.linked.2 hfuel, List.length_cons, Int64.ofNat_add,
    Int64.add_comm]
  rfl

theorem getBlock_spec (h : Represents env bc (last :: rest)) (hwalk : Walkable env bc (last :: rest))
    (hfuel : (last :: rest).length ≤ fuel) (hsmall : (last :: rest).length < 2 ^ 63) (k : Int64) :
    (0 ≤ k.toInt → k.toInt < (last :: rest).length →
      ∃ b, (last :: rest).reverse[k.toInt.toNat]? = some b ∧ bc.getBlock fuel k = some (.ok b)) ∧
    (k.toInt < 0 ∨ (last :: rest).length ≤ k.toInt → ∃ e, bc.getBlock fuel k = some (.err e)) := by
  rw [List.length_cons] at hsmall
  have hnumber : last.header.number.toInt = rest.length := by
    rw [h.numbered.1, Int64.toInt_ofNat_of_lt (by omega)]
  have hneg : k < 0 ↔ k.toInt < 0 := by rw [Int64.lt_iff_toInt_lt]; rfl
  have hnew : last.header.number < k ↔ (rest.length : Int) < k.toInt := by
    rw [Int64.lt_iff_toInt_lt, hnumber]
  have hlast : last.header.number = k ↔ (rest.length : Int) = k.toInt := by
    rw [← Int64.toInt_inj, hnumber]
  unfold BlockChain.getBlock
  rw [firstEnd_of_represents h]
  simp only [hneg, hnew, hlast, List.length_cons]
  refine ⟨fun hk0 hk => ?_, fun hk => ?_⟩
  · rw [if_neg (by omega), if_neg (by omega)]
    by_cases heq : (rest.length : Int) = k.toInt
    · refine ⟨last, ?_, if_pos heq⟩
      rw [← heq, Int.toNat_natCast, List.reverse_cons, List.getElem?_append_right (by simp)]
      simp
    · rw [if_neg heq, h.linked.1]
      have hklt : k.toInt.toNat < rest.length := by omega
      obtain ⟨b, hb, hloop⟩ := getBlockLoop_spec hwalk.tail h.linked.2 h.numbered.2 hfuel (by omega) _ hklt
      refine ⟨b, ?_, ?_⟩
      · rw [List.reverse_cons, List.getElem?_append_left (by simpa using hklt)]
        exact hb
      · have hk : Int64.ofNat k.toInt.toNat = k := by
          rw [← Int64.toInt_inj, Int64.toInt_ofNat_of_lt (by omega), Int.toNat_of_nonneg hk0]
        rw [← hk]
        exact hloop
  · by_cases hk0 : k.toInt < 0
    · exact ⟨_, if_pos hk0⟩
    · rw [if_neg hk0, if_pos (by omega)]
      exact ⟨_, rfl⟩

theorem hasTxn_spec [Float64 F] (h : Represents env bc (last :: rest))
    (hwalk : Walkable env bc (last :: rest)) (hfuel : (last :: rest).length ≤ fuel) (handle : String) :
    bc.hasTxn env fuel handle =
      some (.ok ((txnDepth env (last :: rest) handle).elim (false, -1) fun j => (true, Int64.ofNat j))) := by
  unfold BlockChain.hasTxn
  rw [firstEnd_of_represents h, h.ends]
  by_cases hb : last.hasTxn env handle = true
  · simp [hb, txnDepth, List.findIdx?_cons]
  · have hloop := hasTxnLoop_spec hwalk.tail h.linked.2 hfuel handle 0
    simp only [List.take_succ_cons, List.take_zero, List.any_cons, List.any_nil, Bool.or_false, hb,
      if_false, h.linked.1, hloop, txnDepth, List.findIdx?_cons, Bool.false_eq_true]
    cases List.findIdx? (fun b => b.hasTxn env handle) rest with
    | none => rfl
    | some j =>
      simp only [Option.elim_some, Option.map_some, Int64.ofNat_add]
      rw [Int64.zero_add, Int64.add_comm]
      rfl

theorem answers_of_represents [Float64 F] (blocks : List (Block F)) (h : Represents env bc blocks)
    (hwalk : Walkable env bc blocks) (hfuel : blocks.length ≤ fuel) : Answers env bc blocks fuel := by
  obtain ⟨last, rest, rfl⟩ := List.exists_cons_of_ne_nil h.nonempty
  exact ⟨len_spec h hwalk hfuel, getBlock_spec h hwalk hfuel, hasTxn_spec h hwalk hfuel⟩

end Queries

theorem append_getLast? (env : Env F) (s : ChainHistory F) (b : Block F) (hne : s.blocks ≠ []) :
    (s.append env b).blocks.getLast? = s.blocks.getLast? := by
  unfold ChainHistory.append
  split
  · obtain ⟨last, rest, hblocks⟩ := List.exists_cons_of_ne_nil hne
    rw [hblocks]
    exact List.getLast?_cons_cons
  · rfl

theorem foldl_append_represents (env : Env F) (g : Block F) (bs : List (Block F)) (s : ChainHistory F)
    (h : Represents env s.bc s.blocks) (hg : s.blocks.getLast? = some g) :
    Represents env (bs.foldl (ChainHistory.append env) s).bc (bs.foldl (ChainHistory.append env) s).blocks ∧
      (bs.foldl (ChainHistory.append env) s).blocks.getLast? = some g := by
  induction bs generalizing s with
  | nil => exact ⟨h, hg⟩
  | cons b bs ih =>
    refine ih (s.append env b) (append_represents env s b h) ?_
    rw [append_getLast? env s b h.nonempty, hg]

theorem mem_blocks_iff (env : Env F) (bc : BlockChain F) (blocks : List (Block F))
    (h : Represents env bc blocks) (hwalk : Walkable env bc blocks) (k : String) (b : Block F) :
    bc.blocksMap[k]? = some b ↔ b ∈ blocks ∧ b.hash env = k := by
  constructor
  · intro hb
    rw [h.stored] at hb
    exact ⟨List.mem_of_find?_eq_some hb, by simpa using List.find?_some hb⟩
  · rintro ⟨hb, rfl⟩
    exact hwalk.found b hb

/-- After any appends, the blocks that were accepted are the chain: the end, the map, the links and
the numbers are theirs, and with enough rounds every query answers from them. -/
theorem chain_refines_list [Float64 F] (env : Env F) (g : Block F)
    (hparent : g.header.parentHash = DUMMY_PARENT_HASH) (hnumber : g.header.number = 0)
    (bs : List (Block F)) (s : ChainHistory F) (hs : s = bs.foldl (ChainHistory.append env) (.genesis env g))
    (hnodup : (s.blocks.map (Block.hash env)).Nodup)
    (hreal : ∀ b ∈ s.blocks, b.hash env ≠ DUMMY_PARENT_HASH) :
    (∃ last rest, s.blocks = last :: rest ∧ s.bc.ends = [last]) ∧ s.blocks.getLast? = some g ∧
      (∀ k b, s.bc.blocksMap[k]? = some b ↔ b ∈ s.blocks ∧ b.hash env = k) ∧
      Linked env s.blocks ∧ Numbered s.blocks ∧
      ∀ fuel, s.blocks.length ≤ fuel → Answers env s.bc s.blocks fuel := by
  obtain ⟨h, hg⟩ := foldl_append_represents env g bs (.genesis env g)
    (represents_genesis env g hparent hnumber) rfl
  rw [← hs] at h hg
  have hwalk := walkable_of_represents env s.bc s.blocks h hnodup hreal
  refine ⟨?_, hg, mem_blocks_iff env s.bc s.blocks h hwalk, h.linked, h.numbered, ?_⟩
  · obtain ⟨last, rest, hblocks⟩ := List.exists_cons_of_ne_nil h.nonempty
    exact ⟨last, rest, hblocks, by rw [h.ends, hblocks]; rfl⟩
  · intro fuel hfuel
    exact answers_of_represents s.blocks h hwalk hfuel

def sampleBlock (parentHash : String) (number : Int64) : Block Int where
  header := ⟨parentHash, 0, 0, GENESIS_BENEFICIARY, GENESIS_DIFFICULTY, number, "", "", ""⟩
  state := .new
  transactions := []
  receipts := .new

def sampleRoot : Block Int := sampleBlock DUMMY_PARENT_HASH 0
def sampleChild : Block Int := sampleBlock (sampleRoot.hash (blockEnv none)) 1

theorem sampleChild_chain :
    ([sampleChild, sampleChild].foldl (ChainHistory.append (blockEnv none))
      (.genesis (blockEnv none) sampleRoot)).bc.len 2 = some (.ok 2) := by
  have hlen : ([sampleChild, sampleChild].foldl (ChainHistory.append (blockEnv none))
      (.genesis (blockEnv none) sampleRoot)).blocks.length = 2 := by decide +kernel
  obtain ⟨-, -, -, -, -, hanswers⟩ := chain_refines_list (blockEnv none) sampleRoot rfl rfl
    [sampleChild, sampleChild] _ rfl (by decide +kernel) (by decide +kernel)
  have := (hanswers 2 (Nat.le_of_eq hlen)).len
  rw [hlen] at this
  exact this

end MarketPeer.Ledger
