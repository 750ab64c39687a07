import MarketPeer.Ledger.Block
import MarketPeer.Ledger.Execute
import Mathlib.Tactic.Common
import Std.Data.String.ToInt

/-!
# What the hash of a block commits to

`BlockHeader.hash` writes its fields in a row, the numbers in decimal and of any
width, and leaves the difficulty out.
-/

namespace MarketPeer.Ledger

variable {F : Type}

/-! ## Hex strings -/

def IsHexDigit (c : Char) : Prop := ('0' ≤ c ∧ c ≤ '9') ∨ ('a' ≤ c ∧ c ≤ 'f') ∨ ('A' ≤ c ∧ c ≤ 'F')

instance (c : Char) : Decidable (IsHexDigit c) := inferInstanceAs (Decidable (_ ∨ _))

/-- 64 hex digits, as `Hash` returns them. -/
def IsHexHash (s : String) : Prop := s.length = 64 ∧ ∀ c ∈ s.toList, IsHexDigit c

instance (s : String) : Decidable (IsHexHash s) := inferInstanceAs (Decidable (_ ∧ _))

theorem utf8Size_of_isHexDigit (c : Char) (h : IsHexDigit c) : c.utf8Size = 1 := by
  rw [Char.utf8Size_eq_one_iff]
  rcases h with ⟨-, h⟩ | ⟨-, h⟩ | ⟨-, h⟩
  · exact UInt32.le_trans h (by decide)
  · exact UInt32.le_trans h (by decide)
  · exact UInt32.le_trans h (by decide)

theorem length_stringBytes_of_isHexHash (s : String) (h : IsHexHash s) : (stringBytes s).length = 64 := by
  have hone : ∀ cs : List Char, (∀ c ∈ cs, IsHexDigit c) →
      (cs.flatMap String.utf8EncodeChar).length = cs.length := by
    intro cs hcs
    induction cs with
    | nil => rfl
    | cons c cs ih =>
      have hc := utf8Size_of_isHexDigit c (hcs c List.mem_cons_self)
      rw [List.flatMap_cons, List.length_append, String.length_utf8EncodeChar, hc,
        ih fun d hd => hcs d (List.mem_cons_of_mem c hd), List.length_cons, Nat.add_comm]
  rw [stringBytes_eq, hone _ h.2, String.length_toList, h.1]

/-! ## The text of a header -/

structure BlockHeader.HexHashes (h : BlockHeader) : Prop where
  parentHash : IsHexHash h.parentHash
  stateHash : IsHexHash h.stateHash
  transactionsHash : IsHexHash h.transactionsHash
  receiptsHash : IsHexHash h.receiptsHash

/-- The numbers and the address between the hashes, as `hash` writes them. -/
def BlockHeader.middle (h : BlockHeader) : String :=
  toString h.nonce.toNat ++ toString h.timestamp.toInt ++ h.beneficiary.string ++ toString h.number.toInt

/-- All that `hash` writes. -/
def BlockHeader.written (h : BlockHeader) : String :=
  h.parentHash ++ (h.middle ++ (h.stateHash ++ (h.transactionsHash ++ h.receiptsHash)))

theorem hash_eq_written (env : Env F) (h : BlockHeader) : h.hash env = env.sha256 (stringBytes h.written) := by
  unfold BlockHeader.hash BlockHeader.written BlockHeader.middle
  simp only [stringBytes_append, List.append_assoc]

/-- The same length on one side leaves the other side equal. -/
theorem append_inj_left (s t s' t' : String) (h : s ++ t = s' ++ t') (hlen : s.length = s'.length) :
    s = s' ∧ t = t' := by
  have hlist : s.toList ++ t.toList = s'.toList ++ t'.toList := by
    rw [← String.toList_append, ← String.toList_append, h]
  obtain ⟨hs, ht⟩ := List.append_inj hlist (by rw [String.length_toList, String.length_toList, hlen])
  exact ⟨String.toList_inj.mp hs, String.toList_inj.mp ht⟩

theorem append_inj_right (s t s' t' : String) (h : s ++ t = s' ++ t') (hlen : t.length = t'.length) :
    s = s' ∧ t = t' := by
  have hsum : (s ++ t).length = (s' ++ t').length := by rw [h]
  rw [String.length_append, String.length_append, hlen] at hsum
  exact append_inj_left s t s' t' h (Nat.add_right_cancel hsum)

section Written

variable {h h' : BlockHeader} (hok : h.HexHashes) (hok' : h'.HexHashes) (hw : h.written = h'.written)
include hok hok' hw

/-- The four hashes have a fixed place in the text, at its two ends. -/
theorem written_hashes : h.parentHash = h'.parentHash ∧ h.middle = h'.middle ∧ h.stateHash = h'.stateHash ∧
    h.transactionsHash = h'.transactionsHash ∧ h.receiptsHash = h'.receiptsHash := by
  unfold BlockHeader.written at hw
  obtain ⟨hparent, hw⟩ := append_inj_left _ _ _ _ hw (by rw [hok.parentHash.1, hok'.parentHash.1])
  obtain ⟨hmiddle, hw⟩ := append_inj_right _ _ _ _ hw (by
    simp only [String.length_append, hok.stateHash.1, hok'.stateHash.1, hok.transactionsHash.1,
      hok'.transactionsHash.1, hok.receiptsHash.1, hok'.receiptsHash.1])
  obtain ⟨hstate, hw⟩ := append_inj_left _ _ _ _ hw (by rw [hok.stateHash.1, hok'.stateHash.1])
  obtain ⟨htxns, hreceipts⟩ := append_inj_left _ _ _ _ hw (by rw [hok.transactionsHash.1, hok'.transactionsHash.1])
  exact ⟨hparent, hmiddle, hstate, htxns, hreceipts⟩

end Written

/-- Two numbers of the same widths can be read back, because the address has 16 digits. -/
theorem middle_inj {h h' : BlockHeader} (hmiddle : h.middle = h'.middle)
    (hnonce : (toString h.nonce.toNat).length = (toString h'.nonce.toNat).length)
    (htimestamp : (toString h.timestamp.toInt).length = (toString h'.timestamp.toInt).length) :
    h.nonce = h'.nonce ∧ h.timestamp = h'.timestamp ∧ h.beneficiary.addr = h'.beneficiary.addr ∧
      h.number = h'.number := by
  have haddress : h.beneficiary.string.length = h'.beneficiary.string.length := by
    unfold Address.string
    rw [length_hexEncode, length_hexEncode, Vector.length_toList, Vector.length_toList]
  unfold BlockHeader.middle at hmiddle
  obtain ⟨hrest, hnumber⟩ := append_inj_left _ _ _ _ hmiddle (by
    simp only [String.length_append, hnonce, htimestamp, haddress])
  obtain ⟨hrest, haddr⟩ := append_inj_right _ _ _ _ hrest haddress
  obtain ⟨hn, ht⟩ := append_inj_left _ _ _ _ hrest hnonce
  refine ⟨UInt32.toNat_inj.mp (Nat.repr_injective hn), Int64.toInt_inj.mp (Int.repr_injective ht), ?_,
    Int64.toInt_inj.mp (Int.repr_injective hnumber)⟩
  exact Vector.toList_inj.mp (hexEncode_injective haddr)

/-! ## Blocks -/

section Hash

variable {env : Env F} (hsha : Function.Injective env.sha256) {b b' : Block F}
  (hok : b.header.HexHashes) (hok' : b'.header.HexHashes)
include hsha hok hok'

/-- Two blocks have one hash if and only if their headers write the same text. -/
theorem hash_eq_iff_written : b.hash env = b'.hash env ↔ b.header.written = b'.header.written := by
  constructor
  · intro h
    have hbytes := hsha (hexEncode_injective h)
    simp only [List.append_assoc] at hbytes
    obtain ⟨hheader, -⟩ := List.append_inj' hbytes (by
      simp only [List.length_append, length_stringBytes_of_isHexHash _ hok.stateHash,
        length_stringBytes_of_isHexHash _ hok'.stateHash, length_stringBytes_of_isHexHash _ hok.transactionsHash,
        length_stringBytes_of_isHexHash _ hok'.transactionsHash, length_stringBytes_of_isHexHash _ hok.receiptsHash,
        length_stringBytes_of_isHexHash _ hok'.receiptsHash])
    rw [hash_eq_written, hash_eq_written] at hheader
    exact stringBytes_injective (hsha hheader)
  · intro h
    obtain ⟨-, -, hstate, htxns, hreceipts⟩ := written_hashes hok hok' h
    unfold Block.hash Block.hashBytes
    rw [hash_eq_written, hash_eq_written, h, hstate, htxns, hreceipts]

end Hash

/-- The fields of the header that are not hashes of the body. -/
structure SameHeader (h h' : BlockHeader) : Prop where
  parentHash : h.parentHash = h'.parentHash
  nonce : h.nonce = h'.nonce
  timestamp : h.timestamp = h'.timestamp
  beneficiary : h.beneficiary.addr = h'.beneficiary.addr
  difficulty : h.difficulty = h'.difficulty
  number : h.number = h'.number

/-- The difficulty is not written, and without separators a digit of one number can be one of the next. -/
def ReadsBack (h h' : BlockHeader) : Prop :=
  h.difficulty = h'.difficulty ∧ (toString h.nonce.toNat).length = (toString h'.nonce.toNat).length ∧
    (toString h.timestamp.toInt).length = (toString h'.timestamp.toInt).length

/-- Equal hashes give equal headers, unless the two headers write the same text with different
difficulties or with the digits of the numbers divided in another way. -/
theorem hash_commits_iff (env : Env F) (hsha : Function.Injective env.sha256) (b b' : Block F)
    (hok : b.header.HexHashes) (hok' : b'.header.HexHashes) :
    (b.hash env = b'.hash env → SameHeader b.header b'.header) ↔
      (b.header.written ≠ b'.header.written ∨ ReadsBack b.header b'.header) := by
  rw [hash_eq_iff_written hsha hok hok']
  constructor
  · intro hcommits
    by_cases hw : b.header.written = b'.header.written
    · have hsame := hcommits hw
      refine Or.inr ⟨hsame.difficulty, ?_, ?_⟩
      · rw [hsame.nonce]
      · rw [hsame.timestamp]
    · exact Or.inl hw
  · rintro hcond hw
    obtain ⟨hdifficulty, hnonce, htimestamp⟩ := hcond.resolve_left (fun hne => hne hw)
    obtain ⟨hparent, hmiddle, -⟩ := written_hashes hok hok' hw
    obtain ⟨hn, ht, ha, hnumber⟩ := middle_inj hmiddle hnonce htimestamp
    exact ⟨hparent, hn, ht, ha, hdifficulty, hnumber⟩

def sampleHeader (nonce : UInt32) (timestamp difficulty : Int64) : BlockHeader where
  parentHash := DUMMY_PARENT_HASH
  nonce
  timestamp
  beneficiary := GENESIS_BENEFICIARY
  difficulty
  number := 1
  stateHash := DUMMY_PARENT_HASH
  transactionsHash := DUMMY_PARENT_HASH
  receiptsHash := DUMMY_PARENT_HASH

theorem isHexHash_DUMMY_PARENT_HASH : IsHexHash DUMMY_PARENT_HASH := by
  unfold DUMMY_PARENT_HASH
  constructor
  · rw [String.length_ofList, List.length_replicate]
  · intro c hc
    rw [String.toList_ofList] at hc
    obtain rfl := List.eq_of_mem_replicate hc
    decide

theorem sampleHeader_hexHashes (nonce : UInt32) (timestamp difficulty : Int64) :
    (sampleHeader nonce timestamp difficulty).HexHashes :=
  ⟨isHexHash_DUMMY_PARENT_HASH, isHexHash_DUMMY_PARENT_HASH, isHexHash_DUMMY_PARENT_HASH,
    isHexHash_DUMMY_PARENT_HASH⟩

def sampleHash (h : BlockHeader) : String := Block.hash (sampleEnv none) ⟨h, .new, [], .new⟩

/-- Another time of the same width is another hash. -/
theorem sampleHeader_committed : sampleHash (sampleHeader 12 34 2) ≠ sampleHash (sampleHeader 12 56 2) := by
  intro hsame
  have hheader := (hash_commits_iff (sampleEnv none) (sampleEnv_sha256_injective none)
    ⟨sampleHeader 12 34 2, .new, [], .new⟩ ⟨sampleHeader 12 56 2, .new, [], .new⟩
    (sampleHeader_hexHashes 12 34 2) (sampleHeader_hexHashes 12 56 2)).mpr
    (Or.inr ⟨rfl, rfl, by decide⟩) hsame
  exact absurd hheader.timestamp (by decide)

/-- A change of the difficulty, or of where the nonce ends and the time begins, leaves the hash as it is. -/
theorem sampleHeader_not_committed :
    Function.Injective (sampleEnv none).sha256 ∧ (∀ nonce timestamp difficulty,
      (sampleHeader nonce timestamp difficulty).HexHashes) ∧
    sampleHash (sampleHeader 12 34 2) = sampleHash (sampleHeader 12 34 0) ∧
    ¬SameHeader (sampleHeader 12 34 2) (sampleHeader 12 34 0) ∧
    sampleHash (sampleHeader 12 34 2) = sampleHash (sampleHeader 1 234 2) ∧
    ¬SameHeader (sampleHeader 12 34 2) (sampleHeader 1 234 2) := by
  have hsha : Function.Injective (sampleEnv none).sha256 := sampleEnv_sha256_injective none
  refine ⟨hsha, sampleHeader_hexHashes, rfl, ?_, ?_, ?_⟩
  · intro h
    exact absurd h.difficulty (by decide)
  · exact (hash_eq_iff_written hsha (sampleHeader_hexHashes 12 34 2) (sampleHeader_hexHashes 1 234 2)).mpr
      (by decide +kernel)
  · intro h
    exact absurd h.nonce (by decide)

end MarketPeer.Ledger
