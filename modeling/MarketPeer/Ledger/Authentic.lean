import MarketPeer.Ledger.Nonces

/-!
# Who signed, and what

`doVerifyTxn` ties the recovered key to the hex form of the sender, and a
signature to a digest. `executeTxn` goes by the eight bytes of the sender and by
the body. Nothing in between ties the two pairs together.
-/

namespace MarketPeer.Ledger

variable {F : Type} [Float64 F]

/-! ## The sender -/

theorem nonce_raised_only_at_sender (env : Env F) (t : SignedTransaction F) (w : World F)
    (k : String) (n n' : UInt64) (h : w.nonce? k = some n)
    (h' : (executeTxn env t w).2.nonce? k = some n') (hlt : n < n') : k = t.sender := by
  rcases executeTxn_nonce? env t w with ⟨-, hsame⟩ | ⟨-, -, hnonce⟩
  · rw [hsame, h, Option.some.injEq] at h'
    rw [h'] at hlt
    exact absurd hlt (UInt64.lt_irrefl n')
  · rw [hnonce] at h'
    split_ifs at h' with h1 h2
    · rw [Option.some.injEq] at h'
      rw [← h'] at hlt
      exact absurd hlt (by simp)
    · exact h2.symm
    · rw [h, Option.some.injEq] at h'
      rw [h'] at hlt
      exact absurd hlt (UInt64.lt_irrefl n')

theorem transfer_debits_sender (env : Env F) (t : SignedTransaction F) (w : World F) (ht : t.isTransfer)
    (hok : (executeTxn env t w).1.isOk = true) (hne : t.sender ≠ t.receiver) :
    (executeTxn env t w).2.view State.balance t.sender =
      (w.view State.balance t.sender).map (· - t.amount) := by
  have h := executeTxn_effect env t w
  generalize executeTxn env t w = r at h hok
  cases h with
  | refused r hr => simp_all
  | idle htrigger => simp [SignedTransaction.isTrigger, ht.1] at htrigger
  | stopped _ _ _ _ htrigger => simp [SignedTransaction.isTrigger, ht.1] at htrigger
  | ran _ _ htrigger => simp [SignedTransaction.isTrigger, ht.1] at htrigger
  | created _ htype => exact absurd htype ht.2.1
  | stored _ htype => exact absurd htype ht.2.2
  | moved s s' _ hs hs' =>
    rw [view_update, if_neg (fun h => hne h.symm), view_update, if_pos rfl]
    simp [World.view, hs, State.debit, State.addNonce]

/-- The account that an accepted transaction is charged to, by nonce and by payment, is the one
at the bytes of the sender. It is the account of the signer exactly when the two forms of the
sender agree. -/
theorem charged_to_signer_iff (env : Env F) (m : Miner) (hm : m.attacker = false)
    (t : SignedTransaction F) (w : World F) (publicKey : Bytes)
    (hrec : env.ecrecover t.digest t.signature = .ok publicKey)
    (hacc : doVerifyTxn env m t w = .ok ()) :
    (∀ k n n', w.nonce? k = some n → (executeTxn env t w).2.nonce? k = some n' → n < n' → k = t.sender) ∧
    (t.isTransfer → (executeTxn env t w).1.isOk = true → t.sender ≠ t.receiver →
      (executeTxn env t w).2.view State.balance t.sender =
        (w.view State.balance t.sender).map (· - t.amount)) ∧
    (t.sender = (Address.newFromPublicKey env publicKey).string ↔
      t.txn.fromAddr.hex = hexEncode t.txn.fromAddr.addr.toList) := by
  refine ⟨nonce_raised_only_at_sender env t w, transfer_debits_sender env t w, ?_⟩
  obtain ⟨publicKey', s, hv⟩ := (doVerifyTxn_eq_ok env m hm t w).mp hacc
  have hkey : publicKey' = publicKey := by
    have := hv.recovered
    rw [hrec, Outcome.ok.injEq] at this
    exact this.symm
  have hhex := hv.hex
  rw [hkey] at hhex
  rw [Address.newFromPublicKey_string, hhex, SignedTransaction.sender, Address.string]
  exact eq_comm

theorem payment_charged_to_signer :
    payment.sender = (Address.newFromPublicKey (sampleEnv none) (4 :: List.replicate 64 1)).string :=
  (charged_to_signer_iff (sampleEnv none) sampleMiner rfl payment paymentWorld _ rfl
    (by rfl)).2.2.mpr (by decide)

/-- The key of 1 signs for the bytes of 2 under its own hex form. -/
def forgedPayment : SignedTransaction Int :=
  sampleSigned 1 (sampleTxn 0 ⟨(sampleAddress 2).addr, (sampleAddress 1).hex⟩ (sampleAddress 1) EXEC_TXN 3)

/-- The forged payment is accepted, recovers to 1, and takes the money and the nonce of 2. -/
theorem forgedPayment_charges_other :
    (doVerifyTxn (sampleEnv none) sampleMiner forgedPayment paymentWorld).isOk = true ∧
    Address.newFromPublicKey (sampleEnv none) (4 :: List.replicate 64 1) = sampleAddress 1 ∧
    forgedPayment.sender = (sampleAddress 2).string ∧
    forgedPayment.sender ≠ (sampleAddress 1).string ∧
    (executeTxn (sampleEnv none) forgedPayment paymentWorld).1.isOk = true ∧
    (executeTxn (sampleEnv none) forgedPayment paymentWorld).2.view State.balance
      (sampleAddress 2).string = some 2 ∧
    (executeTxn (sampleEnv none) forgedPayment paymentWorld).2.nonce? (sampleAddress 2).string = some 1 := by
  decide

/-! ## The body -/

def SignedBy (env : Env F) (w : World F) (digest signature : Bytes) : Prop :=
  ∃ publicKey s, env.ecrecover digest signature = .ok publicKey ∧ signature ≠ [] ∧
    env.verifySignature publicKey digest signature.dropLast = true ∧
    w.account? (Address.newFromPublicKey env publicKey).hex = some s

omit [Float64 F] in
theorem signedBy_of_verified (env : Env F) (t : SignedTransaction F) (w : World F) (publicKey : Bytes)
    (s : State F) (h : Verified env t w publicKey s) : SignedBy env w t.digest t.signature :=
  ⟨publicKey, s, h.recovered, h.nonempty, h.valid, by rw [h.hex]; exact h.account⟩

/-- A body that passes for the owner of the account `s`, with a free last field. -/
def passingBody (hex : String) (s : State F) (last : String) : Transaction F :=
  { nonce := s.nonce.toInt64
    fromAddr := ⟨Vector.replicate 8 0, hex⟩
    toAddr := ⟨Vector.replicate 8 0, ""⟩
    type := EXEC_TXN
    code := ""
    value := s.balance.toInt64
    storeK := ""
    storeV := .null
    v := ""
    r := ""
    s := last }

omit [Float64 F] in
theorem passingBody_verified (env : Env F) (w : World F) (digest signature publicKey : Bytes)
    (s : State F) (last : String) (hrec : env.ecrecover digest signature = .ok publicKey)
    (hne : signature ≠ []) (hvalid : env.verifySignature publicKey digest signature.dropLast = true)
    (hs : w.account? (Address.newFromPublicKey env publicKey).hex = some s) :
    Verified env
      ⟨passingBody (Address.newFromPublicKey env publicKey).hex s last, digest, signature⟩ w publicKey s where
  recovered := hrec
  nonempty := hne
  valid := hvalid
  hex := rfl
  account := hs
  nonce := rfl
  covered := by simp [passingBody]

theorem passingBody_json (hex : String) (s : State F) :
    (passingBody hex s "").json ≠ (passingBody hex s "a").json := by
  intro h
  simp only [Transaction.json, passingBody, Value.json, Option.pure_def, Option.bind_eq_bind,
    Option.bind_some, Option.some.injEq] at h
  have := congrArg String.length h
  simp [jsonObject, commaSep, jsonString, jsonChar] at this
  exact absurd this (by decide)

/-- The digest and the signature tie down neither the body nor its hash: two bodies pass with them,
and one whose hash is not the digest, as soon as the signature recovers to an account. -/
theorem body_tied_iff (env : Env F) (m : Miner) (hm : m.attacker = false) (w : World F)
    (digest signature : Bytes)
    (hsha : ∀ a b : String, env.sha256 (stringBytes a) = env.sha256 (stringBytes b) → a = b) :
    ((∀ t1 t2 : SignedTransaction F, t1.digest = digest → t2.digest = digest →
        t1.signature = signature → t2.signature = signature →
        doVerifyTxn env m t1 w = .ok () → doVerifyTxn env m t2 w = .ok () → t1.txn = t2.txn) ↔
      ¬ SignedBy env w digest signature) ∧
    ((∀ t : SignedTransaction F, t.digest = digest → t.signature = signature →
        doVerifyTxn env m t w = .ok () → t.digest = t.txn.hash env) ↔
      ¬ SignedBy env w digest signature) := by
  have hnone : ∀ t : SignedTransaction F, t.digest = digest → t.signature = signature →
      doVerifyTxn env m t w = .ok () → SignedBy env w digest signature := by
    rintro t rfl rfl h
    obtain ⟨publicKey, s, hv⟩ := (doVerifyTxn_eq_ok env m hm t w).mp h
    exact signedBy_of_verified env t w publicKey s hv
  have htwo : SignedBy env w digest signature → ∃ body : String → Transaction F,
      (∀ last, doVerifyTxn env m ⟨body last, digest, signature⟩ w = .ok ()) ∧
        (body "").json ≠ (body "a").json ∧ ∀ last, ((body last).json).isSome := by
    rintro ⟨publicKey, s, hrec, hne, hvalid, hs⟩
    refine ⟨passingBody (Address.newFromPublicKey env publicKey).hex s, ?_, passingBody_json _ s, ?_⟩
    · intro last
      exact (doVerifyTxn_eq_ok env m hm _ w).mpr
        ⟨publicKey, s, passingBody_verified env w digest signature publicKey s last hrec hne hvalid hs⟩
    · intro last
      rfl
  refine ⟨⟨?_, ?_⟩, ⟨?_, ?_⟩⟩
  · intro h hsigned
    obtain ⟨body, hok, hdiffer, -⟩ := htwo hsigned
    have := h ⟨body "", digest, signature⟩ ⟨body "a", digest, signature⟩ rfl rfl rfl rfl (hok _) (hok _)
    exact hdiffer (congrArg Transaction.json this)
  · intro h t1 _ hd1 _ hs1 _ h1 _
    exact absurd (hnone t1 hd1 hs1 h1) h
  · -- Both hashes would be the digest, so both bodies would have one encoding.
    intro h hsigned
    obtain ⟨body, hok, hdiffer, hjson⟩ := htwo hsigned
    have h1 := h ⟨body "", digest, signature⟩ rfl rfl (hok _)
    have h2 := h ⟨body "a", digest, signature⟩ rfl rfl (hok _)
    obtain ⟨j1, hj1⟩ := Option.isSome_iff_exists.mp (hjson "")
    obtain ⟨j2, hj2⟩ := Option.isSome_iff_exists.mp (hjson "a")
    simp only [Transaction.hash, hj1, hj2, hashJson, Option.elim_some] at h1 h2
    apply hdiffer
    rw [hj1, hj2, hsha j1 j2 (h1.symm.trans h2)]
  · intro h t hd hs ht
    exact absurd (hnone t hd hs ht) h

/-- A short signature recovers to nobody, so it ties its body down by letting none pass. -/
theorem short_signature_tied :
    ¬ SignedBy (sampleEnv none) paymentWorld [] [1] ∧
    ∀ t : SignedTransaction Int, t.digest = [] → t.signature = [1] →
      doVerifyTxn (sampleEnv none) sampleMiner t paymentWorld = .ok () → t.digest = t.txn.hash (sampleEnv none) := by
  have hsha : ∀ a b : String, (sampleEnv none).sha256 (stringBytes a) = (sampleEnv none).sha256 (stringBytes b) →
      a = b :=
    fun a b h => stringBytes_injective (sampleEnv_sha256_injective none _ _ h)
  have hnobody : ¬ SignedBy (sampleEnv none) paymentWorld [] [1] := by
    rintro ⟨publicKey, s, hrec, -⟩
    cases hrec
  exact ⟨hnobody, (body_tied_iff (sampleEnv none) sampleMiner rfl paymentWorld [] [1] hsha).2.mpr hnobody⟩

def redirectedPayment : SignedTransaction Int :=
  { payment with txn := { payment.txn with toAddr := sampleAddress 1, value := 7 } }

theorem redirectedPayment_accepted :
    (doVerifyTxn (sampleEnv none) sampleMiner payment paymentWorld).isOk = true ∧
    (doVerifyTxn (sampleEnv none) sampleMiner redirectedPayment paymentWorld).isOk = true ∧
    redirectedPayment.digest = payment.digest ∧ redirectedPayment.signature = payment.signature ∧
    redirectedPayment.txn ≠ payment.txn ∧
    redirectedPayment.digest ≠ redirectedPayment.txn.hash (sampleEnv none) := by
  refine ⟨by decide, by decide, rfl, rfl, ?_, by decide⟩
  intro h
  exact absurd (congrArg Transaction.value h) (by decide)

end MarketPeer.Ledger
