import MarketPeer.Ledger.StateHash
import MarketPeer.Lib.Counting

/-!
# The wallet asks its neighbors

`SyncAccount` counts the replies by the hash of the state that they carry. Which reply it
hears first and which count it looks at first are not in its hands.
-/

namespace MarketPeer.Ledger

variable {F : Type}

/-! ## SyncAccount -/

/-- The neighbors are asked, and the wallet itself. -/
def waitfor (neighbors : Nat) : Nat := min 3 (neighbors + 1)

/-- `int(math.Ceil(float64(waitfor) / 2))` -/
def majority (waitfor : Nat) : Nat := (waitfor + 1) / 2

/-- The two maps of `SyncAccount`, by state hash. -/
structure Tally (F : Type) where
  states : Std.ExtTreeMap String (State F)
  stateCnts : Std.ExtTreeMap String Nat

def Tally.empty : Tally F := ⟨∅, ∅⟩

/-- One reply is counted. -/
def Tally.receive (t : Tally F) (newStateHash : String) (newState : State F) : Tally F where
  states := t.states.insert newStateHash newState
  stateCnts :=
    match t.stateCnts[newStateHash]? with
    | some n => t.stateCnts.insert newStateHash (n + 1)
    | none => t.stateCnts.insert newStateHash 1

/-- The loop over `stateCnts`, with its keys in the order of `keys`. A missing state is a nil pointer. -/
def Tally.pick (t : Tally F) (majority : Nat) (keys : List String) : Res F (Option (State F)) :=
  match keys.find? fun k => decide (majority ≤ t.stateCnts.getD k 0) with
  | some k => .ok t.states[k]?
  | none => .err (.errorf "sync account fail, received states: %v" [])

/-- The state that the account is set to, given the replies that are consumed. `order` is the order in
which a map with these keys is iterated. -/
def syncAccount [Float64 F] (env : Env F) (neighbors : Nat) (order : List String → List String)
    (replies : List (State F)) : Res F (Option (State F)) := do
  let t ← replies.foldlM (fun t s => do return t.receive (← s.hash env) s) Tally.empty
  t.pick (majority (waitfor neighbors)) (order t.stateCnts.keys)

/-! ## What is counted -/

section Count

variable {hash : State F → String} {t : Tally F} {replies : List (State F)} {s : State F} {k : String}

/-- The tally of these replies. -/
structure Tally.Holds (hash : State F → String) (t : Tally F) (replies : List (State F)) : Prop where
  last : ∀ k, t.states[k]? = (replies.filter (hash · = k)).getLast?
  count : ∀ k, t.stateCnts.getD k 0 = replies.countP (hash · = k)
  keys : ∀ k, k ∈ t.stateCnts ↔ ∃ s ∈ replies, hash s = k

theorem Tally.holds_empty : (Tally.empty : Tally F).Holds hash [] where
  last k := by simp [Tally.empty]
  count k := by simp [Tally.empty]
  keys k := by simp [Tally.empty]

theorem Tally.receive_stateCnts (t : Tally F) (h : String) (s : State F) :
    (t.receive h s).stateCnts = t.stateCnts.insert h (t.stateCnts.getD h 0 + 1) := by
  unfold Tally.receive
  rw [Std.ExtTreeMap.getD_eq_getD_getElem?]
  split
  · rename_i n hn
    rw [hn, Option.getD_some]
  · rename_i hn
    rw [hn, Option.getD_none]

theorem Tally.Holds.receive (ht : t.Holds hash replies) (s : State F) :
    (t.receive (hash s) s).Holds hash (replies ++ [s]) where
  last := by
    intro k
    rw [List.filter_append, Tally.receive, Std.ExtTreeMap.getElem?_insert, ht.last k]
    by_cases hk : hash s = k <;> simp [hk]
  count := by
    intro k
    rw [Tally.receive_stateCnts, Std.ExtTreeMap.getD_insert, List.countP_append, ht.count, ht.count]
    by_cases hk : hash s = k <;> simp [hk]
  keys := by
    intro k
    rw [Tally.receive_stateCnts, Std.ExtTreeMap.mem_insert, ht.keys]
    simp [or_comm]

variable [Float64 F] {env : Env F}

theorem foldlM_receive (hhash : ∀ s ∈ replies, s.hash env = .ok (hash s)) {before : List (State F)}
    (ht : t.Holds hash before) :
    ∃ t', replies.foldlM (fun t s => do return t.receive (← s.hash env) s) t = .ok t' ∧
      t'.Holds hash (before ++ replies) := by
  induction replies generalizing t before with
  | nil => exact ⟨t, rfl, by rwa [List.append_nil]⟩
  | cons s replies ih =>
    rw [List.forall_mem_cons] at hhash
    obtain ⟨t', hfold, hholds⟩ := ih hhash.2 (ht.receive s)
    refine ⟨t', ?_, ?_⟩
    · rw [List.foldlM_cons, hhash.1, Outcome.ok_bind, Outcome.pure_eq, Outcome.ok_bind]
      exact hfold
    · rwa [List.append_assoc] at hholds

theorem syncAccount_eq (hhash : ∀ s ∈ replies, s.hash env = .ok (hash s)) (neighbors : Nat)
    (order : List String → List String) : ∃ t : Tally F, t.Holds hash replies ∧
      syncAccount env neighbors order replies = t.pick (majority (waitfor neighbors)) (order t.stateCnts.keys) := by
  obtain ⟨t, hfold, hholds⟩ := foldlM_receive hhash Tally.holds_empty
  rw [List.nil_append] at hholds
  refine ⟨t, hholds, ?_⟩
  rw [syncAccount, hfold, Outcome.ok_bind]

end Count

/-! ## What is picked -/

section Pick

variable {hash : State F → String} {t : Tally F} {replies : List (State F)} {s : State F} {keys : List String}
  {enough : Nat}

/-- The replies with the hash of `s`. -/
def alike (hash : State F → String) (replies : List (State F)) (s : State F) : Nat :=
  replies.countP (hash · = hash s)

theorem pick_cases (ht : t.Holds hash replies) (hkeys : keys.Perm t.stateCnts.keys) (enough : Nat) :
    (∃ s ∈ replies, t.pick enough keys = .ok (some s) ∧ enough ≤ alike hash replies s) ∨
      t.pick enough keys = .err (.errorf "sync account fail, received states: %v" []) ∧
        ∀ s ∈ replies, alike hash replies s < enough := by
  unfold Tally.pick
  split
  · rename_i k hfind
    have hcount := List.find?_some hfind
    have hmem := hkeys.mem_iff.mp (List.mem_of_find?_eq_some hfind)
    obtain ⟨s, hs, rfl⟩ := (ht.keys k).mp (Std.ExtTreeMap.mem_keys.mp hmem)
    have hne : replies.filter (hash · = hash s) ≠ [] := List.ne_nil_of_mem (List.mem_filter.mpr ⟨hs, by simp⟩)
    have hlast := List.getLast_mem hne
    rw [List.mem_filter, decide_eq_true_eq] at hlast
    refine Or.inl ⟨_, hlast.1, ?_, ?_⟩
    · rw [ht.last, List.getLast?_eq_getLast_of_ne_nil hne]
    · rw [decide_eq_true_eq, ht.count] at hcount
      rw [alike, hlast.2]
      exact hcount
  · rename_i hfind
    refine Or.inr ⟨rfl, fun s hs => ?_⟩
    have hmem := hkeys.mem_iff.mpr (Std.ExtTreeMap.mem_keys.mpr ((ht.keys _).mpr ⟨s, hs, rfl⟩))
    have hcount := List.find?_eq_none.mp hfind _ hmem
    rw [decide_eq_true_eq, ht.count, Nat.not_le] at hcount
    exact hcount

/-- The iteration begins with `k`. -/
def startingWith (k : String) (keys : List String) : List String := if k ∈ keys then k :: keys.erase k else keys

theorem startingWith_perm (k : String) (keys : List String) : (startingWith k keys).Perm keys := by
  unfold startingWith
  split
  · rename_i hk
    exact (List.perm_cons_erase hk).symm
  · exact List.Perm.refl keys

/-- The last reply with a hash that has enough of them can be the one that is picked. -/
theorem pick_last {before : List (State F)} (ht : t.Holds hash (before ++ [s]))
    (henough : enough ≤ alike hash (before ++ [s]) s) :
    t.pick enough (startingWith (hash s) t.stateCnts.keys) = .ok (some s) := by
  have hmem : hash s ∈ t.stateCnts.keys := Std.ExtTreeMap.mem_keys.mpr ((ht.keys _).mpr ⟨s, by simp, rfl⟩)
  have hcount : enough ≤ t.stateCnts.getD (hash s) 0 := by
    rw [ht.count]
    exact henough
  rw [Tally.pick, startingWith, if_pos hmem, List.find?_cons_of_pos (by simpa using hcount)]
  simp only [ht.last, List.filter_append, List.filter_singleton, decide_true, List.getLast?_append]
  rfl

end Pick

/-! ## Majorities -/

variable [Float64 F]

/-- In whatever order the replies come and the maps are iterated, the account is set to a state that more
than half of the replies carry, and always to the same one. -/
structure SyncsByMajority (env : Env F) (neighbors : Nat) (replies : List (State F)) : Prop where
  agreed : ∀ order replies', (∀ l, (order l).Perm l) → replies'.Perm replies →
    ∀ s?, syncAccount env neighbors order replies' = .ok s? → ∃ s, s? = some s ∧ Majority replies' s
  outcome : ∀ order order' replies₁ replies₂, (∀ l, (order l).Perm l) → (∀ l, (order' l).Perm l) →
    replies₁.Perm replies → replies₂.Perm replies →
      syncAccount env neighbors order replies₁ = syncAccount env neighbors order' replies₂

/-- One hash stands for one of the states that the replies carry. -/
def HashTells (env : Env F) (replies : List (State F)) : Prop :=
  ∀ s ∈ replies, ∀ t ∈ replies, s.hash env = t.hash env → s = t

theorem state_hash_panics {env : Env F} {s : State F} (h : ¬ (s.hash env).isOk) :
    s.hash env = .panic "json: unsupported value" := by
  unfold State.hash State.storageHash SimpleKV.hash at h ⊢
  cases hbytes : s.storageRoot.preimage Value.json with
  | none => rfl
  | some bs =>
    rw [hbytes] at h
    exact (h rfl).elim

section Sync

variable {env : Env F} {neighbors : Nat} {replies : List (State F)} {hash : State F → String} {s : State F}

theorem exists_hash (hok : ∀ s ∈ replies, (s.hash env).isOk) :
    ∃ hash : State F → String, ∀ s ∈ replies, s.hash env = .ok (hash s) := by
  have hhash : ∀ s : State F, ∃ h, (s.hash env).isOk → s.hash env = .ok h := by
    intro s
    cases hs : s.hash env with
    | ok h => exact ⟨h, fun _ => rfl⟩
    | err e => exact ⟨"", fun h => absurd h (by simp)⟩
    | panic why => exact ⟨"", fun h => absurd h (by simp)⟩
  choose hash hhash using hhash
  exact ⟨hash, fun s hs => hhash s (hok s hs)⟩

theorem syncAccount_panics (h : ¬ ∀ s ∈ replies, (s.hash env).isOk) (order : List String → List String) :
    syncAccount env neighbors order replies = .panic "json: unsupported value" := by
  have hfold : ∀ t : Tally F, replies.foldlM (fun t s => do return t.receive (← s.hash env) s) t =
      .panic "json: unsupported value" := by
    induction replies with
    | nil => exact (h (by simp)).elim
    | cons s replies ih =>
      intro t
      rw [List.foldlM_cons]
      by_cases hs : (s.hash env).isOk
      · rw [List.forall_mem_cons, not_and] at h
        obtain ⟨k, hk⟩ := (Outcome.isOk_iff _).mp hs
        rw [hk, Outcome.ok_bind, Outcome.pure_eq, Outcome.ok_bind]
        exact ih (h hs) _
      · rw [state_hash_panics hs]
        rfl
  rw [syncAccount, hfold]
  rfl

omit [Float64 F] in
theorem alike_perm {replies' : List (State F)} (hp : replies'.Perm replies) (s : State F) :
    alike hash replies' s = alike hash replies s :=
  hp.countP_eq _

/-- Enough replies with the hash of `s` are more than half with `s`, but for two replies. -/
theorem majority_of_alike (hhash : ∀ s ∈ replies, s.hash env = .ok (hash s))
    (hlen : replies.length = waitfor neighbors) (htells : HashTells env replies)
    (hboth : neighbors = 1 → ∀ s ∈ replies, ∀ t ∈ replies, s = t) (hs : s ∈ replies)
    (henough : majority (waitfor neighbors) ≤ alike hash replies s) : Majority replies s := by
  classical
  have hcount : alike hash replies s = replies.countP (· = s) := by
    apply List.countP_congr
    intro t ht
    rw [decide_eq_true_eq, decide_eq_true_eq]
    constructor
    · intro heq
      exact htells t ht s hs (by rw [hhash t ht, hhash s hs, heq])
    · rintro rfl
      rfl
  unfold Majority
  rw [hcount] at henough
  unfold majority waitfor at henough
  unfold waitfor at hlen
  by_cases hone : neighbors = 1
  · have hall : replies.countP (· = s) = replies.length := by
      apply List.countP_eq_length.mpr
      intro t ht
      rw [decide_eq_true_eq]
      exact hboth hone t ht s hs
    omega
  · omega

/-- A state with enough replies is picked for some order of the replies and of the maps. -/
theorem majority_of_syncs (hhash : ∀ s ∈ replies, s.hash env = .ok (hash s))
    (hsyncs : SyncsByMajority env neighbors replies) (hs : s ∈ replies)
    (henough : majority (waitfor neighbors) ≤ alike hash replies s) : Majority replies s := by
  obtain ⟨before, after, hsplit⟩ := List.append_of_mem hs
  have hp : ((before ++ after) ++ [s]).Perm replies := by
    rw [hsplit]
    exact (List.perm_append_singleton s _).trans List.perm_middle.symm
  obtain ⟨t, ht, hsync⟩ := syncAccount_eq (fun r hr => hhash r (hp.mem_iff.mp hr)) neighbors (startingWith (hash s))
  rw [pick_last ht (by rw [alike_perm hp]; exact henough)] at hsync
  obtain ⟨s', hs', hmajority⟩ := hsyncs.agreed _ _ (startingWith_perm _) hp _ hsync
  cases hs'
  exact hmajority.perm hp

theorem syncs_of_hashTells (hlen : replies.length = waitfor neighbors)
    (h : (∀ s ∈ replies, (s.hash env).isOk) →
      HashTells env replies ∧ (neighbors = 1 → ∀ s ∈ replies, ∀ t ∈ replies, s = t)) :
    SyncsByMajority env neighbors replies := by
  by_cases hok : ∀ s ∈ replies, (s.hash env).isOk
  · obtain ⟨htells, hboth⟩ := h hok
    obtain ⟨hash, hhash⟩ := exists_hash hok
    -- Whatever the order, it is a state with a majority, or no state has enough replies.
    have hcases : ∀ (order : List String → List String) (replies' : List (State F)), (∀ l, (order l).Perm l) →
        replies'.Perm replies → (∃ s ∈ replies, syncAccount env neighbors order replies' = .ok (some s) ∧
          majority (waitfor neighbors) ≤ alike hash replies s) ∨
        syncAccount env neighbors order replies' = .err (.errorf "sync account fail, received states: %v" []) ∧
          ∀ s ∈ replies, alike hash replies s < majority (waitfor neighbors) := by
      intro order replies' horder hp
      obtain ⟨t, ht, hsync⟩ := syncAccount_eq (fun r hr => hhash r (hp.mem_iff.mp hr)) neighbors order
      have hpick := pick_cases ht (horder t.stateCnts.keys) (majority (waitfor neighbors))
      simp only [alike_perm hp, hp.mem_iff] at hpick
      rw [hsync]
      exact hpick
    refine ⟨?_, ?_⟩
    · intro order replies' horder hp s? hsync
      obtain ⟨s, hs, hok, henough⟩ | ⟨herr, -⟩ := hcases order replies' horder hp
      · rw [hok] at hsync
        cases hsync
        exact ⟨s, rfl, (majority_of_alike hhash hlen htells hboth hs henough).perm hp.symm⟩
      · rw [herr] at hsync
        cases hsync
    · intro order order' replies₁ replies₂ horder horder' hp hp'
      obtain ⟨s, hs, hok, henough⟩ | ⟨herr, hfew⟩ := hcases order replies₁ horder hp
      · obtain ⟨s', hs', hok', henough'⟩ | ⟨-, hfew⟩ := hcases order' replies₂ horder' hp'
        · have hmajority := majority_of_alike hhash hlen htells hboth hs henough
          have hmajority' := majority_of_alike hhash hlen htells hboth hs' henough'
          rw [hok, hok', hmajority.unique hmajority']
        · exact absurd henough (Nat.not_le_of_lt (hfew s hs))
      · obtain ⟨s', hs', -, henough'⟩ | ⟨herr', -⟩ := hcases order' replies₂ horder' hp'
        · exact absurd henough' (Nat.not_le_of_lt (hfew s' hs'))
        · rw [herr, herr']
  · have hall : ∀ order replies', replies'.Perm replies →
        syncAccount env neighbors order replies' = .panic "json: unsupported value" := by
      intro order replies' hp
      apply syncAccount_panics
      simp only [hp.mem_iff]
      exact hok
    refine ⟨?_, ?_⟩
    · intro order replies' _ hp s? hsync
      rw [hall order replies' hp] at hsync
      cases hsync
    · intro order order' replies₁ replies₂ _ _ hp hp'
      rw [hall _ _ hp, hall _ _ hp']

end Sync

/-- An account is set to what a majority says, if one hash is one state and, with a single neighbor, the
wallet and the neighbor say the same: then one of the two replies would be enough. -/
theorem syncAccount_majority_iff (env : Env F) (neighbors : Nat) (replies : List (State F))
    (hlen : replies.length = waitfor neighbors) :
    SyncsByMajority env neighbors replies ↔ ((∀ s ∈ replies, (s.hash env).isOk) →
      HashTells env replies ∧ (neighbors = 1 → ∀ s ∈ replies, ∀ t ∈ replies, s = t)) := by
  refine ⟨fun hsyncs hok => ?_, syncs_of_hashTells hlen⟩
  obtain ⟨hash, hhash⟩ := exists_hash hok
  constructor
  · intro s hs t ht heq
    have hsame : hash s = hash t := by
      rw [hhash s hs, hhash t ht, Outcome.ok.injEq] at heq
      exact heq
    by_contra hne
    -- Two replies with one hash are enough, whichever of the two comes last.
    have henough : majority (waitfor neighbors) ≤ alike hash replies s := by
      have htwo := two_le_countP (p := (hash · = hash s)) hs ht hne (by simp) (by simp [hsame])
      unfold majority waitfor alike
      omega
    have henough' : majority (waitfor neighbors) ≤ alike hash replies t := by
      rw [alike, ← hsame]
      exact henough
    exact hne ((majority_of_syncs hhash hsyncs hs henough).unique (majority_of_syncs hhash hsyncs ht henough'))
  · intro hone s hs t ht
    have henough : ∀ r ∈ replies, majority (waitfor neighbors) ≤ alike hash replies r := by
      intro r hr
      have hpos : 0 < alike hash replies r := List.countP_pos_iff.mpr ⟨r, hr, by simp⟩
      unfold majority waitfor
      omega
    exact (majority_of_syncs hhash hsyncs hs (henough s hs)).unique (majority_of_syncs hhash hsyncs ht (henough t ht))

theorem hashTells_of_ne {env : Env F} {s t : State F} (h : s.hash env ≠ t.hash env) : HashTells env [s, t, s] := by
  intro r hr r' hr' heq
  simp only [List.mem_cons, List.not_mem_nil, or_false] at hr hr'
  rcases hr with rfl | rfl | rfl <;> rcases hr' with rfl | rfl | rfl <;>
    first | rfl | exact (h heq).elim | exact (h heq.symm).elim

/-- Two of three replies agree. -/
theorem twoOfThree_sync : SyncsByMajority digestEnv 2 [numbered 5 1 [], numbered 5 2 [], numbered 5 1 []] := by
  have hne : (numbered 5 1 []).hash digestEnv ≠ (numbered 5 2 []).hash digestEnv := by
    rw [numbered_hash, numbered_hash]
    intro heq
    exact absurd (Outcome.ok.inj heq) (by decide +kernel)
  exact (syncAccount_majority_iff digestEnv 2 _ rfl).mpr
    fun _ => ⟨hashTells_of_ne hne, fun htwo => absurd htwo (by decide)⟩

/-- The wallet and its one neighbor disagree: either reply is enough. -/
theorem oneNeighbor_no_majority : ¬ SyncsByMajority digestEnv 1 [numbered 5 1 [], numbered 6 1 []] := by
  intro hsyncs
  have hok : ∀ s ∈ [numbered 5 1 [], numbered 6 1 []], (s.hash digestEnv).isOk := by
    simp only [List.forall_mem_cons, numbered_hash]
    simp
  obtain ⟨hash, hhash⟩ := exists_hash hok
  have henough : ∀ s ∈ [numbered 5 1 [], numbered 6 1 []], majority (waitfor 1) ≤
      alike hash [numbered 5 1 [], numbered 6 1 []] s :=
    fun s hs => List.countP_pos_iff.mpr ⟨s, hs, by simp⟩
  have hsame := (majority_of_syncs hhash hsyncs (by simp) (henough (numbered 5 1 []) (by simp))).unique
    (majority_of_syncs hhash hsyncs (by simp) (henough (numbered 6 1 []) (by simp)))
  exact absurd (congrArg State.balance hsame) (by decide)

end MarketPeer.Ledger
