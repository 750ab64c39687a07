import MarketPeer.Chord.Get

/-!
# What a `Get` returns was read after the call

An answer that is under way to a node, or in its channel, can be returned by any call of
the node for the key. So a call gets a fresh answer when none was there before it.
-/

namespace MarketPeer.Chord

variable {N : Nat} {V : Type} {cfg : Config N} {w w' : GetWorld N V}

/-! ## Answers that a call can get -/

/-- The answer waits in the channel of the key, or is on its way to it. -/
def GetWorld.Pending (w : GetWorld N V) (n : Fin N) (key : Nat) (a : Answer N V) : Prop :=
  a ∈ w.channel n key ∨ ∃ g ∈ w.gives, g.destination = n ∧ g.key = key ∧ g.answer = a

theorem GetWorld.channel_setChannel (w : GetWorld N V) (n n' : Fin N) (key key' : Nat) (ch : List (Answer N V)) :
    (w.setChannel n key ch).channel n' key' = if n' = n ∧ key' = key then ch else w.channel n' key' := by
  unfold GetWorld.channel GetWorld.setChannel
  simp only [Function.update_apply]
  by_cases hn : n' = n
  · subst hn
    by_cases hkey : key' = key
    · simp [hkey]
    · simp [hkey]
  · simp [hn]

theorem GetWorld.pending_setChannel {n n' : Fin N} {key key' : Nat} {ch : List (Answer N V)} {a : Answer N V}
    (hch : ∀ a ∈ ch, w.Pending n key a) (h : (w.setChannel n key ch).Pending n' key' a) : w.Pending n' key' a := by
  obtain h | h := h
  · rw [GetWorld.channel_setChannel] at h
    split at h
    · rename_i heq
      obtain ⟨rfl, rfl⟩ := heq
      exact hch a h
    · exact .inl h
  · exact .inr h

/-! ## What a step does -/

variable (cfg) in
/-- All that a step can do to the calls and the answers: a call begins, a lookup gives an owner, the
owner is asked, an asked node reads its store, and a call returns a pending answer or its own store. -/
structure Advance (w : GetWorld N V) (e : GetEvent N V) (w' : GetWorld N V) : Prop where
  located : ∀ x ∈ w.located, x ∈ w'.located
  calls : ∀ c' ∈ w'.calls,
    (∃ c ∈ w.calls, c.node = c'.node ∧ c.key = c'.key ∧ c.calledAt = c'.calledAt) ∨
      e = .call c'.node c'.key ∧ c'.calledAt = w.now
  found : ∀ c' ∈ w'.calls, ∀ dest, c'.phase = .found dest → c' ∈ w.calls ∨ (c'.node, c'.key, dest) ∈ w'.located
  asks : ∀ q ∈ w'.asks, q ∈ w.asks ∨
    ∃ c ∈ w.calls, c.node = q.source ∧ c.key = q.key ∧ c.phase = .found q.destination
  pending : ∀ n key a, w'.Pending n key a → w.Pending n key a ∨
    (∀ n key, e ≠ .call n key) ∧ ∃ q ∈ w.asks, q.source = n ∧ q.key = key ∧ a = w.read q.destination key
  returned : ∀ g ∈ w'.returned, g ∈ w.returned ∨
    ∃ c ∈ w.calls, g.node = c.node ∧ g.key = c.key ∧ g.calledAt = c.calledAt ∧
      (w.Pending c.node c.key g.answer ∨
        ∃ dest, c.phase = .found dest ∧ cfg.hashKey c.node = cfg.hashKey dest ∧ g.answer = w.read c.node c.key)

/-- A step that only takes things away, or that leaves them all to the other nodes. -/
theorem Advance.of_subset {e : GetEvent N V} (hlocated : w'.located = w.located) (hcalls : ∀ c ∈ w'.calls, c ∈ w.calls)
    (hasks : ∀ q ∈ w'.asks, q ∈ w.asks) (hpending : ∀ n key a, w'.Pending n key a → w.Pending n key a)
    (hreturned : w'.returned = w.returned) : Advance cfg w e w' where
  located := by rw [hlocated]; exact fun _ hx => hx
  calls := fun c hc => .inl ⟨c, hcalls c hc, rfl, rfl, rfl⟩
  found := fun c hc _ _ => .inl (hcalls c hc)
  asks := fun q hq => .inl (hasks q hq)
  pending := fun n key a ha => .inl (hpending n key a ha)
  returned := by rw [hreturned]; exact fun _ hg => .inl hg

section Moves

variable {i : Nat} {c : Call N} {e : GetEvent N V}

theorem erase_advance : Advance cfg w e { w with calls := w.calls.eraseIdx i } :=
  .of_subset rfl (fun _ hc => List.mem_of_mem_eraseIdx hc) (fun _ hq => hq) (fun _ _ _ ha => ha) rfl

/-- A call in its next phase is still the same call. -/
theorem mem_set_phase (hc : c ∈ w.calls) {phase : Getting N} {c' : Call N}
    (hc' : c' ∈ w.calls.set i { c with phase }) :
    ∃ c₀ ∈ w.calls, c₀.node = c'.node ∧ c₀.key = c'.key ∧ c₀.calledAt = c'.calledAt := by
  obtain hc' | rfl := List.mem_or_eq_of_mem_set hc'
  · exact ⟨c', hc', rfl, rfl, rfl⟩
  · exact ⟨c, hc, rfl, rfl, rfl⟩

theorem locate_advance (hc : c ∈ w.calls) (dest : Fin N) : Advance cfg w e (w.locate i c dest) where
  located := fun x hx => List.mem_append_left _ hx
  calls := fun c' hc' => .inl (mem_set_phase hc hc')
  found := by
    intro c' hc' dest' hphase
    obtain hc' | rfl := List.mem_or_eq_of_mem_set hc'
    · exact .inl hc'
    · cases hphase
      exact .inr (List.mem_append_right _ (List.mem_singleton_self _))
  asks := fun q hq => .inl hq
  pending := fun n key a ha => .inl ha
  returned := fun g hg => .inl hg

theorem finish_advance {w₀ : GetWorld N V} {a : Answer N V} (hc : c ∈ w.calls) (hlocated : w₀.located = w.located)
    (hcalls : w₀.calls = w.calls) (hasks : w₀.asks = w.asks) (hreturned : w₀.returned = w.returned)
    (hpending : ∀ n key a, w₀.Pending n key a → w.Pending n key a)
    (ha : w.Pending c.node c.key a ∨
      ∃ dest, c.phase = .found dest ∧ cfg.hashKey c.node = cfg.hashKey dest ∧ a = w.read c.node c.key) :
    Advance cfg w e (w₀.finish i c a) where
  located := by
    intro x hx
    rw [← hlocated] at hx
    exact hx
  calls := by
    intro c' hc'
    have hmem := List.mem_of_mem_eraseIdx hc'
    rw [hcalls] at hmem
    exact .inl ⟨c', hmem, rfl, rfl, rfl⟩
  found := by
    intro c' hc' _ _
    have hmem := List.mem_of_mem_eraseIdx hc'
    rw [hcalls] at hmem
    exact .inl hmem
  asks := by
    intro q hq
    rw [← hasks]
    exact .inl hq
  pending := fun n key a ha => .inl (hpending n key a ha)
  returned := by
    intro g hg
    rw [GetWorld.finish, hreturned, List.mem_append, List.mem_singleton] at hg
    obtain hg | rfl := hg
    · exact .inl hg
    · exact .inr ⟨c, hc, rfl, rfl, rfl, ha⟩

theorem ask_advance (hc : c ∈ w.calls) {dest : Fin N} (hphase : c.phase = .found dest) (sent : Bool) :
    Advance cfg w e (w.ask i c dest sent) := by
  have hpending {n key a} (h : (w.setChannel c.node c.key (w.channel c.node c.key)).Pending n key a) :
      w.Pending n key a := GetWorld.pending_setChannel (fun _ ha => .inl ha) h
  cases sent with
  | false => exact .of_subset rfl (fun _ hc => List.mem_of_mem_eraseIdx hc) (fun _ hq => hq) (fun _ _ _ => hpending) rfl
  | true =>
    exact
      { located := fun x hx => hx
        calls := fun c' hc' => .inl (mem_set_phase hc hc')
        found := by
          intro c' hc' dest' hphase'
          obtain hc' | rfl := List.mem_or_eq_of_mem_set hc'
          · exact .inl hc'
          · cases hphase'
        asks := by
          intro q hq
          obtain hq | hq := List.mem_append.mp hq
          · exact .inl hq
          · obtain rfl := List.mem_singleton.mp hq
            exact .inr ⟨c, hc, rfl, rfl, hphase⟩
        pending := fun n key a ha => .inl (hpending ha)
        returned := fun g hg => .inl hg }

theorem stepGet_advance (hc : c ∈ w.calls) {m : GetMove N} (h : stepGet cfg w i c m = some w') :
    Advance cfg w e w' := by
  cases m with
  | found answer =>
    simp only [stepGet] at h
    split at h
    · split at h
      · cases h
        exact locate_advance hc _
      · cases h
        exact locate_advance hc _
      · cases h
        exact erase_advance
    · cases h
  | ask sent =>
    simp only [stepGet] at h
    split at h
    · rename_i dest hphase
      split at h
      · rename_i hown
        cases h
        exact finish_advance hc rfl rfl rfl rfl (fun _ _ _ ha => ha) (.inr ⟨dest, hphase, hown, rfl⟩)
      · split at h
        · cases h
        · cases h
          exact ask_advance hc hphase sent
    · cases h
  | receive =>
    simp only [stepGet] at h
    split at h
    · rename_i a rest _ hchannel
      cases h
      have hmem {a'} (ha' : a' ∈ a :: rest) : w.Pending c.node c.key a' := by
        rw [← hchannel] at ha'
        exact .inl ha'
      refine finish_advance hc rfl rfl rfl rfl ?_ (.inl (hmem List.mem_cons_self))
      intro n key a' ha'
      exact GetWorld.pending_setChannel (fun _ h => hmem (List.mem_cons_of_mem a h)) ha'
    · cases h
  | timeout =>
    simp only [stepGet] at h
    split at h
    · cases h
    · cases h
      exact erase_advance

end Moves

theorem call_advance (n : Fin N) (key : Nat) :
    Advance cfg w (.call n key) { w with calls := w.calls ++ [⟨n, key, w.now, .lookup⟩] } where
  located := fun x hx => hx
  calls := by
    intro c hc
    obtain hc | hc := List.mem_append.mp hc
    · exact .inl ⟨c, hc, rfl, rfl, rfl⟩
    · obtain rfl := List.mem_singleton.mp hc
      exact .inr ⟨rfl, rfl⟩
  found := by
    intro c hc dest hphase
    obtain hc | hc := List.mem_append.mp hc
    · exact .inl hc
    · obtain rfl := List.mem_singleton.mp hc
      cases hphase
  asks := fun q hq => .inl hq
  pending := fun n key a ha => .inl ha
  returned := fun g hg => .inl hg

/-- The asked node reads its store. -/
theorem chordAskKVCallback_advance {j : Nat} {q : Asking N} (hq : q ∈ w.asks) :
    Advance cfg w (.deliverAsk j) (chordAskKVCallback { w with asks := w.asks.eraseIdx j } q) where
  located := fun x hx => hx
  calls := fun c hc => .inl ⟨c, hc, rfl, rfl, rfl⟩
  found := fun c hc _ _ => .inl hc
  asks := fun q hq => .inl (List.mem_of_mem_eraseIdx hq)
  pending := by
    intro n key a ha
    obtain ha | ⟨g, hg, hn, hkey, ha⟩ := ha
    · exact .inl (.inl ha)
    · obtain hg | hg := List.mem_append.mp hg
      · exact .inl (.inr ⟨g, hg, hn, hkey, ha⟩)
      · obtain rfl := List.mem_singleton.mp hg
        refine .inr ⟨nofun, q, hq, hn, hkey, ?_⟩
        rw [← ha, ← hkey]
        rfl
  returned := fun g hg => .inl hg

/-- The answer moves from its packet to the channel. -/
theorem chordGiveKVCallback_advance {j : Nat} {g : Giving N V} {e : GetEvent N V} (hg : g ∈ w.gives)
    (h : chordGiveKVCallback { w with gives := w.gives.eraseIdx j } g = some w') : Advance cfg w e w' := by
  have hgives : ∀ g' ∈ w.gives.eraseIdx j, g' ∈ w.gives := fun _ => List.mem_of_mem_eraseIdx
  have hpending {n key a} (ha : GetWorld.Pending { w with gives := w.gives.eraseIdx j } n key a) :
      w.Pending n key a := by
    obtain ha | ⟨g', hg', hrest⟩ := ha
    · exact .inl ha
    · exact .inr ⟨g', hgives g' hg', hrest⟩
  unfold chordGiveKVCallback at h
  split at h
  · cases h
  · split at h
    · rename_i ch hch
      rw [Option.ite_none_right_eq_some, Option.some.injEq] at h
      obtain ⟨-, rfl⟩ := h
      refine .of_subset rfl (fun _ hc => hc) (fun _ hq => hq) ?_ rfl
      intro n key a ha
      obtain ha | ⟨g', hg', hrest⟩ := ha
      · rw [GetWorld.channel_setChannel] at ha
        split at ha
        · rename_i heq
          obtain ⟨rfl, rfl⟩ := heq
          obtain ha | ha := List.mem_append.mp ha
          · refine .inl ?_
            rw [GetWorld.channel, show w.acquireKVCh g.destination g.key = some ch from hch]
            exact ha
          · exact .inr ⟨g, hg, rfl, rfl, (List.mem_singleton.mp ha).symm⟩
        · exact .inl ha
      · exact .inr ⟨g', hgives g' hg', hrest⟩
    · cases h
      exact .of_subset rfl (fun _ hc => hc) (fun _ hq => hq) (fun _ _ _ => hpending) rfl

theorem getAct_advance {e : GetEvent N V} (h : getAct cfg w e = some w') : Advance cfg w e w' := by
  cases e with
  | chord ev =>
    obtain ⟨world, -, rfl⟩ := Option.map_eq_some_iff.mp h
    exact .of_subset rfl (fun _ hc => hc) (fun _ hq => hq) (fun _ _ _ ha => ha) rfl
  | call n key =>
    cases h
    exact call_advance n key
  | move i m =>
    obtain ⟨c, hc, h⟩ := Option.bind_eq_some_iff.mp h
    exact stepGet_advance (List.mem_of_getElem? hc) h
  | deliverAsk j =>
    obtain ⟨q, hq, h⟩ := Option.bind_eq_some_iff.mp h
    rw [Option.ite_none_left_eq_some, Option.some.injEq] at h
    obtain ⟨-, rfl⟩ := h
    exact chordAskKVCallback_advance (List.mem_of_getElem? hq)
  | deliverGive j =>
    obtain ⟨g, hg, h⟩ := Option.bind_eq_some_iff.mp h
    rw [Option.ite_none_left_eq_some] at h
    exact chordGiveKVCallback_advance (List.mem_of_getElem? hg) h.2

/-! ## Time -/

/-- The times that the world records are those of the run. -/
structure Timed (cfg : Config N) (w₀ : GetWorld N V) (es : List (GetEvent N V)) (w : GetWorld N V) : Prop where
  now : w.now = es.length
  calls : ∀ c ∈ w.calls, es[c.calledAt]? = some (.call c.node c.key)
  returned : ∀ g ∈ w.returned, es[g.calledAt]? = some (.call g.node g.key)
  history : ∀ t stores, w.history[t]? = some stores → ∃ v, run (getStep cfg) w₀ (es.take t) = some v ∧ v.stores = stores

theorem getStep_eq {e : GetEvent N V} (h : getStep cfg w e = some w') :
    ∃ w₁, Advance cfg w e w₁ ∧ w' = { w₁ with history := w.history ++ [w.stores] } := by
  obtain ⟨w₁, hact, rfl⟩ := Option.map_eq_some_iff.mp h
  exact ⟨w₁, getAct_advance hact, rfl⟩

theorem timed_initial (world : World N V) : Timed cfg (.initial world) [] (.initial world) where
  now := rfl
  calls := fun _ hc => by cases hc
  returned := fun _ hg => by cases hg
  history := fun _ _ h => by cases h

theorem getElem?_snoc_of_some {α : Type} {xs : List α} {i : Nat} {x : α} (y : α) (h : xs[i]? = some x) :
    (xs ++ [y])[i]? = some x := by
  obtain ⟨hlt, -⟩ := List.getElem?_eq_some_iff.mp h
  rw [List.getElem?_append_left hlt, h]

theorem Timed.step {w₀ : GetWorld N V} {es : List (GetEvent N V)} {e : GetEvent N V} (h : Timed cfg w₀ es w)
    (hrun : run (getStep cfg) w₀ es = some w) (hstep : getStep cfg w e = some w') : Timed cfg w₀ (es ++ [e]) w' := by
  obtain ⟨w₁, hadv, rfl⟩ := getStep_eq hstep
  have hcalls : ∀ c ∈ w.calls, (es ++ [e])[c.calledAt]? = some (.call c.node c.key) :=
    fun c hc => getElem?_snoc_of_some e (h.calls c hc)
  exact
    { now := by
        simp only [GetWorld.now, List.length_append, List.length_singleton]
        rw [← h.now, GetWorld.now]
      calls := by
        intro c' hc'
        obtain ⟨c, hc, hn, hkey, hat⟩ | ⟨he, hat⟩ := hadv.calls c' hc'
        · rw [← hn, ← hkey, ← hat]
          exact hcalls c hc
        · rw [hat, h.now, List.getElem?_concat_length, he]
      returned := by
        intro g hg
        obtain hg | ⟨c, hc, hn, hkey, hat, -⟩ := hadv.returned g hg
        · exact getElem?_snoc_of_some e (h.returned g hg)
        · rw [hn, hkey, hat]
          exact hcalls c hc
      history := by
        intro t stores ht
        by_cases hlt : t < w.now
        · rw [List.getElem?_append_left hlt] at ht
          obtain ⟨v, hv, heq⟩ := h.history t stores ht
          rw [h.now] at hlt
          exact ⟨v, by rw [List.take_append_of_le_length (by omega)]; exact hv, heq⟩
        · have htnow : t = w.now := by
            obtain ⟨hlen, -⟩ := List.getElem?_eq_some_iff.mp ht
            simp only [List.length_append, List.length_singleton] at hlen
            unfold GetWorld.now at hlt ⊢
            omega
          rw [htnow, GetWorld.now, List.getElem?_concat_length, Option.some.injEq] at ht
          refine ⟨w, ?_, ht⟩
          rw [htnow, h.now, List.take_left]
          exact hrun }

/-! ## Fresh answers -/

variable (cfg) in
/-- The answer is what its owner held when it was read, and a lookup had given this owner. -/
structure Genuine (w : GetWorld N V) (n : Fin N) (key : Nat) (a : Answer N V) : Prop where
  read : ∃ stores, w.history[a.readAt]? = some stores ∧ stores a.owner key = a.value
  owner : ∃ dest, (n, key, dest) ∈ w.located ∧ cfg.hashKey a.owner = cfg.hashKey dest

variable (cfg) in
structure FreshInv (w : GetWorld N V) : Prop where
  called : ∀ c ∈ w.calls, c.calledAt < w.now
  found : ∀ c ∈ w.calls, ∀ dest, c.phase = .found dest → (c.node, c.key, dest) ∈ w.located
  asked : ∀ q ∈ w.asks, (q.source, q.key, q.destination) ∈ w.located
  genuine : ∀ n key a, w.Pending n key a → Genuine cfg w n key a
  young : ∀ c ∈ w.calls, ∀ a, w.Pending c.node c.key a → c.calledAt < a.readAt
  returned : ∀ g ∈ w.returned, g.calledAt < g.answer.readAt ∧ Genuine cfg w g.node g.key g.answer

/-- When a `Get` is called, no answer for its key is under way to the node or waits in the channel. -/
def Drained (w : GetWorld N V) : GetEvent N V → Prop
  | .call n key => w.channel n key = [] ∧ ∀ g ∈ w.gives, ¬(g.destination = n ∧ g.key = key)
  | _ => True

theorem Drained.not_pending {n : Fin N} {key : Nat} (h : Drained w (.call n key)) (a : Answer N V) :
    ¬w.Pending n key a := by
  rintro (ha | ⟨g, hg, hn, hkey, -⟩)
  · rw [h.1] at ha
    cases ha
  · exact h.2 g hg ⟨hn, hkey⟩

theorem freshInv_initial (world : World N V) : FreshInv cfg (.initial world) where
  called := fun _ hc => by cases hc
  found := fun _ hc => by cases hc
  asked := fun _ hq => by cases hq
  genuine := by
    rintro n key a (ha | ⟨g, hg, -⟩)
    · cases ha
    · cases hg
  young := fun _ hc => by cases hc
  returned := fun _ hg => by cases hg

theorem Genuine.mono {w₁ : GetWorld N V} {n : Fin N} {key : Nat} {a : Answer N V} (h : Genuine cfg w n key a)
    (hlocated : ∀ x ∈ w.located, x ∈ w₁.located) :
    Genuine cfg { w₁ with history := w.history ++ [w.stores] } n key a where
  read := by
    obtain ⟨stores, hread, heq⟩ := h.read
    exact ⟨stores, getElem?_snoc_of_some _ hread, heq⟩
  owner := by
    obtain ⟨dest, hdest, heq⟩ := h.owner
    exact ⟨dest, hlocated _ hdest, heq⟩

theorem genuine_read {w₁ : GetWorld N V} {n owner dest : Fin N} {key : Nat} (hdest : (n, key, dest) ∈ w₁.located)
    (heq : cfg.hashKey owner = cfg.hashKey dest) :
    Genuine cfg { w₁ with history := w.history ++ [w.stores] } n key (w.read owner key) where
  read := ⟨w.stores, List.getElem?_concat_length, rfl⟩
  owner := ⟨dest, hdest, heq⟩

/-- One step: what a new answer can be, and who can get it. -/
theorem FreshInv.step {e : GetEvent N V} (h : FreshInv cfg w) (hdrained : Drained w e)
    (hstep : getStep cfg w e = some w') : FreshInv cfg w' := by
  obtain ⟨w₁, hadv, rfl⟩ := getStep_eq hstep
  have hnow : GetWorld.now { w₁ with history := w.history ++ [w.stores] } = w.now + 1 := by
    simp [GetWorld.now]
  exact
    { called := by
        intro c' hc'
        rw [hnow]
        obtain ⟨c, hc, -, -, hat⟩ | ⟨-, hat⟩ := hadv.calls c' hc'
        · have := h.called c hc
          omega
        · omega
      found := by
        intro c' hc' dest hphase
        obtain hc | hlocated := hadv.found c' hc' dest hphase
        · exact hadv.located _ (h.found c' hc dest hphase)
        · exact hlocated
      asked := by
        intro q hq
        obtain hq | ⟨c, hc, hn, hkey, hphase⟩ := hadv.asks q hq
        · exact hadv.located _ (h.asked q hq)
        · rw [← hn, ← hkey]
          exact hadv.located _ (h.found c hc _ hphase)
      genuine := by
        intro n key a ha
        obtain ha | ⟨-, q, hq, rfl, rfl, rfl⟩ := hadv.pending n key a ha
        · exact (h.genuine n key a ha).mono hadv.located
        · exact genuine_read (hadv.located _ (h.asked q hq)) rfl
      young := by
        intro c' hc' a ha
        obtain ⟨c, hc, hn, hkey, hat⟩ | ⟨rfl, hat⟩ := hadv.calls c' hc'
        · obtain ha | ⟨-, q, -, -, -, rfl⟩ := hadv.pending _ _ a ha
          · rw [← hn, ← hkey] at ha
            have := h.young c hc a ha
            omega
          · have := h.called c hc
            simp only [GetWorld.read]
            omega
        · obtain ha | ⟨hne, -⟩ := hadv.pending _ _ a ha
          · exact (hdrained.not_pending a ha).elim
          · exact (hne _ _ rfl).elim
      returned := by
        intro g hg
        obtain hg | ⟨c, hc, hn, hkey, hat, hanswer⟩ := hadv.returned g hg
        · obtain ⟨hlt, hgenuine⟩ := h.returned g hg
          exact ⟨hlt, hgenuine.mono hadv.located⟩
        · rw [hn, hkey, hat]
          obtain ha | ⟨dest, hphase, hown, ha⟩ := hanswer
          · exact ⟨h.young c hc _ ha, (h.genuine _ _ _ ha).mono hadv.located⟩
          · rw [ha]
            exact ⟨h.called c hc, genuine_read (hadv.located _ (h.found c hc dest hphase)) hown⟩ }

/-- The answer was read from the block store of the owner after the call: in the state of the run before
event `readAt`, which comes after the event of the call. -/
structure ReadAfterCall (cfg : Config N) (world : World N V) (es : List (GetEvent N V)) (w : GetWorld N V)
    (g : Returned N V) : Prop where
  called : es[g.calledAt]? = some (.call g.node g.key)
  later : g.calledAt < g.answer.readAt
  read : ∃ v, run (getStep cfg) (.initial world) (es.take g.answer.readAt) = some v ∧
    v.stores g.answer.owner g.key = g.answer.value
  owner : ∃ dest, (g.node, g.key, dest) ∈ w.located ∧ cfg.hashKey g.answer.owner = cfg.hashKey dest

/-- A `Get` returns a fresh answer: in every run in which no answer for the key is left when a call
begins, whatever is returned was read after the call, also by calls that run at the same time. -/
theorem get_fresh_when_drained (cfg : Config N) (world : World N V) (es : List (GetEvent N V)) (w : GetWorld N V)
    (hdrained : Meets (getStep cfg) Drained (.initial world) es)
    (hrun : run (getStep cfg) (.initial world) es = some w) :
    ∀ g ∈ w.returned, ReadAfterCall cfg world es w g := by
  have hfresh : FreshInv cfg w :=
    run_invariant (C := Drained) (FreshInv cfg) (fun _ _ _ h hdrained hstep => h.step hdrained hstep) es
      (freshInv_initial world) hdrained hrun
  have htimed : Timed cfg (.initial world) es w :=
    run_snoc_induction (timed_initial world) (fun _ _ _ _ hrun h hstep => h.step hrun hstep) es hrun
  intro g hg
  obtain ⟨hlater, hgenuine⟩ := hfresh.returned g hg
  obtain ⟨stores, hread, hvalue⟩ := hgenuine.read
  obtain ⟨v, hv, rfl⟩ := htimed.history _ _ hread
  exact ⟨htimed.returned g hg, hlater, ⟨v, hv, hvalue⟩, hgenuine.owner⟩

/-! ## Two calls of one node -/

instance (w : GetWorld N V) (e : GetEvent N V) : Decidable (Drained w e) := by
  unfold Drained
  split <;> infer_instance

/-- Node 0 writes the key 2, which node 2 owns. -/
def putTwo (value : Nat) : List (GetEvent 3 Nat) :=
  [.chord (.put 0 2 value 0), .chord (.finishPut 0 0), .chord (.deliver 0)]

/-- Node 0 calls `Get` for it, and node 2 reads the value. -/
def getTwo : List (GetEvent 3 Nat) := [.call 0 2, .move 0 (.found 0), .move 0 (.ask true), .deliverAsk 0]

def pairWorld : World 3 Nat := World.initial sampleConfig Nat 0 2

/-- Every call takes its own answer. -/
def promptRun : List (GetEvent 3 Nat) :=
  putTwo 10 ++ getTwo ++ [.deliverGive 0, .move 0 .receive] ++ putTwo 20 ++ getTwo ++
    [.deliverGive 0, .move 0 .receive]

theorem promptRun_fresh :
    ∃ w, run (getStep sampleConfig) (.initial pairWorld) promptRun = some w ∧
      (w.returned.map fun g => g.answer.value) = [some 10, some 20] ∧
      ∀ g ∈ w.returned, ReadAfterCall sampleConfig pairWorld promptRun w g := by
  have hrun : (run (getStep sampleConfig) (.initial pairWorld) promptRun).any (fun w =>
      decide ((w.returned.map fun g => g.answer.value) = [some 10, some 20])) = true := by decide
  obtain ⟨w, hw, hreturned⟩ := (Option.any_eq_true ..).mp hrun
  exact ⟨w, hw, of_decide_eq_true hreturned,
    get_fresh_when_drained sampleConfig pairWorld promptRun w (by decide) hw⟩

/-- The answer of the first call comes after its timeout, and the second call takes it. -/
def lateRun : List (GetEvent 3 Nat) :=
  putTwo 10 ++ getTwo ++ [.move 0 .timeout] ++ putTwo 20 ++ [.call 0 2, .move 0 (.found 0), .move 0 (.ask true),
    .deliverGive 0, .move 0 .receive]

/-- The second call returns 10, which was read before the call; since then the owner has held 20. -/
theorem lateRun_stale :
    ∃ w, run (getStep sampleConfig) (.initial pairWorld) lateRun = some w ∧
      ∃ g ∈ w.returned, ¬ReadAfterCall sampleConfig pairWorld lateRun w g ∧ g.answer.value = some 10 ∧
        ∀ stores ∈ w.history.drop g.calledAt, stores g.answer.owner g.key = some 20 := by
  have hrun : (run (getStep sampleConfig) (.initial pairWorld) lateRun).any (fun w =>
      decide (∃ g ∈ w.returned, g.answer.readAt < g.calledAt ∧ g.answer.value = some 10 ∧
        ∀ stores ∈ w.history.drop g.calledAt, stores g.answer.owner g.key = some 20)) = true := by decide
  obtain ⟨w, hw, hstale⟩ := (Option.any_eq_true ..).mp hrun
  obtain ⟨g, hg, hearlier, hvalue, hstores⟩ := of_decide_eq_true hstale
  refine ⟨w, hw, g, hg, fun hafter => ?_, hvalue, hstores⟩
  exact Nat.lt_asymm hearlier hafter.later

end MarketPeer.Chord
