import MarketPeer.Catalog.Truth

/-!
# Catalogs and answers were true once

Whatever the order of the events, a catalog lists a peer only for what it had, and a
search returns only names that match and that some peer has tagged.
-/

namespace MarketPeer.Catalog

open Sharing (Key Blob metafileSep)

variable {P : Type}

section Run

variable {matchString : String → String → Bool} {told told' : P → FileInfo → Prop}
  {tagged tagged' : String × Key → Prop} {held held' : P → Blob → Prop} {w : World P}

theorem World.Complete.mono (htold : ∀ p f, told p f → told' p f) {p : P} {pattern name : String}
    (h : w.Complete matchString told p pattern name) : w.Complete matchString told' p pattern name := by
  obtain ⟨source, f, hname, hmatch, hfull, hf, hrest⟩ := h
  exact ⟨source, f, hname, hmatch, hfull, htold source f hf, hrest⟩

theorem World.Sound.mono (h : w.Sound matchString told tagged held) (htold : ∀ p f, told p f → told' p f)
    (htagged : ∀ b, tagged b → tagged' b) (hheld : ∀ p blob, held p blob → held' p blob) :
    w.Sound matchString told' tagged' held' where
  naming := fun p b hb => htagged b (h.naming p b hb)
  past := fun p blob hblob => hheld p blob (h.past p blob hblob)
  catalog := fun p key q hq => (h.catalog p key q hq).imp fun f hf => hf.imp_left (htold q f)
  requests := h.requests
  replies := by
    intro r hr
    obtain ⟨pattern, hasked, hf⟩ := h.replies r hr
    exact ⟨pattern, hasked, fun f hmem => (hf f hmem).imp_right (htold r.source f)⟩
  sending := h.sending
  inquiries := by
    intro id q hq
    obtain ⟨hfuture, hnames, hfull⟩ := h.inquiries id q hq
    exact ⟨hfuture, hnames, fun n hn => (hfull n hn).mono htold⟩
  calls := h.calls
  answers := by
    intro a ha n hn
    obtain ⟨hmatch, hbound, hfirst⟩ := h.answers a ha n hn
    exact ⟨hmatch, hbound, fun hf => (hfirst hf).mono htold⟩

variable [DecidableEq P]

/-- Some peer has set this binding by itself. -/
def Tagged (es : List (Event P)) (b : String × Key) : Prop := ∃ p, Event.tag p b.1 b.2 ∈ es

/-- The blob store of the peer was this one in some state of the run. -/
def Held (matchString : String → String → Bool) (es : List (Event P)) (p : P) (blob : Blob) : Prop :=
  Passes (step matchString) (fun w => w.blob p = blob) (.start P) es

theorem Held.passes {es : List (Event P)} {p : P} {blob : Blob} (h : Held matchString es p blob) {Q : Blob → Prop}
    (hQ : Q blob) : Passes (step matchString) (fun w => Q (w.blob p)) (.start P) es := by
  obtain ⟨pre, suf, v, hsplit, hpre, hv⟩ := h
  subst hv
  exact ⟨pre, suf, v, hsplit, hpre, hQ⟩

/-- The peer knew the name in some state of the run, and what `f` says of the file was found by reads, each of
them in some state of the run. -/
def Had (matchString : String → String → Bool) (es : List (Event P)) (p : P) (f : FileInfo) : Prop :=
  Passes (step matchString) (fun w => (f.name, f.metahash) ∈ w.naming p) (.start P) es ∧
    ∃ reads : Nat → Blob, (∀ i, Held matchString es p (reads i)) ∧ describe reads f.name f.metahash = some f

theorem Had.append {es : List (Event P)} {p : P} {f : FileInfo} (h : Had matchString es p f) (es' : List (Event P)) :
    Had matchString (es ++ es') p f := by
  obtain ⟨hname, reads, hreads, hf⟩ := h
  exact ⟨hname.append es', reads, fun i => (hreads i).append es', hf⟩

/-- Under each key of such a file the peer had something in some state of the run. -/
theorem Had.blob {es : List (Event P)} {p : P} {f : FileInfo} (h : Had matchString es p f) {key : Key}
    (hkey : key ∈ f.keys) : Passes (step matchString) (fun v => v.blob p key ≠ none) (.start P) es := by
  obtain ⟨-, reads, hreads, hf⟩ := h
  obtain ⟨i, hi⟩ := describe_keys hf hkey
  exact (hreads i).passes (Q := fun blob => blob key ≠ none) hi

theorem run_sound {es : List (Event P)} (hrun : run (step matchString) (.start P) es = some w) :
    w.Sound matchString (fun p f => Had matchString es p f ∧ Tagged es (f.name, f.metahash)) (Tagged es)
      (Held matchString es) := by
  refine run_snoc_induction (motive := fun es w =>
    w.Sound matchString (fun p f => Had matchString es p f ∧ Tagged es (f.name, f.metahash)) (Tagged es)
      (Held matchString es)) ?_ ?_ es hrun
  · constructor <;> simp [World.start]
  · intro es e w w' hrun ih hstep
    have htagged (b : String × Key) (hb : Tagged es b) : Tagged (es ++ [e]) b :=
      hb.imp fun p hp => List.mem_append_left _ hp
    have hmore : w.Sound matchString (fun p f => Had matchString es p f ∧ Tagged (es ++ [e]) (f.name, f.metahash))
        (Tagged (es ++ [e])) (Held matchString es) :=
      ih.mono (fun p f hf => hf.imp_right (htagged _)) htagged fun _ _ hheld => hheld
    have hnow (p : P) : Held matchString es p (w.blob p) := passes_last hrun rfl
    have hhad (p : P) (f : FileInfo) (hf : w.Has p f) : Had matchString es p f := by
      obtain ⟨hname, ago, hdescribe⟩ := hf
      refine ⟨passes_last hrun hname, _, fun i => ?_, hdescribe⟩
      rcases mem_seen w p (ago i) with hseen | hseen
      · rw [hseen]
        exact hnow p
      · exact ih.past p _ hseen
    refine (hmore.step ?_ hnow (fun p f hf => hf.2) ?_ hstep).mono (fun p f hf => hf.imp_left (·.append [e]))
      (fun b hb => hb) fun p blob hheld => hheld.append [e]
    · exact fun p f hf => ⟨hhad p f hf, hmore.naming p _ hf.1⟩
    · intro p name metahash he
      exact ⟨p, by simp [he]⟩

end Run

/-- A catalog was true once. Any peers, any interleaving of tags, searches and stores, and packets that come late, more
than once or never: a peer that is in a catalog under a key had something under it in some state of the run, and every
name in a naming store was tagged there or at another peer. -/
theorem catalog_was_true [DecidableEq P] (matchString : String → String → Bool) (es : List (Event P)) (w : World P)
    (hrun : run (step matchString) (.start P) es = some w) :
    (∀ p key q, q ∈ w.catalog p key → Passes (step matchString) (fun v => v.blob q key ≠ none) (.start P) es) ∧
      ∀ p name metahash, (name, metahash) ∈ w.naming p → ∃ q, Event.tag q name metahash ∈ es := by
  have hsound := run_sound hrun
  refine ⟨?_, fun p name metahash hb => hsound.naming p _ hb⟩
  intro p key q hq
  obtain ⟨f, ⟨hhad, -⟩, hkey⟩ := hsound.catalog p key q hq
  exact hhad.blob hkey

/-! ## Two peers and a file of one chunk -/

def reportMetahash : Key := [7]
def reportChunk : Key := [8]

/-- What the peer that has the file says of it. -/
def report : FileInfo := ⟨"report", reportMetahash, [some reportChunk]⟩

/-- No write comes between the reads. -/
def atOnce : Moments := fun _ _ => 0

/-- The other peer looks for the file with `SearchFirst`, and then with `SearchAll`. -/
def searchTwo : List (Event Bool) :=
  [.tag true "report" reportMetahash, .store true reportMetahash (some reportChunk),
    .store true reportChunk (some [1]), .addNeighbor false true,
    .searchFirst false "report" ⟨1, 2, 1⟩ [] atOnce, .ask 0 ⟨[true], 0⟩ 1,
    .request ⟨0, false, "report", 1, false, true⟩ [("report", reportMetahash)] atOnce ⟨[], 0⟩ 0 true,
    .reply ⟨0, true, false, [report]⟩, .receive 0, .found 0,
    .searchAll false "report" 1 [("report", reportMetahash)], .ask 0 ⟨[true], 0⟩ 1,
    .request ⟨1, false, "report", 1, false, true⟩ [("report", reportMetahash)] atOnce ⟨[], 0⟩ 0 true,
    .reply ⟨1, true, false, [report]⟩, .receive 1, .finish 0 ["report"]]

def sameString (pattern name : String) : Bool := pattern == name

theorem searchTwo_catalog : ∃ w, run (step sameString) (.start Bool) searchTwo = some w ∧
    true ∈ w.catalog false reportChunk ∧
    ((∀ p key q, q ∈ w.catalog p key →
        Passes (step sameString) (fun v => v.blob q key ≠ none) (.start Bool) searchTwo) ∧
      ∀ p name metahash, (name, metahash) ∈ w.naming p → ∃ q, Event.tag q name metahash ∈ searchTwo) := by
  have hcheck : (run (step sameString) (.start Bool) searchTwo).any
      (fun w => decide (true ∈ w.catalog false reportChunk)) = true := by
    decide +kernel
  obtain ⟨w, hrun, hw⟩ := (Option.any_eq_true _ _).mp hcheck
  exact ⟨w, hrun, of_decide_eq_true hw, catalog_was_true sameString searchTwo w hrun⟩

/-- What searches return was true once. Any run: the names of `SearchAll` and `SearchFirst` match the pattern, are in
the naming store of the caller, and were tagged somewhere. Of a name that `SearchFirst` returns, some peer knew it and
had the metafile and something under every key in it, each in some state of the run, and when that is not the caller
itself, its catalog sends every key of the file to that peer. -/
theorem searches_were_true [DecidableEq P] (matchString : String → String → Bool) (es : List (Event P)) (w : World P)
    (hrun : run (step matchString) (.start P) es = some w) (a : Answer P) (ha : a ∈ w.answers) (n : String)
    (hn : n ∈ a.names) :
    matchString a.pattern n ∧ (∃ metahash, (n, metahash) ∈ w.naming a.caller) ∧
      (∃ q metahash, Event.tag q n metahash ∈ es) ∧
      (a.first → ∃ source metahash metafile,
        Passes (step matchString) (fun v => (n, metahash) ∈ v.naming source) (.start P) es ∧
        Passes (step matchString) (fun v => v.blob source metahash = some metafile) (.start P) es ∧
        (∀ key ∈ metafile.splitOn metafileSep,
          Passes (step matchString) (fun v => v.blob source key ≠ none) (.start P) es) ∧
        (source = a.caller ∨ ∀ key ∈ metahash :: metafile.splitOn metafileSep, source ∈ w.catalog a.caller key)) := by
  have hsound := run_sound hrun
  obtain ⟨hmatch, ⟨metahash, hbound⟩, hfirst⟩ := hsound.answers a ha n hn
  refine ⟨hmatch, ⟨metahash, hbound⟩, ?_, ?_⟩
  · obtain ⟨q, hq⟩ := hsound.naming a.caller _ hbound
    exact ⟨q, metahash, hq⟩
  · intro hf
    obtain ⟨source, f, rfl, -, hfull, ⟨hhad, -⟩, -, hsource⟩ := hfirst hf
    obtain ⟨hname, reads, hreads, hdescribe⟩ := id hhad
    obtain ⟨metafile, hmetafile, hkeys⟩ := describe_full hdescribe hfull
    have hheld := (hreads 0).passes (Q := fun blob => blob f.metahash = some metafile) hmetafile
    refine ⟨source, f.metahash, metafile, hname, hheld, ?_, ?_⟩
    · intro key hkey
      exact hhad.blob (by rw [hkeys]; exact List.mem_cons_of_mem _ hkey)
    · rw [← hkeys]
      exact hsource.imp_right (·.keys)

theorem searchTwo_answers : ∃ w, run (step sameString) (.start Bool) searchTwo = some w ∧
    w.answers.map (fun a => (a.first, a.names)) = [(true, ["report"]), (false, ["report", "report"])] ∧
    ∀ a ∈ w.answers, ∀ n ∈ a.names, sameString a.pattern n ∧ (∃ metahash, (n, metahash) ∈ w.naming a.caller) ∧
      (∃ q metahash, Event.tag q n metahash ∈ searchTwo) ∧
      (a.first → ∃ source metahash metafile,
        Passes (step sameString) (fun v => (n, metahash) ∈ v.naming source) (.start Bool) searchTwo ∧
        Passes (step sameString) (fun v => v.blob source metahash = some metafile) (.start Bool) searchTwo ∧
        (∀ key ∈ metafile.splitOn metafileSep,
          Passes (step sameString) (fun v => v.blob source key ≠ none) (.start Bool) searchTwo) ∧
        (source = a.caller ∨ ∀ key ∈ metahash :: metafile.splitOn metafileSep, source ∈ w.catalog a.caller key)) := by
  have hcheck : (run (step sameString) (.start Bool) searchTwo).any (fun w => decide
      (w.answers.map (fun a => (a.first, a.names)) = [(true, ["report"]), (false, ["report", "report"])])) = true := by
    decide +kernel
  obtain ⟨w, hrun, hw⟩ := (Option.any_eq_true _ _).mp hcheck
  exact ⟨w, hrun, of_decide_eq_true hw, searches_were_true sameString searchTwo w hrun⟩

end MarketPeer.Catalog
