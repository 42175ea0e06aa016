/-
  TypedDoc.Proofs.Host.Draft — where a draft of a source stands, and what its end shows.

  A draft of a file and the other drafts of it have one file. `Of` says where a draft
  stands: while nobody else has touched that file, the path of the drafts leads to it, and
  it holds what has gone there. So it does not show (`Of.shown_eq_false`), and if it gets
  the path, all that was written does (`Of.pending_eq`). Of a draft whose file was touched
  it is known what its bytes do (`Of.content_sent`) and what gets the path if it is
  committed (`Of.content_publish`).

  A draft that was just opened stands so, and opening shows nothing (`Source.openWrite_ok`).
-/

import TypedDoc.Proofs.Host.Source
import TypedDoc.Proofs.Host.Writing

namespace TypedDoc

open Wire Host

/-! ## Where a draft stands -/

namespace Draft

variable {s : Source} {h h' : Host} {w w' : Draft} {touched : Bool} {e : Error}

/-- A draft of a source, in a host where it was opened. While its file was not touched, the
    path of the drafts leads there, and it holds what has gone there. -/
def Of (s : Source) (touched : Bool) (h : Host) (w : Draft) : Prop :=
  w.Sound ∧
    match s with
    | .cell name => w.goal = .cell name
    | .file p => ∃ place id, w.goal = .file p.ofDraft p id ∧
        Directory.landing h.directory.folders [] p.ofDraft.steps = some place ∧ p.ofDraft.endsInSlash = false ∧
        (touched = false → h.directory.files.lookup place = some id ∧ h.directory.content id = w.gone)

/-- The file that the path leads to is that of the draft. -/
def shown (w : Draft) (h : Host) : Bool :=
  match w.goal with
  | .cell _ => false
  | .file _ p id => h.directory.shows p id

/-- What is seen once the next bytes of the draft have gone to its file. -/
def seen (w : Draft) (h : Host) (bs : List UInt8) (content : Option (List UInt8)) : Option (List UInt8) :=
  if w.shown h then content.map (Directory.patch w.passed bs) else content

/-- What of the bytes held back there is room for. -/
def fitting (w : Draft) (h : Host) : List UInt8 :=
  match w.goal with
  | .cell _ => []
  | .file .. => w.held.take (h.directory.space w.passed w.held.length)

/-- What a commit makes the content: all that was written to a cell, or whatever is found
    where the drafts of the file are, with the last bytes in it if that is where they go. -/
def pending (w : Draft) (h : Host) : Option (List UInt8) :=
  match w.goal with
  | .cell _ => some w.written
  | .file draft _ id =>
    let found := h.directory.contentAt draft
    if h.directory.shows draft id then found.map (Directory.patch w.passed (w.fitting h)) else found

theorem Of.cell {name : String} (ho : w.Of (.cell name) touched h) : w.goal = .cell name := ho.2

/-- While it was not touched, the file of a draft is where the drafts are, with what went there. -/
theorem Of.locate {p : FilePath} (ho : w.Of (.file p) false h) : ∃ place id, w.goal = .file p.ofDraft p id ∧
    h.directory.locate p.ofDraft = .ok (.file place id) ∧ h.directory.content id = w.gone := by
  obtain ⟨-, place, id, hg, hl, hslash, hkept⟩ := ho
  obtain ⟨hlookup, hcontent⟩ := hkept rfl
  refine ⟨place, id, hg, ?_, hcontent⟩
  rw [Directory.locate_of_landing hl hslash]
  unfold Directory.spotAt
  rw [hlookup]

theorem Of.shown_eq_false (ho : w.Of s false h) : w.shown h = false := by
  unfold shown
  cases s with
  | cell name => rw [ho.cell]
  | file p =>
    obtain ⟨-, place, id, hg, hl, -, hkept⟩ := ho
    rw [hg]
    exact Directory.shows_eq_false (hkept rfl).1 (Source.landing_ne_draft hl)

theorem Of.seen_eq (ho : w.Of s false h) (bs : List UInt8) (content : Option (List UInt8)) : w.seen h bs content = content := by
  unfold seen
  rw [ho.shown_eq_false]
  rfl

theorem seen_nil (w : Draft) (h : Host) (content : Option (List UInt8)) : w.seen h [] content = content := by
  have hpatch : Directory.patch w.passed [] = id := funext fun old => Directory.patch_nil w.passed old
  unfold seen
  split
  · rw [hpatch, Option.map_id]
    rfl
  · rfl

/-! ### Bytes that go to the file -/

theorem Of.content_sent (ho : w.Of s touched h) (bs : List UInt8) : s.content (w.sent bs h) = w.seen h bs (s.content h) := by
  unfold seen shown
  cases s with
  | cell name => rw [sent_cell ho.cell, ho.cell]; rfl
  | file p =>
    obtain ⟨-, place, id, hg, -⟩ := ho
    rw [sent_file hg, hg]
    exact Directory.contentAt_overlay h.directory id w.passed bs p

theorem faults_sent (s : Source) (w : Draft) (bs : List UInt8) (h : Host) : s.faults (w.sent bs h) = s.faults h := by
  unfold sent
  cases w.goal <;> cases s <;> rfl

theorem folders_sent (w : Draft) (bs : List UInt8) (h : Host) : (w.sent bs h).directory.folders = h.directory.folders := by
  unfold sent
  cases w.goal <;> rfl

theorem Of.goes {bs : List UInt8} (ho : w.Of s touched h) (hg : Goes bs (w, h) (w', h')) : w'.Of s touched h' := by
  refine ⟨hg.sound ho.1, ?_⟩
  have hhost : h' = w.sent bs h := hg.host
  cases s with
  | cell name => exact hg.goal.trans ho.cell
  | file p =>
    obtain ⟨hsound, place, id, hgoal, hl, hslash, hkept⟩ := ho
    rw [hhost, sent_file hgoal]
    refine ⟨place, id, hg.goal.trans hgoal, hl, hslash, fun ht => ?_⟩
    obtain ⟨hlookup, hcontent⟩ := hkept ht
    refine ⟨hlookup, ?_⟩
    have hheld := h.directory.held _ (Directory.lookup_iff.1 hlookup)
    show (h.directory.overlay id w.passed bs).content id = w'.gone
    rw [Directory.content_overlay_self hheld, hcontent, ← hsound.gone, Directory.patch_end]
    exact hg.gone.symm

/-- What another draft sends leaves this one where it was, but that its file was touched. -/
theorem Of.sent (ho : w.Of s touched h) (w' : Draft) (bs : List UInt8) : w.Of s true (w'.sent bs h) := by
  cases s with
  | cell name => exact ho
  | file p =>
    obtain ⟨hs, place, id, hg, hl, hslash, -⟩ := ho
    exact ⟨hs, place, id, hg, by rw [folders_sent]; exact hl, hslash, nofun⟩

/-! ### The end of a draft -/

theorem goes_fitting {draft p : FilePath} {id : Nat} (hg : w.goal = .file draft p id) (h : Host) :
    Goes (w.fitting h) (w, h) (pass id (w, h)) := by
  have hfitting : w.fitting h = w.held.take (h.directory.space w.passed w.held.length) := by
    unfold fitting
    rw [hg]
  rw [hfitting]
  exact goes_pass (w, h) hg

theorem remove_cell {name : String} (hg : w.goal = .cell name) (h : Host) : w.remove h = h := by
  unfold remove
  rw [hg]

theorem remove_file {draft p : FilePath} {id : Nat} (hg : w.goal = .file draft p id) (h : Host) :
    w.remove h = { h with directory := h.directory.unlink draft } := by
  unfold remove
  rw [hg]

theorem discard_eq (w : Draft) (h : Host) : w.discard h = w.remove (w.sent (w.fitting h) h) := by
  unfold discard
  cases hg : w.goal with
  | cell name => rw [sent_cell hg, remove_cell hg]
  | file draft p id => exact congrArg w.remove (goes_fitting hg h).host

theorem Of.content_remove (ho : w.Of s touched h) : s.content (w.remove h) = s.content h := by
  cases s with
  | cell name => rw [remove_cell ho.cell]
  | file p =>
    obtain ⟨-, place, id, hg, hl, hslash, -⟩ := ho
    have hcontent := Directory.contentAt_unlink hl hslash (Source.landing_ne_draft hl)
    rw [remove_file hg, Source.content_file, Source.content_file, ← hcontent]

theorem faults_remove (s : Source) (w : Draft) (h : Host) : s.faults (w.remove h) = s.faults h := by
  cases hg : w.goal with
  | cell name => rw [remove_cell hg]
  | file draft p id =>
    rw [remove_file hg]
    cases s with
    | cell name => rfl
    | file q =>
      show (h.directory.unlink draft).faults = h.directory.faults
      unfold Directory.unlink
      split <;> rfl

/-- Others are where they were once this draft's file is taken away, but that theirs was touched. -/
theorem Of.remove (ho : w.Of s touched h) (w' : Draft) : w.Of s true (w'.remove h) := by
  cases s with
  | cell name => exact ho
  | file p =>
    obtain ⟨hs, place, id, hg, hl, hslash, -⟩ := ho
    have hfolders : (w'.remove h).directory.folders = h.directory.folders := by
      cases hg' : w'.goal with
      | cell name => rw [remove_cell hg']
      | file draft p id =>
        rw [remove_file hg']
        exact Directory.folders_unlink _ _
    exact ⟨hs, place, id, hg, by rw [hfolders]; exact hl, hslash, nofun⟩

/-- Giving a draft up does not show but for the bytes held back. -/
theorem Of.content_discard (ho : w.Of s touched h) : s.content (w.discard h) = w.seen h (w.fitting h) (s.content h) := by
  rw [discard_eq, ← ho.content_sent]
  exact Of.content_remove (ho.sent w _)

theorem Of.discard (ho : w.Of s touched h) (w' : Draft) : w.Of s true (w'.discard h) := by
  rw [discard_eq]
  exact (ho.sent w' _).remove w'

theorem publish_cell {name : String} (hg : w.goal = .cell name) (h : Host) : w.publish h =
    match (h.cell name).commit w.written with
    | .error e => .error e h
    | .ok c => .ok () (h.setCell name c) := by
  obtain ⟨goal, sink, passed⟩ := w
  obtain rfl : goal = .cell name := hg
  rfl

theorem publish_file {draft p : FilePath} {id : Nat} (hg : w.goal = .file draft p id) (h : Host) : w.publish h =
    if (pass id (w, h)).1.held = [] then onDirectory (·.persist draft p) (w.sent (w.fitting h) h)
    else .error w.sink.full (w.sent (w.fitting h) h) := by
  have hsent : (pass id (w, h)).2 = w.sent (w.fitting h) h := (goes_fitting hg h).host
  unfold publish
  rw [hg]
  dsimp only
  rw [passAll_eq, ← hsent]
  by_cases hheld : (pass id (w, h)).1.held = []
  · rw [if_pos hheld, if_pos hheld]
  · rw [if_neg hheld, if_neg hheld]

/-- Nothing is published, be it that the last bytes have gone to the file. -/
theorem publish_error (hp : w.publish h = .error e h') : h' = w.sent (w.fitting h) h := by
  cases hg : w.goal with
  | cell name =>
    rw [publish_cell hg] at hp
    rw [sent_cell hg]
    split at hp
    · cases hp; rfl
    · cases hp
  | file draft p id =>
    rw [publish_file hg] at hp
    split at hp
    · exact onDirectory_error hp
    · cases hp; rfl

theorem publish_ok_cell {name : String} (hg : w.goal = .cell name) (hp : w.publish h = .ok () h') :
    h' = h.setCell name { h.cell name with content := some w.written } := by
  rw [publish_cell hg] at hp
  unfold Cell.commit at hp
  cases hf : (h.cell name).faults.commit with
  | some e => rw [hf] at hp; cases hp
  | none => rw [hf] at hp; cases hp; rfl

theorem publish_ok_file {draft p : FilePath} {id : Nat} (hg : w.goal = .file draft p id) (hp : w.publish h = .ok () h') :
    (pass id (w, h)).1.held = [] ∧ ∃ d, (w.sent (w.fitting h) h).directory.rename draft p = .ok d ∧
      h' = { w.sent (w.fitting h) h with directory := d } := by
  rw [publish_file hg] at hp
  split at hp
  · rename_i hheld
    obtain ⟨d, hd, rfl⟩ := onDirectory_ok hp
    exact ⟨hheld, d, Directory.persist_ok hd, rfl⟩
  · cases hp

theorem Of.content_publish (ho : w.Of s touched h) (hp : w.publish h = .ok () h') : s.content h' = w.pending h := by
  unfold pending
  cases s with
  | cell name =>
    rw [publish_ok_cell ho.cell hp, ho.cell]
    show ((h.setCell name _).cell name).content = _
    rw [Host.cell_setCell]
  | file p =>
    obtain ⟨-, place, id, hg, -⟩ := ho
    obtain ⟨-, d, hr, rfl⟩ := publish_ok_file hg hp
    rw [hg]
    show d.contentAt p = _
    rw [Directory.contentAt_rename hr, sent_file hg]
    exact Directory.contentAt_overlay _ id w.passed _ p.ofDraft

/-- While its file was not touched, all that was written to a draft is what a commit shows. -/
theorem Of.pending_eq (ho : w.Of s false h) (hp : w.publish h = .ok () h') : w.pending h = some w.written := by
  unfold pending
  cases s with
  | cell name => rw [ho.cell]
  | file p =>
    have hs := ho.1
    obtain ⟨place, id, hg, hloc, hcontent⟩ := ho.locate
    obtain ⟨hheld, -⟩ := publish_ok_file hg hp
    have hshows : h.directory.shows p.ofDraft id = true := by
      unfold Directory.shows
      rw [hloc]
      exact decide_eq_true rfl
    have hfound : h.directory.contentAt p.ofDraft = some w.gone := by
      unfold Directory.contentAt
      rw [hloc, ← hcontent]
    rw [hg]
    dsimp only
    rw [if_pos hshows, hfound, ← hs.gone, Option.map_some, Directory.patch_end]
    exact congrArg some ((goes_fitting hg h).gone.symm.trans (gone_of_held hheld))

theorem Of.faults_publish (ho : w.Of s touched h) (hp : w.publish h = .ok () h') : s.faults h' = s.faults h := by
  cases s with
  | cell name =>
    rw [publish_ok_cell ho.cell hp]
    show ((h.setCell name _).cell name).faults = _
    rw [Host.cell_setCell]
    rfl
  | file p =>
    obtain ⟨-, place, id, hg, -⟩ := ho
    obtain ⟨-, d, hr, rfl⟩ := publish_ok_file hg hp
    obtain ⟨_, _, _, _, _, rfl, -⟩ := Directory.rename_ok hr
    exact faults_sent (.file p) w _ h

/-- Others are where they were once this draft got the path, but that their file was touched. -/
theorem Of.publish (ho : w.Of s touched h) (hp : w'.publish h = .ok () h') : w.Of s true h' := by
  cases s with
  | cell name => exact ho
  | file p =>
    obtain ⟨hs, place, id, hg, hl, hslash, -⟩ := ho
    refine ⟨hs, place, id, hg, ?_, hslash, nofun⟩
    have hfolders : h'.directory.folders = h.directory.folders := by
      cases hg' : w'.goal with
      | cell name =>
        rw [publish_ok_cell hg' hp]
        rfl
      | file draft q id' =>
        obtain ⟨-, d, hr, rfl⟩ := publish_ok_file hg' hp
        obtain ⟨_, _, _, _, _, rfl, -⟩ := Directory.rename_ok hr
        exact folders_sent w' _ h
    rw [hfolders]
    exact hl

/-! ### Commits -/

/-- The commit of a cell has nothing left to do once it shows. -/
theorem Of.settleFault_of_cell (ho : w.Of s touched h) (hs : s.shared = false) (h' : Host) : w.settleFault h' = none := by
  unfold settleFault
  cases s with
  | cell name => rw [ho.cell]
  | file p => cases hs

theorem commit_ok (hc : w.commit h = .ok () h') : w.publish h = .ok () h' ∧ w.settleFault h' = none := by
  unfold commit at hc
  split at hc
  · cases hc
  · rename_i h₁ hp
    split at hc
    · rename_i hs
      cases hc
      exact ⟨hp, hs⟩
    · cases hc

/-- A commit that fails takes the file of the draft away, whether it has the path by then or not. -/
theorem commit_error (hc : w.commit h = .error e h') :
    (w.publish h = .error e (w.sent (w.fitting h) h) ∧ h' = w.discard h) ∨
      ∃ h₁, w.publish h = .ok () h₁ ∧ w.settleFault h₁ = some e ∧ h' = w.remove h₁ := by
  unfold commit at hc
  split at hc
  · rename_i e₁ h₁ hp
    cases hc
    have hh := publish_error hp
    subst hh
    exact Or.inl ⟨hp, (discard_eq w h).symm⟩
  · rename_i h₁ hp
    split at hc
    · cases hc
    · rename_i e₁ hs
      cases hc
      exact Or.inr ⟨h₁, hp, hs, rfl⟩

end Draft

/-! ## Opening -/

namespace Source

variable {s : Source} {h h' : Host} {w : Draft} {touched : Bool} {e : Error}

theorem openWrite_error (ho : s.openWrite h = .error e h') : h' = h := by
  unfold openWrite at ho
  cases s with
  | cell name =>
    simp only at ho
    split at ho
    · cases ho; rfl
    · cases ho
  | file p =>
    simp only at ho
    split at ho
    · cases ho; rfl
    · cases ho

theorem content_openWrite (ho : s.openWrite h = .error e h') : s.content h' = s.content h := by
  rw [openWrite_error ho]

/-- What opening a draft of a file did. -/
theorem openWrite_file {p : FilePath} (ho : (Source.file p).openWrite h = .ok w h') :
    ∃ place id d, w = ⟨.file p.ofDraft p id, .unlimited, 0⟩ ∧ h' = { h with directory := d } ∧
      Directory.landing h.directory.folders [] p.ofDraft.steps = some place ∧ p.ofDraft.endsInSlash = false ∧
      Directory.Drafted h.directory place id d := by
  unfold openWrite at ho
  simp only at ho
  split at ho
  · cases ho
  · rename_i id d hc
    obtain ⟨place, hl, hs, hd⟩ := Directory.create_ok hc
    cases ho
    exact ⟨place, id, d, rfl, rfl, hl, hs, hd⟩

theorem openWrite_cell {name : String} (ho : (Source.cell name).openWrite h = .ok w h') :
    ∃ sink, (h.cell name).openWrite = .ok sink ∧ w = ⟨.cell name, sink, 0⟩ ∧ h' = h := by
  unfold openWrite at ho
  simp only at ho
  split at ho
  · cases ho
  · rename_i sink hc
    cases ho
    exact ⟨sink, hc, rfl, rfl⟩

/-- A draft that was just opened has nothing in it, and nothing shows of it. -/
theorem openWrite_ok (ho : s.openWrite h = .ok w h') :
    w.Of s false h' ∧ w.written = [] ∧ s.content h' = s.content h ∧ s.faults h' = s.faults h ∧ s.clear h' = s.clear h := by
  cases s with
  | cell name =>
    obtain ⟨sink, hsink, rfl, rfl⟩ := openWrite_cell ho
    have hwritten : sink.written = #[] := by
      unfold Cell.openWrite at hsink
      split at hsink
      · cases hsink
      · cases hsink; rfl
    refine ⟨⟨⟨rfl, fun _ _ => rfl⟩, rfl⟩, ?_, rfl, rfl, rfl⟩
    unfold Draft.written
    rw [hwritten]
  | file p =>
    obtain ⟨place, id, d, rfl, rfl, hl, hs, hd⟩ := openWrite_file ho
    refine ⟨⟨⟨rfl, fun _ _ => rfl⟩, place, id, rfl, ?_, hs, fun _ => ⟨hd.here, hd.content⟩⟩, rfl, ?_, hd.faults,
      clear_congr hd.folders⟩
    · rw [hd.folders]; exact hl
    · exact hd.contentAt (landing_ne_draft hl)

end Source

namespace Draft

variable {s : Source} {h h' : Host} {w w' : Draft} {touched : Bool} {e : Error}

/-- Another draft is opened: the file is emptied, which does not touch drafts of which
    nothing has gone there. -/
theorem Of.openWrite (ho : w.Of s touched h) (hw : s.openWrite h = .ok w' h') :
    w.Of s (touched || decide (w.passed ≠ 0)) h' := by
  cases s with
  | cell name => exact ho
  | file p =>
    obtain ⟨hs, place, id, hg, hl, hslash, hkept⟩ := ho
    obtain ⟨place', id', d, -, rfl, hl', -, hd⟩ := Source.openWrite_file hw
    have heq : place' = place := Option.some.inj (hl'.symm.trans hl)
    subst heq
    refine ⟨hs, place', id, hg, ?_, hslash, fun ht => ?_⟩
    · show Directory.landing d.folders [] p.ofDraft.steps = some place'
      rw [hd.folders]
      exact hl
    · obtain ⟨htouched, hpassed⟩ := Bool.or_eq_false_iff.1 ht
      have hpassed : w.passed = 0 := Decidable.not_not.1 (of_decide_eq_false hpassed)
      have hid : id' = id := by
        rcases hd.known with hknown | ⟨hnone, -⟩
        · exact Option.some.inj (hknown.symm.trans (hkept htouched).1)
        · rw [(hkept htouched).1] at hnone
          cases hnone
      subst hid
      refine ⟨hd.here, hd.content.trans ?_⟩
      unfold gone
      rw [hpassed, List.take_zero]

/-! ### The faults stay -/

theorem faults_discard (s : Source) (w : Draft) (h : Host) : s.faults (w.discard h) = s.faults h := by
  rw [discard_eq, faults_remove, faults_sent]

theorem Of.faults_commit (ho : w.Of s touched h) : s.faults (left (w.commit h)) = s.faults h := by
  cases hc : w.commit h with
  | ok _ h' => exact ho.faults_publish (commit_ok hc).1
  | error e h' =>
    rcases commit_error hc with ⟨-, rfl⟩ | ⟨h₁, hp, -, rfl⟩
    · exact faults_discard s w h
    · exact (faults_remove s w h₁).trans (ho.faults_publish hp)

end Draft

end TypedDoc
