/-
  TypedDoc.Proofs.Host.Begun — sources of which one draft is open at a time.

  Nothing shows before a commit (`Begun.goes`). Giving the draft up leaves the content, and
  so does a commit that fails, unless it fails only once it shows; one that succeeds makes
  all that was written the content. Where nothing is in the way a draft can be opened, takes
  all bytes, and is committed (`begun_of_accepts`, `Begun.commit_of_accepts`).
-/

import TypedDoc.Proofs.Host.Draft

namespace TypedDoc

open Wire Host

namespace Source

variable {s : Source} {h h' h'' : Host} {w w' : Draft} {e : Error}

/-- A draft was opened in one host, and nothing else has happened since. -/
structure Begun (s : Source) (h : Host) (w : Draft) (h' : Host) : Prop where
  of : w.Of s false h'
  content : s.content h' = s.content h
  faults : s.faults h' = s.faults h
  clear : s.clear h' = s.clear h

theorem begun_openWrite (ho : s.openWrite h = .ok w h') : s.Begun h w h' := by
  obtain ⟨hof, -, hcontent, hfaults, hclear⟩ := openWrite_ok ho
  exact ⟨hof, hcontent, hfaults, hclear⟩

namespace Begun

/-- Whatever is written. -/
theorem goes {bs : List UInt8} (hb : s.Begun h w h') (hg : Draft.Goes bs (w, h') (w', h'')) : s.Begun h w' h'' := by
  have hhost : h'' = w.sent bs h' := hg.host
  refine ⟨hb.of.goes hg, ?_, ?_, ?_⟩
  · rw [hhost, hb.of.content_sent, hb.of.seen_eq, hb.content]
  · rw [hhost, Draft.faults_sent, hb.faults]
  · rw [hhost, clear_congr (Draft.folders_sent w bs h'), hb.clear]

theorem content_discard (hb : s.Begun h w h') : s.content (w.discard h') = s.content h := by
  rw [hb.of.content_discard, hb.of.seen_eq, hb.content]

theorem content_commit (hb : s.Begun h w h') (hc : w.commit h' = .ok () h'') : s.content h'' = some w.written := by
  obtain ⟨hp, -⟩ := Draft.commit_ok hc
  rw [hb.of.content_publish hp, hb.of.pending_eq hp]

theorem settleFault_eq_none (hb : s.Begun h w h') (hs : s.settles h = true) (hp : w.publish h' = .ok () h'') :
    w.settleFault h'' = none := by
  cases s with
  | cell name => exact hb.of.settleFault_of_cell rfl h''
  | file p =>
    unfold Draft.settleFault
    obtain ⟨-, place, id, hg, -⟩ := hb.of
    have hfaults : h''.directory.faults = h.directory.faults := (hb.of.faults_publish hp).trans hb.faults
    rw [hg, hfaults]
    unfold settles at hs
    rcases Bool.or_eq_true_iff.1 hs with hfolder | hsettle
    · exact if_neg (Bool.eq_false_iff.1 (Bool.not_eq_true' _ ▸ hfolder))
    · dsimp only
      split
      · exact Option.isNone_iff_eq_none.1 hsettle
      · rfl

/-- A commit that fails has shown nothing, or all, and the latter only after it got that far. -/
theorem content_commit_error (hb : s.Begun h w h') (hc : w.commit h' = .error e h'') :
    s.content h'' = s.content h ∨ s.settles h = false ∧ s.content h'' = some w.written := by
  rcases Draft.commit_error hc with ⟨-, rfl⟩ | ⟨h₁, hp, hsettle, rfl⟩
  · exact Or.inl hb.content_discard
  · refine Or.inr ⟨?_, ?_⟩
    · refine Bool.eq_false_iff.2 fun hs => ?_
      rw [hb.settleFault_eq_none hs hp] at hsettle
      cases hsettle
    · rw [(hb.of.publish hp).content_remove, hb.of.content_publish hp, hb.of.pending_eq hp]

end Begun

/-! ## Where nothing is in the way -/

theorem begun_of_accepts (ha : s.accepts h = true) :
    ∃ w h', s.openWrite h = .ok w h' ∧ Draft.Roomy (w, h') := by
  obtain ⟨hopen, hroom, hflush, -, -, hclear⟩ := accepts_iff.1 ha
  cases s with
  | cell name =>
    have hopen : (h.cell name).faults.openWrite = none := hopen
    have hroom : (h.cell name).faults.room = none := hroom
    have hflush : (h.cell name).faults.flush = none := hflush
    refine ⟨⟨.cell name, .unlimited, 0⟩, h, ?_, rfl, rfl⟩
    unfold openWrite Cell.openWrite
    simp only [hopen, hroom, hflush]
    rfl
  | file p =>
    have hdraft : h.directory.accepts p.ofDraft = true := (Bool.and_eq_true_iff.1 hclear).2
    obtain ⟨id, d, hc⟩ := Directory.create_of_accepts hdraft hopen
    obtain ⟨_, _, _, hd⟩ := Directory.create_ok hc
    refine ⟨⟨.file p.ofDraft p id, .unlimited, 0⟩, { h with directory := d }, ?_, ?_⟩
    · unfold openWrite
      simp only [hc]
    · show d.faults.room = none ∧ d.faults.flush = none
      rw [hd.faults]
      exact ⟨hroom, hflush⟩

namespace Begun

theorem publish_of_accepts (hb : s.Begun h w h') (ha : s.accepts h = true) : ∃ h'', w.publish h' = .ok () h'' := by
  obtain ⟨-, hroom, -, hcommit, -, hclear⟩ := accepts_iff.1 ha
  rw [← hb.faults] at hroom hcommit
  rw [← hb.clear] at hclear
  cases s with
  | cell name =>
    have hcommit : (h'.cell name).faults.commit = none := hcommit
    rw [Draft.publish_cell hb.of.cell]
    unfold Cell.commit
    rw [hcommit]
    exact ⟨_, rfl⟩
  | file p =>
    obtain ⟨place, id, hg, hlocate, -⟩ := hb.of.locate
    have hheld : (Draft.pass id (w, h')).1.held = [] := Draft.held_pass (w, h') hroom
    have haccepts : h'.directory.accepts p = true := (Bool.and_eq_true_iff.1 hclear).1
    rw [Draft.publish_file hg, if_pos hheld, Draft.sent_file hg]
    generalize hd : h'.directory.overlay id w.passed (w.fitting h') = d
    have hfolders : d.folders = h'.directory.folders := by rw [← hd]; rfl
    have hfaults : d.faults = h'.directory.faults := by rw [← hd]; rfl
    have hlocate' : d.locate p.ofDraft = .ok (.file place id) := by rw [← hd, Directory.locate_overlay, hlocate]
    obtain ⟨d', hr⟩ := Directory.rename_of_accepts hlocate' ((Directory.accepts_congr hfolders p).trans haccepts)
    have hcommit' : d.faults.commit = none := (congrArg Faults.commit hfaults).trans hcommit
    exact ⟨_, Host.onDirectory_of_ok ((Directory.persist_of_none hcommit' _ _).trans hr)⟩

theorem commit_of_accepts (hb : s.Begun h w h') (ha : s.accepts h = true) : ∃ h'', w.commit h' = .ok () h'' := by
  obtain ⟨-, -, -, -, hsettles, -⟩ := accepts_iff.1 ha
  obtain ⟨h'', hp⟩ := hb.publish_of_accepts ha
  refine ⟨h'', ?_⟩
  unfold Draft.commit
  rw [hp]
  dsimp only
  rw [hb.settleFault_eq_none hsettles hp]

end Begun

end Source

end TypedDoc
