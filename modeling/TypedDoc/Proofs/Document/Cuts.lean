/-
  TypedDoc.Proofs.Document.Cuts — a document read from two streams of the same bytes that are cut
  differently, whatever codec reads the members as their format has it.

  Streams that are cut differently never give two different documents. They give the same
  result, be it an error, with two exceptions (`read_cuts`).
  - A first read call that has only the first byte of a gzip stream makes it pass for a
    plain one, and reading it fails (`Parted`).
  - In a member whose deflate stream stops short, how much is handed out before that hangs
    on the pieces (`Gzip.unfinished`).
  Both are met (`read_parted`). A stream that ends early gives no other document either
  (`read_of_beginning`).
-/

import TypedDoc.Proofs.Document.Read

namespace TypedDoc

open Wire

/-! ## Streams that deliver bytes -/

namespace Wire.Supply

/-- The bytes, in pieces of any positive sizes, and then the end. -/
structure Delivers (s : Supply) (bs : List UInt8) : Prop where
  flatten : s.pieces.flatten = bs
  nonempty : [] ∉ s.pieces
  parting : s.parting = []
  ending : s.ending = none

/-- The first read call has the first magic byte, and not the second. -/
def Parted (s : Supply) (bs : List UInt8) : Prop := Gzip.magic <+: bs ∧ s.pieces.head? = some [0x1F]

variable {s s' : Supply} {bs : List UInt8}

theorem Delivers.bytes (h : s.Delivers bs) : s.bytes = bs := by
  unfold Supply.bytes
  rw [h.flatten, h.parting, List.append_nil]

theorem Delivers.alike (h : s.Delivers bs) (h' : s'.Delivers bs) : Alike s s' :=
  ⟨h.flatten.trans h'.flatten.symm, h.parting, h'.parting, h.ending.trans h'.ending.symm⟩

theorem delivers_slices (size : Nat) (bs : List UInt8) : (⟨slices size bs, [], none⟩ : Supply).Delivers bs := by
  refine ⟨flatten_slices size bs, ?_, rfl, rfl⟩
  suffices hall : ∀ n bs, bs.length ≤ n → [] ∉ slicesUpTo size n bs from hall _ _ (Nat.le_refl _)
  intro n bs hlen
  fun_induction slicesUpTo size n bs with
  | case1 => exact List.not_mem_nil
  | case2 bs hne => exact absurd (List.eq_nil_of_length_eq_zero (Nat.le_zero.1 hlen)) hne
  | case3 n b rest ih =>
    intro hmem
    rcases List.mem_cons.1 hmem with h | h
    · cases h
    · refine ih ?_ h
      rw [List.length_drop]
      rw [List.length_cons] at hlen
      omega

theorem delivers_cut {n : Nat} (hn : n ≠ 0) (hbs : n < bs.length) :
    (⟨[bs.take n, bs.drop n], [], none⟩ : Supply).Delivers bs := by
  refine ⟨?_, ?_, rfl, rfl⟩
  · rw [List.flatten_cons, List.flatten_singleton, List.take_append_drop]
  · intro hmem
    rcases List.mem_pair.1 hmem with h | h
    · have hlen := congrArg List.length h
      rw [List.length_take, List.length_nil] at hlen
      omega
    · have hlen := congrArg List.length h
      rw [List.length_drop, List.length_nil] at hlen
      omega

theorem delivers_ofBytes (bs : List UInt8) : (ofBytes bs).Delivers bs := delivers_slices _ bs

end Wire.Supply

/-! ## Which envelope they show -/

namespace Envelope

theorem detect_eq_gzip {bs : List UInt8} : detect bs = .gzip ↔ Gzip.magic <+: bs := by
  unfold detect
  rw [List.prefix_iff_eq_take]
  split
  · rename_i h
    exact ⟨fun _ => h.symm, fun _ => rfl⟩
  · rename_i h
    exact ⟨nofun, fun h' => absurd h'.symm h⟩

theorem sniff_of_parted {s : Supply} {bs : List UInt8} (h : s.Parted bs) : sniff s = .ok .plain := by
  obtain ⟨ps, hps⟩ := List.head?_eq_some_iff.1 h.2
  unfold sniff Supply.firstPiece
  rw [hps]
  rfl

theorem sniff_of_delivers {s : Supply} {bs : List UInt8} (hs : s.Delivers bs) (h : ¬s.Parted bs) :
    sniff s = .ok (detect bs) := by
  have hflat := hs.flatten
  unfold sniff Supply.firstPiece
  rw [hs.parting, hs.ending]
  cases hp : s.pieces with
  | nil =>
    rw [hp] at hflat
    rw [← hflat]
    rfl
  | cons p ps =>
    rw [hp, List.flatten_cons] at hflat
    have hprefix : p <+: bs := ⟨ps.flatten, hflat⟩
    refine congrArg Except.ok ?_
    by_cases hm : Gzip.magic <+: bs
    · -- Not parted, the first piece has both magic bytes.
      have hlen : 2 ≤ p.length := by
        match p, hp with
        | [], hp => exact absurd (hp ▸ List.mem_cons_self) hs.nonempty
        | [x], hp =>
          obtain ⟨more, rfl⟩ := hm
          injection hflat with hx
          exact absurd ⟨List.prefix_append _ _, by rw [hp, hx]; rfl⟩ h
        | _ :: _ :: rest, _ => exact Nat.le_add_left 2 rest.length
      rw [List.prefix_iff_eq_take.1 hprefix, detect_take hlen]
    · have hplain : ∀ bs', ¬Gzip.magic <+: bs' → detect bs' = .plain := by
        intro bs' h'
        cases hd : detect bs' with
        | plain => rfl
        | gzip => exact absurd (detect_eq_gzip.1 hd) h'
      rw [hplain p fun h' => hm (h'.trans hprefix), hplain bs hm]

end Envelope

/-! ## What they give -/

namespace Document

variable {codec : Gzip.Conforming} {reg : Registry} {s s' : Supply} {bs : List UInt8}

/-- What is read of a stream is plain, and the stream begins as documents do. -/
theorem value_readPlain_ok {d : Document} (h : (readPlain reg).value s = .ok d) :
    d.envelope = .plain ∧ Header.signature <+: s.bytes := by
  obtain ⟨s', hr⟩ := value_ok.1 h
  obtain ⟨σ, -, rfl, took⟩ := readPlain_ok hr
  have hsignature : Header.signature <+: σ.bytes := by
    unfold Spelling.bytes Header.toBytes
    rw [List.append_assoc]
    exact List.prefix_append _ _
  exact ⟨rfl, hsignature.trans ((List.prefix_append _ _).trans took.held)⟩

/-- No document begins as a gzip stream does. -/
theorem not_magic_of_signature (h : Header.signature <+: bs) : ¬Gzip.magic <+: bs := by
  rintro ⟨more, hmore⟩
  obtain ⟨rest, rfl⟩ := h
  injection hmore with hfirst
  cases hfirst

theorem readBy_of_sniff (codec : Gzip.Codec) {envelope : Envelope} (h : Envelope.sniff s = .ok envelope) :
    readBy codec reg s = ((readPlain reg).value (envelope.unwrapBy codec s)).map fun d => { d with envelope } := by
  rw [readBy_eq, h]
  simp only [Except.bind]
  cases (readPlain reg).value (envelope.unwrapBy codec s) <;> rfl

theorem map_eq_ok {r : Except Error Document} {d : Document} {envelope : Envelope}
    (h : r.map (fun d => { d with envelope }) = .ok d) : ∃ d₀, r = .ok d₀ ∧ d = { d₀ with envelope } := by
  cases r with
  | error e => cases h
  | ok d₀ => cases h; exact ⟨d₀, rfl, rfl⟩

theorem read_of_parted (hs : s.Delivers bs) (h : s.Parted bs) : ∃ e, readBy codec reg s = .error e := by
  cases hr : readBy codec reg s with
  | error e => exact ⟨e, rfl⟩
  | ok d =>
    rw [readBy_of_sniff codec (Envelope.sniff_of_parted h)] at hr
    obtain ⟨d₀, hv, -⟩ := map_eq_ok hr
    exact absurd h.1 (not_magic_of_signature (hs.bytes ▸ (value_readPlain_ok hv).2))

theorem not_parted_of_read {d : Document} (hs : s.Delivers bs) (h : readBy codec reg s = .ok d) : ¬s.Parted bs := by
  intro hp
  obtain ⟨e, he⟩ : ∃ e, readBy codec reg s = .error e := read_of_parted hs hp
  rw [h] at he
  cases he

/-- What is read of a member is read of its contents, as far as they are known, without it. -/
theorem read_contents {d : Document} (hs : s.Delivers bs) (hm : Gzip.magic <+: bs) (h : readBy codec reg s = .ok d) :
    ∃ head packed, bs = head ++ packed ∧ Takes Gzip.header head () ∧ d.envelope = .gzip ∧
      (readPlain reg).value (.ofBytes (Gzip.contents packed)) = .ok { d with envelope := .plain } := by
  have hsniff := Envelope.sniff_of_delivers hs (not_parted_of_read hs h)
  rw [Envelope.detect_eq_gzip.2 hm] at hsniff
  rw [readBy_of_sniff codec hsniff] at h
  obtain ⟨d₀, hv, rfl⟩ := map_eq_ok h
  obtain ⟨hplain, hsignature⟩ := value_readPlain_ok hv
  have hne : (codec.unpack s).bytes ≠ [] := by
    intro hnil
    rw [show (Envelope.gzip.unwrapBy codec s).bytes = [] from hnil] at hsignature
    exact absurd (List.prefix_nil.1 hsignature) (List.cons_ne_nil _ _)
  obtain ⟨head, packed, hflat, takes, hle⟩ := codec.bytes hs.parting hne
  refine ⟨head, packed, hs.flatten.symm.trans hflat, takes, rfl, ?_⟩
  rw [value_of_le (local_readPlain reg) hv hle, ← hplain]

/-- One header ends in one place. -/
theorem header_unique {head head' packed packed' : List UInt8} (h : Takes Gzip.header head ()) (h' : Takes Gzip.header head' ())
    (hbs : head ++ packed = head' ++ packed') : packed = packed' := by
  obtain ⟨body, h1, h2⟩ := Gzip.header_takes h (Supply.flatten_ofBytes (head ++ packed)) rfl
  obtain ⟨body', h1', h2'⟩ := Gzip.header_takes h' ((Supply.flatten_ofBytes (head ++ packed)).trans hbs) rfl
  rw [h1] at h1'
  cases h1'
  rw [← h2, ← h2']

theorem eq_of_plain_eq {d d' : Document} (he : d.envelope = d'.envelope)
    (h : { d with envelope := .plain } = { d' with envelope := .plain }) : d = d' := by
  obtain ⟨header, rootName, entries, modified, envelope⟩ := d
  cases he
  cases h
  rfl

/-- What is read without the magic bytes in front is read without an envelope. -/
theorem read_bare {d : Document} (hs : s.Delivers bs) (hm : ¬Gzip.magic <+: bs) (h : readBy codec reg s = .ok d) :
    Header.signature <+: bs ∧ (readPlain reg).value (.ofBytes bs) = .ok d := by
  have hsniff := Envelope.sniff_of_delivers hs fun hp => hm hp.1
  cases hd : Envelope.detect bs with
  | gzip => exact absurd (Envelope.detect_eq_gzip.1 hd) hm
  | plain =>
    rw [hd] at hsniff
    rw [readBy_of_sniff codec hsniff] at h
    obtain ⟨d₀, hread, rfl⟩ := map_eq_ok h
    have hv : (readPlain reg).value s = .ok d₀ := hread
    obtain ⟨hplain, hsignature⟩ := value_readPlain_ok hv
    rw [hs.bytes] at hsignature
    refine ⟨hsignature, ?_⟩
    rw [value_of_le (local_readPlain reg) hv (by rw [hs.bytes]), ← hplain]

/-- A stream over a beginning of the bytes gives what the whole gives, if both give anything. -/
theorem read_of_beginning {beginning : List UInt8} {d d' : Document} (hs : s.Delivers bs) (hs' : s'.Delivers beginning)
    (hb : beginning <+: bs) (h : readBy codec reg s = .ok d) (h' : readBy codec reg s' = .ok d') : d' = d := by
  by_cases hm : Gzip.magic <+: beginning
  · obtain ⟨head, packed, hbs, takes, he, hv⟩ := read_contents hs (hm.trans hb) h
    obtain ⟨head', packed', hbs', takes', he', hv'⟩ := read_contents hs' hm h'
    obtain ⟨more, rfl⟩ := hb
    have hpacked : packed = packed' ++ more := by
      apply header_unique takes takes'
      rw [← hbs, hbs', List.append_assoc]
    have hle : (Supply.ofBytes (Gzip.contents packed')).bytes <+: Gzip.contents packed := by
      rw [(Supply.delivers_ofBytes _).bytes, hpacked]
      exact Gzip.contents_mono (List.prefix_append _ _)
    rw [value_of_le (local_readPlain reg) hv' hle] at hv
    exact eq_of_plain_eq (he'.trans he.symm) (Except.ok.inj hv)
  · obtain ⟨hsignature, hv'⟩ := read_bare hs' hm h'
    obtain ⟨-, hv⟩ := read_bare hs (not_magic_of_signature (hsignature.trans hb)) h
    have hle : (Supply.ofBytes beginning).bytes <+: bs := by
      rw [(Supply.delivers_ofBytes _).bytes]
      exact hb
    rw [value_of_le (local_readPlain reg) hv' hle] at hv
    exact Except.ok.inj hv

/-- The same bytes, cut differently, whatever reads the members. A gzip stream shows as one
    unless the first read call parts its magic bytes, and then it cannot be read. Otherwise
    both streams give the same, if no deflate stream stops short, and they never give two
    different documents. -/
theorem read_cuts (codec : Gzip.Conforming) (reg : Registry) (hs : s.Delivers bs) (hs' : s'.Delivers bs) :
    (Envelope.sniff s = .ok (Envelope.detect bs) ↔ ¬s.Parted bs) ∧
      (s.Parted bs → ∃ e, readBy codec reg s = .error e) ∧
      (¬s.Parted bs → ¬s'.Parted bs → (Gzip.magic <+: bs → Gzip.unfinished bs = false) → readBy codec reg s = readBy codec reg s') ∧
      ∀ d d', readBy codec reg s = .ok d → readBy codec reg s' = .ok d' → d = d' := by
  refine ⟨⟨fun h hp => ?_, Envelope.sniff_of_delivers hs⟩, read_of_parted hs, fun hp hp' hu => ?_, fun d d' h h' =>
    read_of_beginning hs' hs (List.prefix_refl _) h' h⟩
  · rw [Envelope.sniff_of_parted hp, Envelope.detect_eq_gzip.2 hp.1] at h
    cases h
  · have hunwrap : Alike ((Envelope.detect bs).unwrapBy codec s) ((Envelope.detect bs).unwrapBy codec s') := by
      cases hd : Envelope.detect bs with
      | plain => exact hs.alike hs'
      | gzip => exact codec.alike (hs.alike hs') hs.ending (by rw [hs.flatten]; exact hu (Envelope.detect_eq_gzip.1 hd))
    rw [readBy_of_sniff codec (Envelope.sniff_of_delivers hs hp), readBy_of_sniff codec (Envelope.sniff_of_delivers hs' hp'),
      (blind_readPlain reg).value hunwrap]

set_option maxRecDepth 4000 in
/-- An empty document in a member, whole and cut behind its magic bytes. -/
theorem read_cuts_magic :
    let bs : List UInt8 := Gzip.pack [0x4D, 0x4F, 0x42, 0x46, 1, 1, 0, 0, 1, 0, 0, 0, 0, 0]
    let d : Document := ⟨.standard, "", [], false, .gzip⟩
    let s : Supply := ⟨[bs.take 2, bs.drop 2], [], none⟩
    s.Delivers bs ∧ ofBytes bs = .ok d ∧ read .standard s = .ok d := by
  intro bs d s
  have hs : s.Delivers bs := Supply.delivers_cut (by decide) (by decide)
  have hb : (Supply.ofBytes bs).Delivers bs := Supply.delivers_ofBytes bs
  have hu : Gzip.unfinished bs = false := by cbv
  have hd : ofBytes bs = .ok d := by cbv
  obtain ⟨-, -, hsame, -⟩ := read_cuts .stored .standard hs hb
  refine ⟨hs, hd, (hsame ?_ ?_ fun _ => hu).trans hd⟩
  · intro hp
    cases hp.2
  · intro hp
    cases hp.2

set_option maxRecDepth 4000 in
/-- The same member, its first byte by itself, is refused; and of a member whose second
    block is no block, the document in the first one is read if a piece ends behind it. -/
theorem read_parted :
    let doc : List UInt8 := [0x4D, 0x4F, 0x42, 0x46, 1, 1, 0, 0, 1, 0, 0, 0, 0, 0]
    let d : Document := ⟨.standard, "", [], false, .gzip⟩
    let damaged : List UInt8 := Gzip.plainHeader ++ Gzip.stored false doc ++ [7, 0, 0, 0, 0, 0, 0, 0, 0]
    let cut (n : Nat) (bs : List UInt8) : Supply := ⟨[bs.take n, bs.drop n], [], none⟩
    ((cut 1 (Gzip.pack doc)).Delivers (Gzip.pack doc) ∧ ofBytes (Gzip.pack doc) = .ok d ∧
        read .standard (cut 1 (Gzip.pack doc)) = .error (.badSignature Header.signature [0x1F, 0x8B, 8, 0])) ∧
      (cut 29 damaged).Delivers damaged ∧ read .standard (cut 29 damaged) = .ok d ∧ ofBytes damaged = .error (.damaged .contents) := by
  intro doc d damaged cut
  have hparted : (cut 1 (Gzip.pack doc)).Delivers (Gzip.pack doc) := Supply.delivers_cut (by decide) (by decide)
  have hcut : (cut 29 damaged).Delivers damaged := Supply.delivers_cut (by decide) (by decide)
  exact ⟨⟨hparted, by cbv, by cbv⟩, hcut, by cbv, by cbv⟩

end Document

end TypedDoc
