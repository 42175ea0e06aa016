/-
  TypedDoc.Proofs.Document.Read — documents in whatever envelope, read through whatever
  stream and by whatever codec.

  What one stream over some bytes gave, a stream without faults over the same bytes gives
  again (`readBy_ok`), unless they are a gzip member whose deflate stream never ends.

  Without an envelope neither the cuts of a stream (`blind_readPlain`) nor what it holds
  behind the document (`local_readPlain`) show in what is read.
-/

import TypedDoc.Proofs.Document.Canonical
import TypedDoc.Proofs.Gzip.Codec
import TypedDoc.Proofs.Value.Budget

namespace TypedDoc

open Wire

/-! ## Envelopes -/

namespace Envelope

theorem detect_take {bs : List UInt8} {n : Nat} (hn : 2 ≤ n) : detect (bs.take n) = detect bs := by
  unfold detect
  rw [List.take_take, Nat.min_eq_left hn]

theorem sniff_ofBytes (bs : List UInt8) : sniff (.ofBytes bs) = .ok (detect bs) := by
  unfold sniff
  rw [Supply.firstPiece_ofBytes]
  exact congrArg Except.ok (detect_take (by decide))

/-- What shows as a member is one. -/
theorem detect_gzip_mono {p bs : List UInt8} (h : p <+: bs) (hp : detect p = .gzip) : detect bs = .gzip := by
  obtain ⟨more, rfl⟩ := h
  unfold detect at hp ⊢
  split at hp
  · rename_i hm
    have hlen : 2 ≤ p.length := by
      have := congrArg List.length hm
      rw [List.length_take] at this
      have hmagic : Gzip.magic.length = 2 := rfl
      omega
    rw [List.take_append_of_le_length hlen, if_pos hm]
  · cases hp

end Envelope

/-! ## What is left of a document -/

namespace Payload

theorem collapse_clearModified (p : Payload) : p.clearModified.collapse = p.collapse := by
  induction p using Payload.tree_induction with
  | scalar s => rfl
  | object es ih =>
    simp only [clearModified, collapse, clearEntries_eq_map, collapseEntries_eq_map, List.map_map]
    congr 2
    refine List.map_congr_left fun e he => ?_
    simp only [Function.comp, Value.name_clearModified, Value.payload_clearModified, ih e he]
  | list xs ih =>
    simp only [clearModified, collapse, clearElements_eq_map, collapseElements_eq_map, List.map_map]
    congr 1
    refine List.map_congr_left fun v hv => ?_
    simp only [Function.comp, Value.name_clearModified, Value.payload_clearModified, ih v hv]
  | array xs ih =>
    simp only [clearModified, collapse, clearElements_eq_map, collapseElements_eq_map, List.map_map]
    congr 1
    refine List.map_congr_left fun v hv => ?_
    simp only [Function.comp, Value.payload_clearModified, ih v hv]

end Payload

theorem Header.blamesData_ofBytes (bs : List UInt8) : BlamesData (ofBytes bs) := by
  unfold ofBytes
  split
  · refine .ite (.error rfl) ?_
    unfold Charset.ofByte
    split
    · rename_i hcharset
      split at hcharset
      · cases hcharset
      · split at hcharset
        · cases hcharset
        · cases hcharset
          exact .error rfl
    · exact .ite (.error rfl) (.ok _)
  · exact .error rfl

namespace Document

/-- What comes back of a document: the tree as it is collapsed, and no flag. -/
def collapse (d : Document) : Document :=
  { d with entries := Entries.putAll (collapseEntries d.entries) [], modified := false }

theorem collapse_of_clear_eq {d d' : Document} (h : d'.clear = d.clear) : d'.collapse = d.collapse := by
  have hentries : ∀ d : Document, Payload.object d.collapse.entries = (Payload.object d.clear.entries).collapse := by
    intro d
    exact (Payload.collapse_clearModified (.object d.entries)).symm
  have hroot : d'.collapse.entries = d.collapse.entries := Payload.object.inj (by rw [hentries, hentries, h])
  have hhead : d'.header = d.header ∧ d'.rootName = d.rootName ∧ d'.envelope = d.envelope := by
    unfold clear at h
    injection h with h1 h2 h3 h4 h5
    exact ⟨h1, h2, h5⟩
  unfold collapse at hroot ⊢
  simp only at hroot
  rw [hroot, hhead.1, hhead.2.1, hhead.2.2]

theorem document_spell {d : Document} (h : d.Encodable) (envelope : Envelope) :
    { d.spell.document with envelope } = { d.collapse with envelope } := by
  have hroot : d.spell.root.payload = (Payload.object d.entries).collapse := Payload.payload_spell h.tree
  unfold Spelling.document
  rw [hroot]
  rfl

theorem collapse_document {σ : Spelling} (h : σ.Fits .standard) (envelope : Envelope) :
    { σ.document with envelope }.collapse = { σ.document with envelope } := by
  have hs := document_spell (encodable_document h) envelope
  rw [spell_document h] at hs
  exact hs.symm

/-! ## Reading -/

theorem bytes_ne_nil (σ : Spelling) : σ.bytes ≠ [] := List.cons_ne_nil _ _

theorem detect_bytes (σ : Spelling) (rest : List UInt8) : Envelope.detect (σ.bytes ++ rest) = .plain := rfl

theorem readBy_eq (codec : Gzip.Codec) (reg : Registry) (s : Supply) : readBy codec reg s =
    (Envelope.sniff s).bind fun envelope =>
      ((readPlain reg).value (envelope.unwrapBy codec s)).bind fun d => .ok { d with envelope } := rfl

theorem value_ok {α : Type} {d : Decoder α} {s : Supply} {a : α} : d.value s = .ok a ↔ ∃ s', d s = .ok a s' := by
  unfold Decoder.value
  cases d s with
  | ok b s' =>
    constructor
    · intro h; cases h; exact ⟨s', rfl⟩
    · rintro ⟨_, h⟩; cases h; rfl
  | error e s' =>
    constructor
    · intro h; cases h
    · rintro ⟨_, h⟩; cases h

/-- What passes from the parts of a decoder to the whole holds of the reader of documents if
    it holds of the reader of payloads, which looks at the whole stream first. -/
theorem closed_readPlain {P : ∀ {α : Type}, Decoder α → Prop} (hP : Closed P) {reg : Registry}
    (h : ∀ c, P (Payload.decode reg c .object)) : P (readPlain reg) := by
  refine hP.bind (hP.bind (hP.exactly Header.size) fun bs => hP.settled (Header.blamesData_ofBytes bs)) fun header => ?_
  refine hP.bind hP.takeByte fun id => hP.check rfl (hP.bind (hP.takeString _) fun name => ?_)
  refine hP.bind (hP.settled (reg.blamesData_kindOf id)) fun kind => hP.check rfl ?_
  exact hP.bind (h header.charset) fun p => hP.pure _

theorem blind_readPlain (reg : Registry) : Blind (readPlain reg) :=
  closed_readPlain closed_blind fun c => blind_decode reg c .object

theorem local_decode (reg : Registry) (c : Charset) (k : Kind) : Local (Payload.decode reg c k) := by
  intro s p s' h
  obtain ⟨σ, rfl, hσ, rfl, took⟩ := decode_ok h
  exact ⟨σ.bytes c, took, takes_decode hσ⟩

theorem local_readPlain (reg : Registry) : Local (readPlain reg) := by
  unfold readPlain
  refine Header.codes_read.isLocal.bind fun header => codes_takeByte.isLocal.bind fun id => .check ?_
  refine (codes_takeString _).isLocal.bind fun name => (Local.settled _).bind fun kind => .check ?_
  exact (local_decode reg _ _).bind fun p => .pure _

/-- What comes of a stream comes of any other that begins with its bytes. -/
theorem value_of_le {α : Type} {d : Decoder α} (hd : Local d) {s : Supply} {a : α} {bs : List UInt8}
    (h : d.value s = .ok a) (hs : s.bytes <+: bs) : d.value (.ofBytes bs) = .ok a := by
  obtain ⟨s', h⟩ := value_ok.1 h
  obtain ⟨taken, took, takes⟩ := hd s a s' h
  obtain ⟨rest, rfl⟩ := (List.prefix_append _ _).trans (took.held.trans hs)
  obtain ⟨t, ht, -⟩ := takes (.ofBytes (taken ++ rest)) rest (Supply.flatten_ofBytes _)
  exact value_ok.2 ⟨t, ht⟩

/-- What comes of some bytes comes of any stream whose pieces hold them. -/
theorem value_of_flatten {α : Type} {d : Decoder α} (hd : Local d) {s : Supply} {a : α} {bs : List UInt8}
    (h : d.value (.ofBytes bs) = .ok a) (hs : s.pieces.flatten = bs) : d.value s = .ok a := by
  obtain ⟨s', h⟩ := value_ok.1 h
  obtain ⟨taken, took, takes⟩ := hd _ a s' h
  obtain ⟨-, hbytes⟩ := took.whole rfl
  have hflat : s.pieces.flatten = taken ++ s'.bytes := by
    rw [hs, ← Supply.flatten_ofBytes bs, ← hbytes]
    exact (List.append_nil _).symm
  obtain ⟨t, ht, -⟩ := takes s _ hflat
  exact value_ok.2 ⟨t, ht⟩

variable {codec : Gzip.Codec}

theorem readBy_of_spelling {σ : Spelling} (hσ : σ.Fits .standard) {s : Supply} {envelope : Envelope} {rest : List UInt8}
    (hs : Envelope.sniff s = .ok envelope) (hflat : (envelope.unwrapBy codec s).pieces.flatten = σ.bytes ++ rest) :
    readBy codec .standard s = .ok { σ.document with envelope } := by
  obtain ⟨s', h, -⟩ := takes_readPlain (Registry.kindOf_standard .object) hσ _ _ hflat
  rw [readBy_eq, hs]
  simp only [Except.bind, value_ok.2 ⟨s', h⟩]

theorem spelling_of_readBy {s : Supply} {d : Document} (h : readBy codec .standard s = .ok d) :
    ∃ (σ : Spelling) (envelope : Envelope), σ.Fits .standard ∧ Envelope.sniff s = .ok envelope ∧
      d = { σ.document with envelope } ∧ σ.bytes <+: (envelope.unwrapBy codec s).bytes := by
  rw [readBy_eq] at h
  cases hs : Envelope.sniff s with
  | error e => rw [hs] at h; cases h
  | ok envelope =>
    rw [hs] at h
    cases hv : (readPlain .standard).value (envelope.unwrapBy codec s) with
    | error e =>
      simp only [Except.bind, hv] at h
      cases h
    | ok d₀ =>
      simp only [Except.bind, hv] at h
      obtain ⟨s', hr⟩ := value_ok.1 hv
      obtain ⟨σ, hσ, rfl, took⟩ := readPlain_ok hr
      cases h
      exact ⟨σ, envelope, hσ, rfl, rfl, (List.prefix_append _ _).trans took.held⟩

/-- What a stream over a beginning of some bytes gave. Nothing of it is marked, it lost
    nothing, and a stream without faults over the bytes gives it again, unless they are a
    member whose deflate stream never ends. -/
theorem readBy_ok {codec : Gzip.Conforming} {s : Supply} {bs : List UInt8} {d : Document} (hp : s.parting = [])
    (hs : s.pieces.flatten <+: bs) (h : readBy codec .standard s = .ok d) :
    d.modified = false ∧ d.collapse = d ∧ (Gzip.unfinished bs = false → readBy codec .standard (.ofBytes bs) = .ok d) := by
  obtain ⟨σ, envelope, hσ, hsniff, rfl, hheld⟩ := spelling_of_readBy h
  refine ⟨rfl, collapse_document hσ envelope, fun hu => ?_⟩
  have hbytes : s.bytes = s.pieces.flatten := by
    unfold Supply.bytes
    rw [hp, List.append_nil]
  cases envelope with
  | plain =>
    obtain ⟨rest, rfl⟩ : σ.bytes <+: bs := hheld.trans (hbytes ▸ hs)
    refine @readBy_of_spelling _ σ hσ (.ofBytes _) .plain rest ?_ ?_
    · rw [Envelope.sniff_ofBytes, detect_bytes]
    · exact Supply.flatten_ofBytes _
  | gzip =>
    have hdetect : Envelope.detect bs = .gzip := by
      unfold Envelope.sniff at hsniff
      cases hfirst : s.firstPiece with
      | error e => rw [hfirst] at hsniff; cases hsniff
      | ok p =>
        rw [hfirst] at hsniff
        exact Envelope.detect_gzip_mono ((Supply.firstPiece_le hfirst).trans (hbytes ▸ hs)) (Except.ok.inj hsniff)
    have hne : (codec.unpack s).bytes ≠ [] := by
      intro hnil
      rw [show (Envelope.gzip.unwrapBy codec s).bytes = [] from hnil] at hheld
      exact bytes_ne_nil σ (List.prefix_nil.1 hheld)
    obtain ⟨rest, hrest⟩ := hheld.trans (codec.mono hp hs hne hu)
    refine @readBy_of_spelling _ σ hσ (.ofBytes bs) .gzip rest ?_ hrest.symm
    rw [Envelope.sniff_ofBytes, hdetect]

/-- Nothing comes of nothing. -/
theorem readBy_ne_ok {s : Supply} {d : Document} (hb : s.bytes = []) : readBy codec .standard s ≠ .ok d := by
  intro h
  obtain ⟨σ, envelope, -, hsniff, -, hheld⟩ := spelling_of_readBy h
  cases envelope with
  | plain =>
    rw [show (Envelope.plain.unwrapBy codec s).bytes = [] from hb] at hheld
    exact bytes_ne_nil σ (List.prefix_nil.1 hheld)
  | gzip =>
    unfold Envelope.sniff at hsniff
    cases hfirst : s.firstPiece with
    | error e => rw [hfirst] at hsniff; cases hsniff
    | ok p =>
      have hp := Supply.firstPiece_le hfirst
      rw [hb] at hp
      rw [hfirst, List.prefix_nil.1 hp] at hsniff
      cases hsniff

end Document

end TypedDoc
