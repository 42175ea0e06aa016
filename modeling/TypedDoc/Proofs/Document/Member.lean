/-
  TypedDoc.Proofs.Document.Member — what a document that was read tells of the gzip member
  it was read from.

  Reading stops behind the root's terminator and never comes to the trailer, so a document
  is no sign that the member is in order: it is what the contents begin with, as far as
  they are known, and the member can be read to its end exactly if its deflate stream ends
  and its trailer fits (`read_member`). Members that are not are read all the same
  (`read_damaged`). A member that is cut short gives the same document or none.

  Of a member that can be read to its end the document is the one its contents hold,
  whatever comes behind it (`read_of_drain`).
-/

import TypedDoc.Proofs.Document.Cuts

namespace TypedDoc.Document

open Wire

variable {codec : Gzip.Conforming} {reg : Registry} {bs : List UInt8} {d : Document}

/-- The document that was read of a member is what its contents begin with, whatever codec
    reads it. It is read to its end, and gives that document, exactly if the deflate stream
    ends and the trailer fits; and cutting it short gives no other document. -/
theorem read_member (codec : Gzip.Conforming) (hm : Gzip.magic <+: bs) (h : readBy codec reg (.ofBytes bs) = .ok d) :
    ∃ head packed, bs = head ++ packed ∧ Takes Gzip.header head () ∧ d.envelope = .gzip ∧
      (readPlain reg).value (.ofBytes (Gzip.contents packed)) = .ok { d with envelope := .plain } ∧
      ((∃ inflated, (codec.unpack (.ofBytes bs)).drain = .ok inflated ∧
          (readPlain reg).value (.ofBytes inflated) = .ok { d with envelope := .plain }) ↔
        ∃ used, (Gzip.inflate packed).outcome = .finished used ∧
          Gzip.trailerFits (packed.drop used) (Gzip.contents packed) = true) ∧
      ∀ beginning d', beginning <+: bs → readBy codec reg (.ofBytes beginning) = .ok d' → d' = d := by
  obtain ⟨head, packed, rfl, takes, he, hv⟩ := read_contents (Supply.delivers_ofBytes bs) hm h
  refine ⟨head, packed, rfl, takes, he, hv, ⟨?_, ?_⟩, fun beginning d' hb h' =>
    read_of_beginning (Supply.delivers_ofBytes _) (Supply.delivers_ofBytes beginning) hb h h'⟩
  · rintro ⟨inflated, hdrain, -⟩
    exact ((codec.drain_iff takes).1 hdrain).2
  · intro hfits
    exact ⟨_, (codec.drain_iff takes).2 ⟨rfl, hfits⟩, hv⟩

/-- Nothing behind the deflate stream bears on a document in its contents. -/
theorem read_of_contents (codec : Gzip.Conforming) {head packed : List UInt8} {used : Nat} (hm : Gzip.magic <+: bs)
    (takes : Takes Gzip.header head ()) (hbs : bs = head ++ packed) (hf : (Gzip.inflate packed).outcome = .finished used)
    (hv : (readPlain reg).value (.ofBytes (Gzip.contents packed)) = .ok d) :
    readBy codec reg (.ofBytes bs) = .ok { d with envelope := .gzip } := by
  have hsniff : Envelope.sniff (.ofBytes bs) = .ok .gzip := by
    rw [Envelope.sniff_ofBytes, Envelope.detect_eq_gzip.2 hm]
  have hflat : (codec.unpack (.ofBytes bs)).pieces.flatten = Gzip.contents packed :=
    codec.finished takes (by rw [Supply.flatten_ofBytes, hbs]) rfl rfl hf
  have hvalue : (readPlain reg).value (Envelope.gzip.unwrapBy codec (.ofBytes bs)) = .ok d :=
    value_of_flatten (local_readPlain reg) hv hflat
  rw [readBy_of_sniff codec hsniff, hvalue]
  rfl

/-- Of a member that can be read to its end, whatever comes behind it. -/
theorem read_of_drain (codec : Gzip.Lossless) {inflated : List UInt8} (hm : Gzip.magic <+: bs)
    (h : (codec.unpack (.ofBytes bs)).drain = .ok inflated) (rest : List UInt8) : readBy codec reg (.ofBytes (bs ++ rest)) =
      ((readPlain reg).value (.ofBytes inflated)).map fun d => { d with envelope := .gzip } := by
  have hsniff : Envelope.sniff (.ofBytes (bs ++ rest)) = .ok .gzip := by
    rw [Envelope.sniff_ofBytes, Envelope.detect_eq_gzip.2 (hm.trans (List.prefix_append _ _))]
  have hvalue : (readPlain reg).value (Envelope.gzip.unwrapBy codec (.ofBytes (bs ++ rest))) =
      (readPlain reg).value (.ofBytes inflated) := (blind_readPlain reg).value (codec.append h rest)
  rw [readBy_of_sniff codec hsniff, hvalue]

set_option maxRecDepth 4000 in
/-- A packed document, and its member without the trailer. -/
theorem read_member_packed :
    let doc : List UInt8 := [0x4D, 0x4F, 0x42, 0x46, 1, 1, 0, 0, 1, 0, 0, 0, 0, 0]
    let d : Document := ⟨.standard, "", [], false, .gzip⟩
    Gzip.magic <+: Gzip.pack doc ∧ ofBytes (Gzip.pack doc) = .ok d ∧
      (∃ inflated, (Gzip.unpack (.ofBytes (Gzip.pack doc))).drain = .ok inflated ∧
        (readPlain .standard).value (.ofBytes inflated) = .ok { d with envelope := .plain }) ∧
      ∀ d', ofBytes ((Gzip.pack doc).take 29) = .ok d' → d' = d := by
  intro doc d
  have hm : Gzip.magic <+: Gzip.pack doc := Gzip.magic_le_pack doc
  have hd : ofBytes (Gzip.pack doc) = .ok d := by cbv
  obtain ⟨head, packed, hbs, takes, -, -, hend, hbeginning⟩ := read_member .stored hm hd
  refine ⟨hm, hd, hend.2 ?_, fun d' => hbeginning _ d' (List.take_prefix _ _)⟩
  exact ((Gzip.drain_unpack_iff takes hbs).1 (Gzip.drain_pack doc)).2

set_option maxRecDepth 4000 in
/-- Documents are read of a member whose check does not fit, of one without a trailer, and of
    one that ends in front of its second block; none of them can be read to its end. -/
theorem read_damaged :
    let doc : List UInt8 := [0x4D, 0x4F, 0x42, 0x46, 1, 1, 0, 0, 1, 0, 0, 0, 0, 0]
    let d : Document := ⟨.standard, "", [], false, .gzip⟩
    let cut : List UInt8 := Gzip.plainHeader ++ Gzip.stored true doc
    let altered : List UInt8 := cut ++ [0xE9, 0xEC, 0x45, 0x6C, 14, 0, 0, 0]
    let halved : List UInt8 := Gzip.plainHeader ++ Gzip.stored false doc
    (ofBytes altered = .ok d ∧ ∀ inflated, (Gzip.unpack (.ofBytes altered)).drain ≠ .ok inflated) ∧
      (ofBytes cut = .ok d ∧ (Gzip.unpack (.ofBytes cut)).drain = .error (.truncatedStream .envelope)) ∧
      ofBytes halved = .ok d ∧ (Gzip.unpack (.ofBytes halved)).drain = .error (.truncatedStream .envelope) := by
  intro doc d cut altered halved
  let trailer : List UInt8 := [0xE9, 0xEC, 0x45, 0x6C, 14, 0, 0, 0]
  have hn : doc.length / Gzip.storedLimit = 0 := by decide
  obtain ⟨hcontents, hf⟩ := Gzip.inflate_storedBlocks doc trailer
  rw [hn] at hcontents hf
  have hm : Gzip.magic <+: altered := ⟨altered.drop 2, rfl⟩
  have hbs : altered = Gzip.plainHeader ++ (Gzip.storedBlocks 0 doc ++ trailer) := rfl
  have hdoc : (readPlain .standard).value (.ofBytes doc) = .ok { d with envelope := .plain } := by cbv
  have hfits : Gzip.trailerFits trailer doc = false := by cbv
  refine ⟨⟨?_, fun inflated h => ?_⟩, ⟨by cbv, by cbv⟩, by cbv, by cbv⟩
  · rw [← hcontents] at hdoc
    exact read_of_contents .stored hm Gzip.takes_plainHeader hbs hf hdoc
  · obtain ⟨-, used, hused, htrailer⟩ := (Gzip.drain_unpack_iff Gzip.takes_plainHeader hbs).1 h
    rw [hf] at hused
    cases hused
    rw [List.drop_left, Gzip.contents, hcontents, hfits] at htrailer
    cases htrailer

end TypedDoc.Document
