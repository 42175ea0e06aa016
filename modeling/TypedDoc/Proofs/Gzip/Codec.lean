/-
  TypedDoc.Proofs.Gzip.Codec — what is relied on of who packs and unpacks gzip members.

  - `Lossless`: what was packed begins as a member does and inflates to what was packed, and
    nothing behind a member shows. How it is packed, and how other members are read, is left
    open.
  - `Conforming`: members are read as their format has it. Contents are handed out in order,
    and never more than are known; all of them are, if the deflate stream ends; and a member
    can be read to its end exactly if its trailer fits as well.

  Of a stream that breaks off comes no more than of a whole one (`Conforming.mono`), if the
  deflate stream ends; what was packed does (`Conforming.unfinished_pack`). Stored blocks
  that are read by `unpack` are a conforming codec (`Conforming.stored`).
-/

import TypedDoc.Proofs.Gzip.Member

namespace TypedDoc.Gzip

open Wire

structure Lossless extends Codec where
  begins : ∀ level bs, magic <+: pack level bs
  inflates : ∀ level bs, (unpack (.ofBytes (pack level bs))).drain = .ok bs
  /-- A member that can be read to its end is read the same with anything behind it. -/
  append : ∀ {bs inflated}, (unpack (.ofBytes bs)).drain = .ok inflated → ∀ rest,
    Alike (unpack (.ofBytes (bs ++ rest))) (.ofBytes inflated)

structure Conforming extends Lossless where
  /-- If anything comes of a stream, it is a beginning of the contents. -/
  bytes : ∀ {s : Supply}, s.parting = [] → (unpack s).bytes ≠ [] → ∃ head packed,
    s.pieces.flatten = head ++ packed ∧ Takes header head () ∧ (unpack s).bytes <+: contents packed
  /-- Of a stream without a fault all of them come, if the deflate stream ends. -/
  finished : ∀ {s : Supply} {head packed used}, Takes header head () → s.pieces.flatten = head ++ packed → s.parting = [] →
    s.ending = none → (inflate packed).outcome = .finished used → (unpack s).pieces.flatten = contents packed
  /-- Then it does not show how the stream is cut. -/
  alike : ∀ {s s' : Supply}, Alike s s' → s.ending = none → unfinished s.pieces.flatten = false → Alike (unpack s) (unpack s')
  drain_iff : ∀ {head packed inflated}, Takes header head () →
    ((unpack (.ofBytes (head ++ packed))).drain = .ok inflated ↔ inflated = contents packed ∧
      ∃ used, (inflate packed).outcome = .finished used ∧ trailerFits (packed.drop used) (contents packed) = true)

instance : Coe Lossless Codec := ⟨Lossless.toCodec⟩

instance : Coe Conforming Codec := ⟨fun codec => codec.toCodec⟩

namespace Conforming

/-- What came of a stream that breaks off is there again in a whole one, if the deflate stream ends. -/
theorem mono (codec : Conforming) {s : Supply} {bs : List UInt8} (hp : s.parting = []) (hs : s.pieces.flatten <+: bs)
    (hne : (codec.unpack s).bytes ≠ []) (hu : unfinished bs = false) :
    (codec.unpack s).bytes <+: (codec.unpack (.ofBytes bs)).pieces.flatten := by
  obtain ⟨head, packed, hflat, takes, hle⟩ := codec.bytes hp hne
  obtain ⟨more, rfl⟩ := hs
  have hbs : s.pieces.flatten ++ more = head ++ (packed ++ more) := by rw [hflat, List.append_assoc]
  obtain ⟨used, hf⟩ := finished_of_not_unfinished takes hbs hu
  rw [codec.finished takes (by rw [Supply.flatten_ofBytes, hbs]) rfl rfl hf]
  exact hle.trans (contents_mono (List.prefix_append _ _))

theorem unfinished_pack (codec : Conforming) (level : Nat) {bs : List UInt8} (hne : bs ≠ []) :
    unfinished (codec.pack level bs) = false := by
  have hdrain := codec.inflates level bs
  have hbytes : (codec.unpack (.ofBytes (codec.pack level bs))).bytes ≠ [] := by
    rw [(drain_eq_ok.1 hdrain).2]
    exact hne
  obtain ⟨head, packed, hflat, takes, -⟩ := codec.bytes (s := .ofBytes _) rfl hbytes
  rw [Supply.flatten_ofBytes] at hflat
  rw [hflat] at hdrain ⊢
  obtain ⟨-, used, hf, -⟩ := (codec.drain_iff takes).1 hdrain
  cases hu : unfinished (head ++ packed) with
  | false => rfl
  | true => exact absurd hf ((unfinished_iff takes rfl).1 hu used)

end Conforming

/-! ## Stored blocks -/

def Lossless.stored : Lossless where
  toCodec := .stored
  begins _ := magic_le_pack
  inflates _ := drain_pack
  append := unpack_append

def Conforming.stored : Conforming where
  toLossless := .stored
  bytes := unpack_bytes
  finished := unpack_finished
  alike h he hu := unpack_alike h he rfl hu
  drain_iff h := drain_unpack_iff h rfl

end TypedDoc.Gzip
