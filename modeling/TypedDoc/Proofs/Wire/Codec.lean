/-
  TypedDoc.Proofs.Wire.Codec — the one form of each primitive: what its reader takes is
  what its writer puts.
  - `codes_takeNat`, `codes_takeByte`: numbers of a fixed width.
  - `codes_takeString`: strings, as far as a count can tell their length.
-/

import TypedDoc.Proofs.Text.Utf16
import TypedDoc.Proofs.Wire.Reading
import TypedDoc.Wire.BigEndian.Lemmas

namespace TypedDoc

/-! ## Texts in a charset -/

namespace Charset

theorem decode_encode (c : Charset) (s : String) : c.decode (c.encode s) = .ok s := by
  cases c with
  | utf8 => simp only [decode, encode, Text.Utf8.decode_encode, Except.mapError]
  | utf16 => simp only [decode, encode, Text.Utf16.decode_encode, Except.mapError]

theorem encode_of_decode {c : Charset} {bs : List UInt8} {s : String} (h : c.decode bs = .ok s) : c.encode s = bs := by
  cases c with
  | utf8 =>
    simp only [decode, Except.mapError] at h
    split at h
    · cases h
    · rename_i hs
      cases h
      exact Text.Utf8.encode_of_decode hs
  | utf16 =>
    simp only [decode, Except.mapError] at h
    split at h
    · cases h
    · rename_i hs
      cases h
      exact Text.Utf16.encode_of_decode hs

theorem toByte_of_ofByte {b : UInt8} {c : Charset} (h : ofByte b = .ok c) : c.toByte = b := by
  simp only [ofByte] at h
  split at h
  · rename_i hb
    cases h
    exact hb.symm
  · split at h
    · rename_i hb
      cases h
      exact hb.symm
    · cases h

end Charset

namespace Wire

/-! ## Numbers -/

theorem toBytes_one (b : UInt8) : BigEndian.toBytes 1 b.toNat = [b] := by
  have hb := b.toNat_lt
  have hm : b.toNat % 256 = b.toNat := by omega
  simp only [BigEndian.toBytes, List.nil_append, hm, UInt8.ofNat_toNat]

theorem codes_takeNat (w : Nat) : Codes (takeNat w) (BigEndian.toBytes w) (· < 256 ^ w) := by
  refine ⟨fun n hn => ?_, fun s n s' h => ?_⟩
  · have hv : BigEndian.ofBytes (BigEndian.toBytes w n) = n := by rw [BigEndian.ofBytes_toBytes, Nat.mod_eq_of_lt hn]
    have ht : Takes (takeNat w) (BigEndian.toBytes w n ++ []) (BigEndian.ofBytes (BigEndian.toBytes w n)) :=
      (takes_exactly (BigEndian.length_toBytes w n)).bind (takes_pure _)
    exact ht.of_eq (List.append_nil _) hv
  · obtain ⟨bs, s1, h1, h2⟩ := bind_ok h
    obtain ⟨rfl, rfl⟩ := pure_ok h2
    obtain ⟨rfl, ht⟩ := exactly_ok h1
    exact ⟨BigEndian.ofBytes_lt bs, ht.of_eq (BigEndian.toBytes_ofBytes rfl).symm⟩

theorem codes_takeByte : Codes takeByte (fun b => [b]) fun _ => True := by
  have h := (codes_takeNat 1).map UInt8.ofNat UInt8.toNat (fun _ => UInt8.ofNat_toNat)
    (fun n hn => UInt8.toNat_ofNat_of_lt' hn) UInt8.toNat_lt
  simp only [toBytes_one] at h
  exact h

theorem codes_takeCount : Codes takeCount (BigEndian.toBytes 4) (· < countLimit) := codes_takeNat 4

/-! ## Strings -/

/-- The bytes of a string with their number in front. -/
def stringBytes (c : Charset) (s : String) : List UInt8 := BigEndian.toBytes 4 (c.encode s).length ++ c.encode s

/-- The length of a string can be told. -/
def Counted (c : Charset) (s : String) : Prop := (c.encode s).length < countLimit

instance (c : Charset) (s : String) : Decidable (Counted c s) := inferInstanceAs (Decidable (_ < _))

theorem codes_takeString (c : Charset) : Codes (takeString c) (stringBytes c) (Counted c) := by
  refine ⟨fun t ht => ?_, fun s t s' h => ?_⟩
  · refine (codes_takeCount.takes _ ht).bind ?_
    refine ((takes_upTo rfl).bind ?_).of_eq (List.append_nil _) rfl
    rw [if_pos rfl]
    exact takes_settled (c.decode_encode t)
  · obtain ⟨n, s1, h1, h⟩ := bind_ok h
    obtain ⟨bs, s2, h2, h⟩ := bind_ok h
    split at h
    · rename_i hn
      obtain ⟨hd, rfl⟩ := settled_ok h
      obtain ⟨hlt, t1⟩ := codes_takeCount.took _ _ _ h1
      have he := Charset.encode_of_decode hd
      refine ⟨?_, (t1.trans (upTo_ok h2)).of_eq ?_⟩
      · rw [Counted, he, hn]
        exact hlt
      · rw [stringBytes, he, hn]
    · exact (throw_ne_ok h).elim

end Wire

end TypedDoc
