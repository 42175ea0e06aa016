/-
  TypedDoc.Proofs.Value.Cleared — what encoding and decoding leave of a tree and its flags.

  A success clears every flag of the tree and nothing else, so that what it leaves is
  written again as the same bytes. A failure clears some flags below the value at most,
  never the value's own. A tree that was decoded has no flag set, whatever the value at
  hand was marked with before. `encode_clears` says all of this.
-/

import TypedDoc.Proofs.Value.Canonical
import TypedDoc.Proofs.Value.Marks
import TypedDoc.Proofs.Wire.Outcome

namespace TypedDoc

open Wire

/-! ## Trees without a flag -/

theorem flagsOfEntries_eq_flatMap (es : List (String × Value)) : flagsOfEntries es = es.flatMap (·.2.flags) := by
  induction es with
  | nil => rfl
  | cons e rest ih => simp only [flagsOfEntries, ih, List.flatMap_cons]

theorem flagsOfElements_eq_flatMap (xs : List Value) : flagsOfElements xs = xs.flatMap Value.flags := by
  induction xs with
  | nil => rfl
  | cons v rest ih => simp only [flagsOfElements, ih, List.flatMap_cons]

namespace Value

/-- No flag is set, neither the value's own nor one below it. -/
def Unmarked (v : Value) : Prop := ∀ flag ∈ v.flags, flag = false

instance (v : Value) : Decidable v.Unmarked := inferInstanceAs (Decidable (∀ flag ∈ v.flags, flag = false))

theorem unmarked_iff {v : Value} : v.Unmarked ↔ (∀ flag ∈ v.payload.flags, flag = false) ∧ v.modified = false := by
  rw [Unmarked, flags_eq, List.forall_mem_append, List.forall_mem_singleton]

end Value

theorem Payload.flags_clearModified (p : Payload) : ∀ flag ∈ p.clearModified.flags, flag = false := by
  have node {v : Value} (h : ∀ flag ∈ v.payload.clearModified.flags, flag = false) : v.clearModified.Unmarked :=
    Value.unmarked_iff.2 ⟨by rwa [Value.payload_clearModified], by cases v; rfl⟩
  induction p using Payload.tree_induction with
  | scalar s => exact nofun
  | object es ih =>
    simp only [clearModified, flags, flagsOfEntries_eq_flatMap, clearEntries_eq_map, List.flatMap_map]
    intro flag hflag
    obtain ⟨e, he, hflag⟩ := List.mem_flatMap.1 hflag
    exact node (ih e he) flag hflag
  | list xs ih | array xs ih =>
    simp only [clearModified, flags, flagsOfElements_eq_flatMap, clearElements_eq_map, List.flatMap_map]
    intro flag hflag
    obtain ⟨v, hv, hflag⟩ := List.mem_flatMap.1 hflag
    exact node (ih v hv) flag hflag

theorem Value.unmarked_clearModified (v : Value) : v.clearModified.Unmarked :=
  unmarked_iff.2 ⟨by rw [payload_clearModified]; exact v.payload.flags_clearModified, by cases v; rfl⟩

/-! ## Encoding -/

theorem Wire.Layout.write_eq_ok {l : Layout} {k k' : Sink} {n : Nat} :
    l.write k = .ok n k' ↔ l.flaw = none ∧ l.bytes.length = n ∧ put l.bytes k = .ok () k' := by
  show EStateM.bind (put l.bytes) _ k = _ ↔ _
  simp only [EStateM.bind]
  cases put l.bytes k with
  | error e k'' => simp
  | ok u k'' =>
    cases l.flaw with
    | none =>
      show EStateM.Result.ok l.bytes.length k'' = .ok n k' ↔ _
      simp
    | some e =>
      show EStateM.Result.error e k'' = .ok n k' ↔ _
      simp

namespace Value

variable {c : Charset} {v v' : Value} {k k' : Sink} {n : Nat} {e : Error}

theorem clearModified_clearModified (v : Value) : v.clearModified.clearModified = v.clearModified := by
  cases v
  simp only [clearModified, Payload.clearModified_clearModified]

theorem encodeLayout_clearModified (c : Charset) (v : Value) : v.clearModified.encodeLayout c = v.encodeLayout c := by
  simp only [encodeLayout, depth_eq, layout_eq, payload_clearModified, Payload.depth_clearModified, Payload.layout_clearModified]

theorem eq_clearModified_of_encode (h : v.encode c k = (v', .ok n k')) : v' = v.clearModified := by
  rw [encode] at h
  split at h
  · cases h
  · have := (v.emits c).cleared k n k' (congrArg Prod.snd h)
    rwa [h] at this

/-- A success says which bytes were written, and every tree like this one is written as them. -/
theorem encode_eq_ok : v.encode c k = (v.clearModified, .ok n k') ↔
    (v.encodeLayout c).flaw = none ∧ (v.encodeLayout c).bytes.length = n ∧ put (v.encodeLayout c).bytes k = .ok () k' := by
  rw [← Layout.write_eq_ok, ← encode_outcome]
  constructor
  · intro h
    rw [h]
  · intro h
    have hsplit : v.encode c k = ((v.encode c k).1, .ok n k') := Prod.ext rfl h
    rw [hsplit, ← eq_clearModified_of_encode hsplit]

theorem encode_clearModified : v.clearModified.encode c k = (v.clearModified, .ok n k') ↔
    v.encode c k = (v.clearModified, .ok n k') := by
  have h : v.clearModified.encode c k = (v.clearModified.clearModified, .ok n k') ↔ _ := encode_eq_ok
  rwa [clearModified_clearModified, encodeLayout_clearModified, ← encode_eq_ok] at h

theorem modified_encode_of_error (h : v.encode c k = (v', .error e k')) : v'.modified = v.modified := by
  rw [encode] at h
  split at h
  · cases h
    rfl
  · have := modified_emit (congrArg Prod.snd h)
    rwa [h] at this

/-! ## Decoding -/

theorem flags_decode {reg : Registry} {kind : Kind} {s s' : Supply} {p : Payload}
    (h : Payload.decode reg c kind s = .ok p s') : ∀ flag ∈ p.flags, flag = false := by
  obtain ⟨σ, -, fits, rfl, -⟩ := decode_ok h
  rw [← Spelling.clearModified_payload fits]
  exact σ.payload.flags_clearModified

theorem unmarked_decode {reg : Registry} {s s' : Supply} (h : v.decode reg c s = .ok v' s') :
    v'.name = v.name ∧ v'.Unmarked := by
  obtain ⟨p, s1, h1, h2⟩ := bind_ok h
  obtain ⟨rfl, -⟩ := pure_ok h2
  exact ⟨rfl, unmarked_iff.2 ⟨flags_decode h1, rfl⟩⟩

/-- Decoding in place is decoding, with the old value kept beside every failure. -/
theorem load_eq {reg : Registry} (s : Supply) : load reg c (v, s) =
    match v.decode reg c s with
    | .ok v' s' => .ok () (v', s')
    | .error e s' => .error e (v, s') := by
  unfold load decode
  show EStateM.bind (Payload.decode reg c v.kind).beside _ (v, s) = _
  unfold EStateM.bind Decoder.beside
  cases h : Payload.decode reg c v.kind s with
  | ok p s' =>
    rw [bind_eq_of_ok _ h]
    simp only [h]
    rfl
  | error e s' =>
    rw [bind_eq_of_error _ h]
    simp only [h]

theorem load_error {reg : Registry} {s s' : Supply} (h : v.decode reg c s = .error e s') :
    load reg c (v, s) = .error e (v, s') := by
  rw [load_eq, h]

/-! ## Whole trees -/

/-- After a success names, payloads and the order of children are as they were and no flag
    is set, and the tree is written once more as the same bytes by whatever sink takes
    them. After a failure names, payloads and the value's own flag are as they were. What
    was decoded has no flag set. -/
theorem encode_clears (c : Charset) (v : Value) :
    (∀ v' n k k', v.encode c k = (v', .ok n k') →
      v'.clearModified = v.clearModified ∧ v'.Unmarked ∧
        ∃ bs, bs.length = n ∧ put bs k = .ok () k' ∧
          ∀ k₁ k₂, put bs k₁ = .ok () k₂ → v'.encode c k₁ = (v', .ok n k₂)) ∧
    (∀ v' e k k', v.encode c k = (v', .error e k') →
      v'.clearModified = v.clearModified ∧ v'.modified = v.modified) ∧
    (∀ reg s v' s', v.decode reg c s = .ok v' s' → v'.name = v.name ∧ v'.Unmarked) ∧
    ∀ reg s v' s', load reg c (v, s) = .ok () (v', s') → v'.name = v.name ∧ v'.Unmarked := by
  refine ⟨fun v' n k k' h => ?_, fun v' e k k' h => ?_, fun reg s v' s' h => unmarked_decode h, fun reg s v' s' h => ?_⟩
  · obtain rfl := eq_clearModified_of_encode h
    obtain ⟨hflaw, hlen, hput⟩ := encode_eq_ok.1 h
    refine ⟨?_, v.unmarked_clearModified, (v.encodeLayout c).bytes, hlen, hput, fun k₁ k₂ hk => ?_⟩
    · exact v.clearModified_clearModified
    · exact encode_clearModified.2 (encode_eq_ok.2 ⟨hflaw, hlen, hk⟩)
  · refine ⟨?_, modified_encode_of_error h⟩
    have := clearModified_encode c v k
    rwa [h] at this
  · rw [load_eq] at h
    cases hd : v.decode reg c s with
    | ok w t =>
      rw [hd] at h
      cases h
      exact unmarked_decode hd
    | error e t =>
      rw [hd] at h
      cases h

/-- An object with a list in it, all marked: written into just enough room and once more.
    With a nameless child behind them, what was written is unmarked and the rest is not. A
    value that reads them back had a mark. -/
theorem encode_clears_nested :
    let inner (m : Bool) : String × Value := ("a", ⟨some "a", .list [⟨some "x", .scalar (.byte 7), m⟩], m⟩)
    let v (m : Bool) : Value := ⟨some "root", .object [inner m], m⟩
    let bad (m : Bool) : Value := ⟨some "root", .object [inner m, ("b", ⟨none, .scalar (.byte 1), true⟩)], true⟩
    let bs : List UInt8 := [11, 0, 0, 0, 1, 97, 2, 0, 0, 0, 1, 0, 0, 0, 1, 120, 7, 0]
    (∃ k, (v true).encode .utf8 (.limited (some 18)) = (v false, .ok 18 k) ∧ (v false).Unmarked) ∧
      (v false).encode .utf8 .unlimited = (v false, .ok 18 (.holding bs)) ∧
      (∃ e k, (bad true).encode .utf8 .unlimited = (bad false, .error e k) ∧ (bad false).modified = true) ∧
      ∃ s', (⟨some "root", .object [], true⟩ : Value).decode .standard .utf8 (.ofBytes bs) = .ok (v false) s' ∧
        (v false).Unmarked := by
  intro inner v bad bs
  obtain ⟨hok, -⟩ := encode_clears .utf8 (v true)
  obtain ⟨-, hfail, -⟩ := encode_clears .utf8 (bad true)
  obtain ⟨-, -, hdecode, -⟩ := encode_clears .utf8 ⟨some "root", .object [], true⟩
  have h : (v true).encode .utf8 (.limited (some 18)) = (v false, .ok 18 ⟨bs.toArray, some 0, Sink.writeFault, none⟩) := rfl
  obtain ⟨-, hclear, bs', hlen, hput, hagain⟩ := hok _ _ _ _ h
  have hbs : bs' = bs := by simpa [put, Sink.limited, hlen] using hput
  have hbad : (bad true).encode .utf8 .unlimited = (bad false, .error (.unnamedValue Kind.byte) (.holding bs.dropLast)) := rfl
  obtain ⟨s', hs⟩ : ∃ s', (⟨some "root", .object [], true⟩ : Value).decode .standard .utf8 (.ofBytes bs) = .ok (v false) s' :=
    ⟨_, rfl⟩
  refine ⟨⟨_, h, hclear⟩, hagain _ _ (hbs ▸ put_holding [] bs), ⟨_, _, hbad, (hfail _ _ _ _ hbad).2⟩, s', hs, (hdecode _ _ _ _ hs).2⟩

end Value

end TypedDoc
