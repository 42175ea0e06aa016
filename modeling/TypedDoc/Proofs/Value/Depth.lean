/-
  TypedDoc.Proofs.Value.Depth — the writer and the reader have one limit for nesting.

  They count in opposite directions. The writer looks at the finished tree, from below: a
  scalar and an empty container have depth 0. The reader counts the levels it has left,
  from above, and gives up at the first node that has none, before any of its payload. So
  what is compared is a third thing, the spelling: with one level more than its depth a
  tree's spelling fits (`Payload.fits_spell_iff`), and one that lacks nothing but levels is
  refused at the first node in order that has none left (`refuses_payload`).

  `Value.encode_decode_depth`: a tree that can be written but for its depth is refused by
  the writer exactly if its bytes are refused by the reader. What was read is never too
  deep to be written.
-/

import TypedDoc.Proofs.Value.Canonical
import TypedDoc.Proofs.Wire.Outcome
import TypedDoc.Proofs.Wire.Supply

namespace TypedDoc

open Wire

/-! ## The levels a tree needs -/

namespace Spelling

variable {reg : Registry} {c : Charset} {n : Nat}

theorem exists_level {σ : Spelling} (h : σ.Fits reg c n) : ∃ m, n = m + 1 := by
  cases h <;> exact ⟨_, rfl⟩

theorem fits_object_below {es : List (UInt8 × String × Spelling)} (h : (object es).Fits reg c (n + 1)) :
    ∀ e ∈ es, e.2.2.Fits reg c n := by
  cases h with
  | object ids names below => exact below

theorem fits_list_below {id : UInt8} {xs : List (String × Spelling)} (h : (list id xs).Fits reg c (n + 1)) :
    ∀ e ∈ xs, e.2.Fits reg c n := by
  cases h with
  | list hid hk count kinds names below => exact below

theorem fits_array_below {id : UInt8} {xs : List Leaf} (h : (array id xs).Fits reg c (n + 1)) : n ≠ 0 ∨ xs = [] := by
  cases h with
  | array hid hk hp count kinds below fits => exact below

end Spelling

namespace Payload

variable {c : Charset}

/-- Entries that a later one of the same name overwrites count too. -/
theorem depth_lt_of_fits {reg : Registry} {p : Payload} (h : p.Every (Encodable c)) {n : Nat} (hf : p.spell.Fits reg c n) :
    p.depth < n := by
  obtain ⟨n, rfl⟩ := Spelling.exists_level hf
  refine Nat.lt_succ_of_le ?_
  induction p using Payload.tree_induction generalizing n with
  | scalar s => exact Nat.zero_le _
  | object es ih =>
    rw [every_object] at h
    refine entriesDepth_le.2 fun e he => ?_
    have hbelow := Spelling.fits_object_below hf (e.2.kind.toByte, e.2.name.getD "", e.2.payload.spell)
      (by rw [spellEntries_eq_map]; exact List.mem_map_of_mem he)
    obtain ⟨m, rfl⟩ := Spelling.exists_level hbelow
    exact Nat.succ_le_succ (ih e he (h.2 e he) m hbelow)
  | list xs ih =>
    rw [every_list] at h
    refine elementsDepth_le.2 fun v hv => ?_
    rw [spell] at hf
    cases hk : elementKind xs with
    | none =>
      rw [elementKind_eq_none hk] at hv
      cases hv
    | some k =>
      rw [hk] at hf
      have hbelow := Spelling.fits_list_below hf (v.name.getD "", v.payload.spell)
        (by rw [spellElements_eq_map]; exact List.mem_map_of_mem hv)
      obtain ⟨m, rfl⟩ := Spelling.exists_level hbelow
      exact Nat.succ_le_succ (ih v hv (h.2 v hv) m hbelow)
  | array xs ih =>
    rw [every_array] at h
    refine elementsDepth_le.2 fun v hv => ?_
    rw [spell] at hf
    cases hk : elementKind xs with
    | none =>
      rw [elementKind_eq_none hk] at hv
      cases hv
    | some k =>
      rw [hk] at hf
      obtain ⟨s, hs⟩ := scalar_of_primitive (h.1.1.2 v hv)
      rcases Spelling.fits_array_below hf with hn | hnil
      · rw [hs]
        exact Nat.one_le_iff_ne_zero.2 hn
      · rw [List.map_eq_nil_iff.1 hnil] at hv
        cases hv

theorem fits_spell_iff {p : Payload} (h : p.Every (Encodable c)) {n : Nat} :
    p.spell.Fits .standard c n ↔ p.depth < n := ⟨depth_lt_of_fits h, fits_spell h⟩

end Payload

/-! ## The first node without a level -/

section

variable {α β : Type} {one : Decoder α}

/-- The elements are taken up to the first that does not fit. -/
theorem refuses_many {form : β → List UInt8} (Fit : β → Prop) {bs : List β} {e : Error}
    (fit : ∀ b ∈ bs, Fit b → ∃ a, Takes one (form b) a) (unfit : ∀ b ∈ bs, ¬Fit b → Refuses one (form b) e)
    (h : ∃ b ∈ bs, ¬Fit b) (acc : List α) : Refuses (takeMany one bs.length acc) (bs.flatMap form) e := by
  induction bs generalizing acc with
  | nil =>
    obtain ⟨b, hb, -⟩ := h
    cases hb
  | cons b rest ih =>
    obtain ⟨fitb, fit⟩ := List.forall_mem_cons.1 fit
    obtain ⟨unfitb, unfit⟩ := List.forall_mem_cons.1 unfit
    by_cases hb : Fit b
    · have hrest : ∃ b ∈ rest, ¬Fit b := ((List.exists_mem_cons_iff _ _ _).1 h).resolve_left (not_not_intro hb)
      obtain ⟨a, ha⟩ := fitb hb
      exact ha.bind_refuses (ih fit unfit hrest _)
    · exact ((unfitb hb).bind _).append _

end

section

variable {reg : Registry} {c : Charset} {payload : Kind → Decoder Payload} {e : Error}

theorem refuses_entries (Fit : Spelling → Prop) {es : List (UInt8 × String × Spelling)} {budget : Nat}
    (ids : ∀ e ∈ es, e.1 ≠ TypeId.terminator.toByte ∧ reg.kindOf e.1 = .ok e.2.2.kind)
    (names : ∀ e ∈ es, Counted c e.2.1)
    (fit : ∀ e ∈ es, Fit e.2.2 → Takes (payload e.2.2.kind) (e.2.2.bytes c) e.2.2.payload)
    (unfit : ∀ e' ∈ es, ¬Fit e'.2.2 → Refuses (payload e'.2.2.kind) (e'.2.2.bytes c) e)
    (h : ∃ e ∈ es, ¬Fit e.2.2) (hb : es.length ≤ budget) (acc : List (String × Value)) :
    Refuses (takeEntries reg c payload budget acc) (Spelling.entriesBytes c es) e := by
  induction es generalizing budget acc with
  | nil =>
    obtain ⟨e, he, -⟩ := h
    cases he
  | cons e' rest ih =>
    obtain ⟨id, name, σ⟩ := e'
    obtain ⟨n, rfl⟩ : ∃ n, budget = n + 1 := ⟨budget - 1, by simp at hb; omega⟩
    obtain ⟨⟨hid, hkind⟩, ids⟩ := List.forall_mem_cons.1 ids
    obtain ⟨hname, names⟩ := List.forall_mem_cons.1 names
    obtain ⟨fitσ, fit⟩ := List.forall_mem_cons.1 fit
    obtain ⟨unfitσ, unfit⟩ := List.forall_mem_cons.1 unfit
    have hall : Refuses (takeEntries reg c payload (n + 1) acc)
        ([id] ++ ([] ++ (stringBytes c name ++ (σ.bytes c ++ Spelling.entriesBytes c rest)))) e := by
      refine (codes_takeByte.takes id trivial).bind_refuses ?_
      rw [if_neg hid]
      refine (takes_settled hkind).bind_refuses (((codes_takeString c).takes name hname).bind_refuses ?_)
      by_cases hσ : Fit σ
      · have hrest : ∃ e ∈ rest, ¬Fit e.2.2 := ((List.exists_mem_cons_iff _ _ _).1 h).resolve_left (not_not_intro hσ)
        exact (fitσ hσ).bind_refuses (ih ids names fit unfit hrest (by simpa using hb) _)
      · exact ((unfitσ hσ).bind _).append _
    exact hall.of_eq (by simp [Spelling.entriesBytes])

/-- What precedes the elements of a list or array is taken first. -/
theorem refuses_list (Fit : Spelling → Prop) {id : UInt8} {k : Kind} {xs : List (String × Spelling)}
    (hid : id ≠ TypeId.terminator.toByte) (hk : reg.kindOf id = .ok k) (count : xs.length < countLimit)
    (names : ∀ e ∈ xs, Counted c e.1) (fit : ∀ e ∈ xs, Fit e.2 → Takes (payload k) (e.2.bytes c) e.2.payload)
    (unfit : ∀ e' ∈ xs, ¬Fit e'.2 → Refuses (payload k) (e'.2.bytes c) e) (h : ∃ e ∈ xs, ¬Fit e.2) :
    Refuses (takeList reg c payload) ((Spelling.list id xs).bytes c) e := by
  have hall : Refuses (takeList reg c payload)
      ([id] ++ ([] ++ (BigEndian.toBytes 4 xs.length ++ xs.flatMap fun e => stringBytes c e.1 ++ e.2.bytes c))) e := by
    refine (codes_takeByte.takes id trivial).bind_refuses ?_
    rw [if_neg hid]
    refine (takes_settled hk).bind_refuses ((codes_takeCount.takes xs.length count).bind_refuses ?_)
    refine refuses_many (Fit ·.2) (fun e he hfit => ⟨_, takes_named (names e he) (fit e he hfit)⟩) (fun e he hn => ?_) h []
    exact ((codes_takeString c).takes e.1 (names e he)).bind_refuses ((unfit e he hn).bind _)
  exact hall.of_eq (by simp [Spelling.bytes, Spelling.elementsBytes_eq_flatMap])

theorem refuses_array {id : UInt8} {k : Kind} {xs : List Leaf} (hid : id ≠ TypeId.terminator.toByte)
    (hk : reg.kindOf id = .ok k) (hp : k.isPrimitive = true) (count : xs.length < countLimit) (hne : xs ≠ [])
    (unfit : ∀ l ∈ xs, Refuses (payload k) (l.bytes c) e) :
    Refuses (takeArray reg payload) ((Spelling.array id xs).bytes c) e := by
  have hall : Refuses (takeArray reg payload)
      ([id] ++ ([] ++ (BigEndian.toBytes 4 xs.length ++ xs.flatMap (Leaf.bytes c)))) e := by
    refine (codes_takeByte.takes id trivial).bind_refuses ?_
    rw [if_neg hid]
    refine (takes_settled hk).bind_refuses ?_
    simp only [hp, Bool.not_true, Bool.false_eq_true, if_false]
    obtain ⟨l, hl⟩ := List.exists_mem_of_ne_nil xs hne
    refine (codes_takeCount.takes xs.length count).bind_refuses ?_
    exact refuses_many (fun _ => False) (fun _ _ hfit => hfit.elim) (fun l hl _ => (unfit l hl).bind _) ⟨l, hl, not_false⟩ []
  exact hall.of_eq (by simp [Spelling.bytes])

end

/-- A spelling that fits with some number of levels is refused with any other that does not do. -/
theorem refuses_payload {reg : Registry} {c : Charset} {budget m : Nat} {σ : Spelling} (h : σ.Fits reg c m)
    (hb : (σ.bytes c).length ≤ budget) {levels : Nat} (hlevels : ¬σ.Fits reg c levels) :
    Refuses (takePayload reg c budget levels σ.kind) (σ.bytes c) (.nestingTooDeep maxDepth) := by
  induction h generalizing levels with
  | leaf hl =>
    cases levels with
    | zero => exact refuses_throw _ _
    | succ n => exact absurd (.leaf hl) hlevels
  | noList =>
    cases levels with
    | zero => exact refuses_throw _ _
    | succ n => exact absurd .noList hlevels
  | noArray =>
    cases levels with
    | zero => exact refuses_throw _ _
    | succ n => exact absurd .noArray hlevels
  | @object m es ids names below ih =>
    cases levels with
    | zero => exact refuses_throw _ _
    | succ n =>
      have hlen := Spelling.length_le_entriesBytes c es
      simp only [Spelling.bytes, List.length_append, List.length_singleton] at hb
      have hsub : ∀ e ∈ es, (e.2.2.bytes c).length ≤ budget := fun e he => by
        have := Spelling.length_bytes_of_mem_entries c he
        omega
      have hex : ∃ e ∈ es, ¬e.2.2.Fits reg c n := by
        by_contra hall
        exact hlevels (.object ids names fun e he => by_contra fun hn => hall ⟨e, he, hn⟩)
      have hes : Refuses (takeEntries reg c (takePayload reg c budget n) budget []) (Spelling.entriesBytes c es)
          (.nestingTooDeep maxDepth) :=
        refuses_entries (·.Fits reg c n) ids names (fun e he hfit => takes_payload hfit (hsub e he))
          (fun e he hn => ih e he (hsub e he) hn) hex (by omega) []
      exact (hes.append _).bind _
  | @list m id k xs hid hk count kinds names below ih =>
    cases levels with
    | zero => exact refuses_throw _ _
    | succ n =>
      simp only [Spelling.bytes, List.length_cons, List.length_append] at hb
      have hsub : ∀ e ∈ xs, (e.2.bytes c).length ≤ budget := fun e he => by
        have := Spelling.length_bytes_of_mem_elements c he
        omega
      have hex : ∃ e ∈ xs, ¬e.2.Fits reg c n := by
        by_contra hall
        exact hlevels (.list hid hk count kinds names fun e he => by_contra fun hn => hall ⟨e, he, hn⟩)
      have hxs : Refuses (takeList reg c (takePayload reg c budget n)) ((Spelling.list id xs).bytes c)
          (.nestingTooDeep maxDepth) :=
        refuses_list (·.Fits reg c n) hid hk count names (fun e he hfit => kinds e he ▸ takes_payload hfit (hsub e he))
          (fun e he hn => kinds e he ▸ ih e he (hsub e he) hn) hex
      exact hxs.bind _
  | @array m id k xs hid hk hp count kinds below fits =>
    cases levels with
    | zero => exact refuses_throw _ _
    | succ n =>
      have hnone : n = 0 ∧ xs ≠ [] := by
        by_contra hall
        refine hlevels (.array hid hk hp count kinds ?_ fits)
        by_cases hn : n = 0
        · exact .inr (by_contra fun hne => hall ⟨hn, hne⟩)
        · exact .inl hn
      obtain ⟨rfl, hne⟩ := hnone
      exact (refuses_array hid hk hp count hne fun _ _ => refuses_throw _ _).bind _

/-! ## The limit -/

theorem Wire.put_error {bs : List UInt8} {k k' : Sink} {e : Error} (h : put bs k = .error e k') : e = k.full := by
  unfold put at h
  split at h
  · cases h
  · split at h
    · cases h
    · cases h; rfl

/-- A writer with nothing against what it writes fails for the sink's reasons only. -/
theorem Wire.Layout.write_error {l : Layout} (hl : l.flaw = none) {k k' : Sink} {e : Error}
    (h : l.write k = .error e k') : e = k.full := by
  have h' : EStateM.bind (put l.bytes) (fun _ => pure l.bytes.length) k = .error e k' := by
    rw [← h]
    unfold Layout.write
    rw [hl]
    rfl
  unfold EStateM.bind at h'
  split at h'
  · cases h'
  · cases h'
    exact put_error ‹_›

namespace Value

variable {c : Charset} {v : Value}

theorem encode_too_deep (h : maxDepth < v.depth) (k : Sink) : v.encode c k = (v, .error (.encodeTooDeep maxDepth) k) :=
  if_pos h

theorem encode_eq_emit (h : v.depth ≤ maxDepth) (k : Sink) : v.encode c k = v.emit c k := if_neg (Nat.not_lt.2 h)

theorem emit_unlimited (h : v.payload.Every (Payload.Encodable c)) : v.emit c .unlimited =
    (v.clearModified, .ok (v.payload.spell.bytes c).length (.holding (v.payload.spell.bytes c))) := by
  have he := v.emits c
  have ho : (v.emit c .unlimited).2 = _ := (he.outcome .unlimited).trans (Layout.write_holding (v.layout c) [])
  rw [Value.layout_eq, Payload.layout_flaw_iff.2 h, Payload.layout_bytes h] at ho
  exact Prod.ext (he.cleared _ _ _ ho) ho

theorem emit_error (h : v.payload.Every (Payload.Encodable c)) {k k' : Sink} {v' : Value} {e : Error}
    (he : v.emit c k = (v', .error e k')) : e = k.full := by
  have ho := (v.emits c).outcome k
  rw [he, Value.layout_eq] at ho
  exact Layout.write_error (Payload.layout_flaw_iff.2 h) ho.symm

theorem decode_of_takes {reg : Registry} {w : Value} {bs : List UInt8} {p : Payload} (h : Takes (Payload.decode reg c w.kind) bs p)
    {s : Supply} {rest : List UInt8} (hs : s.pieces.flatten = bs ++ rest) :
    ∃ s', w.decode reg c s = .ok { w with payload := p, modified := false } s' := by
  obtain ⟨s', h1, -⟩ := h.map (fun p => { w with payload := p, modified := false }) s rest hs
  exact ⟨s', h1⟩

theorem decode_of_refuses {reg : Registry} {w : Value} {σ : Spelling} {m : Nat} (hw : w.kind = σ.kind)
    (h : σ.Fits reg c m) (hn : ¬σ.Fits reg c (maxDepth + 1)) {s : Supply} {rest : List UInt8}
    (hs : s.pieces.flatten = σ.bytes c ++ rest) :
    ∃ s', w.decode reg c s = .error (.nestingTooDeep maxDepth) s' := by
  have hb : (σ.bytes c).length ≤ s.size + 1 := by
    rw [Supply.size, Supply.bytes, hs, List.length_append, List.length_append]
    omega
  obtain ⟨s', h1⟩ := (refuses_payload h hb hn).error hs
  have hp : Payload.decode reg c w.kind s = .error (.nestingTooDeep maxDepth) s' := by
    rw [hw]
    exact h1
  exact ⟨s', bind_eq_of_error _ hp⟩

/-- A tree that can be written but for its depth is refused by the writer exactly if the
    bytes it would be written as are refused by the reader, whatever comes behind them.
    The refusal writes nothing and changes no flag. What was read, with any registry, can
    be written again. -/
theorem encode_decode_depth (c : Charset) :
    (∀ v : Value, v.payload.Every (Payload.Encodable c) →
      ∃ bs : List UInt8, v.emit c .unlimited = (v.clearModified, .ok bs.length (.holding bs)) ∧
        ∀ (k : Sink) (w : Value) (s : Supply) (rest : List UInt8), k.full ≠ .encodeTooDeep maxDepth → w.kind = v.kind →
          s.pieces.flatten = bs ++ rest →
          (∀ v' k', v.encode c k = (v', .error (.encodeTooDeep maxDepth) k') → v' = v ∧ k' = k) ∧
          ((∃ v' k', v.encode c k = (v', .error (.encodeTooDeep maxDepth) k')) ↔
            ∃ s', w.decode .standard c s = .error (.nestingTooDeep maxDepth) s')) ∧
    ∀ (reg : Registry) (w : Value) (s : Supply) (v : Value) (s' : Supply), w.decode reg c s = .ok v s' →
      v.depth ≤ maxDepth ∧ ∀ (c' : Charset) (k : Sink), v.encode c' k = v.emit c' k := by
  refine ⟨fun v hv => ⟨v.payload.spell.bytes c, emit_unlimited hv, fun k w s rest hk hw hs => ?_⟩, fun reg w s v s' h => ?_⟩
  · have hkind : w.kind = v.payload.spell.kind := hw.trans (Payload.kind_spell v.payload).symm
    by_cases hd : v.depth ≤ maxDepth
    · have hno : ∀ v' k', v.encode c k ≠ (v', .error (.encodeTooDeep maxDepth) k') := by
        intro v' k' he
        rw [encode_eq_emit hd] at he
        exact hk (emit_error hv he).symm
      have hfits := Payload.fits_spell hv (Nat.lt_succ_of_le (v.depth_eq ▸ hd))
      obtain ⟨s', hok⟩ := decode_of_takes (hkind ▸ takes_decode hfits) hs
      refine ⟨fun v' k' he => absurd he (hno v' k'), iff_of_false (fun ⟨v', k', he⟩ => hno v' k' he) ?_⟩
      rintro ⟨s'', herr⟩
      cases hok.symm.trans herr
    · have hd := Nat.not_le.1 hd
      have hn : ¬v.payload.spell.Fits .standard c (maxDepth + 1) := by
        rw [Payload.fits_spell_iff hv, ← v.depth_eq]
        omega
      have henc := encode_too_deep (c := c) hd k
      refine ⟨fun v' k' he => ?_, iff_of_true ⟨v, k, henc⟩ ?_⟩
      · cases henc.symm.trans he
        exact ⟨rfl, rfl⟩
      · exact decode_of_refuses hkind (Payload.fits_spell hv (Nat.lt_succ_self _)) hn hs
  · obtain ⟨p, s₁, h1, h2⟩ := bind_ok h
    obtain ⟨rfl, rfl⟩ := pure_ok h2
    obtain ⟨σ, -, hσ, rfl, -⟩ := decode_ok h1
    have hd : ({ w with payload := σ.payload, modified := false } : Value).depth ≤ maxDepth :=
      Nat.le_of_lt_succ (Spelling.depth_lt hσ)
    exact ⟨hd, fun c' k => encode_eq_emit hd k⟩

end Value

/-- So many lists, each the only element of the next. -/
def Payload.chain : Nat → Payload
  | 0 => .scalar (.byte 0)
  | n + 1 => .list [⟨some "", chain n, true⟩]

theorem Payload.depth_chain (n : Nat) : (chain n).depth = n := by
  induction n with
  | zero => rfl
  | succ n ih => simp only [chain, depth, elementsDepth, Value.depth_eq, ih, Nat.max_zero]

theorem Payload.encodable_chain (c : Charset) (n : Nat) : (chain n).Every (Encodable c) := by
  induction n with
  | zero => exact every_scalar.2 trivial
  | succ n ih =>
    have hname : Counted c "" := by cases c <;> decide
    refine every_list.2 ⟨⟨⟨uniform_cons.2 ?_, ?_⟩, (by decide : 1 < countLimit)⟩, ?_⟩ <;> intro v hv <;> obtain rfl := List.mem_singleton.1 hv
    · rfl
    · exact ⟨"", rfl, hname⟩
    · exact ih

/-- A chain of 128 lists passes both ways and one of 129 neither. -/
theorem Value.encode_decode_depth_chain :
    (∃ bs, (anonymous (.chain 128)).emit .utf16 .unlimited =
        ((anonymous (.chain 128)).clearModified, .ok bs.length (.holding bs)) ∧
      ¬∃ s', (initial .list).decode .standard .utf16 (.ofBytes bs) = .error (.nestingTooDeep 128) s') ∧
    ∃ bs, (anonymous (.chain 129)).emit .utf16 .unlimited =
        ((anonymous (.chain 129)).clearModified, .ok bs.length (.holding bs)) ∧
      ∃ s', (initial .list).decode .standard .utf16 (.ofBytes bs) = .error (.nestingTooDeep 128) s' := by
  have hdepth : ∀ n, (anonymous (.chain n)).depth = n := Payload.depth_chain
  constructor
  · obtain ⟨bs, hemit, h⟩ := (encode_decode_depth .utf16).1 (anonymous (.chain 128)) (Payload.encodable_chain _ _)
    refine ⟨bs, hemit, fun hdecode => ?_⟩
    obtain ⟨-, hiff⟩ := h .unlimited (initial .list) (.ofBytes bs) [] nofun rfl (by rw [Supply.flatten_ofBytes, List.append_nil])
    obtain ⟨v', k', he⟩ := hiff.2 hdecode
    rw [encode_eq_emit (hdepth 128).le, hemit] at he
    cases he
  · obtain ⟨bs, hemit, h⟩ := (encode_decode_depth .utf16).1 (anonymous (.chain 129)) (Payload.encodable_chain _ _)
    refine ⟨bs, hemit, ?_⟩
    obtain ⟨-, hiff⟩ := h .unlimited (initial .list) (.ofBytes bs) [] nofun rfl (by rw [Supply.flatten_ofBytes, List.append_nil])
    exact hiff.1 ⟨_, _, encode_too_deep (by rw [hdepth, maxDepth]; decide) .unlimited⟩

end TypedDoc
