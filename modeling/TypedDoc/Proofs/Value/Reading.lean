/-
  TypedDoc.Proofs.Value.Reading — the reader takes spellings, all of them and nothing else.
  - `takes_payload`: a spelling that fits is taken byte for byte, whatever comes behind.
  - `took_payload`: what was taken by a successful read is a spelling that fits.
-/

import TypedDoc.Proofs.Value.Spelling

namespace TypedDoc

open Wire

/-! ## Scalars -/

theorem codes_takeInt8 : Codes takeInt8 (fun v => BigEndian.toBytes 1 v.toUInt8.toNat) fun _ => True :=
  (codes_takeNat 1).map (fun n => (UInt8.ofNat n).toInt8) (fun v => v.toUInt8.toNat)
    (fun _ => by rw [UInt8.ofNat_toNat, Int8.toInt8_toUInt8])
    (fun _ hn => by rw [UInt8.toUInt8_toInt8]; exact UInt8.toNat_ofNat_of_lt' hn) fun v => v.toUInt8.toNat_lt

theorem codes_takeInt16 : Codes takeInt16 (fun v => BigEndian.toBytes 2 v.toUInt16.toNat) fun _ => True :=
  (codes_takeNat 2).map (fun n => (UInt16.ofNat n).toInt16) (fun v => v.toUInt16.toNat)
    (fun _ => by rw [UInt16.ofNat_toNat, Int16.toInt16_toUInt16])
    (fun _ hn => by rw [UInt16.toUInt16_toInt16]; exact UInt16.toNat_ofNat_of_lt' hn) fun v => v.toUInt16.toNat_lt

theorem codes_takeInt32 : Codes takeInt32 (fun v => BigEndian.toBytes 4 v.toUInt32.toNat) fun _ => True :=
  (codes_takeNat 4).map (fun n => (UInt32.ofNat n).toInt32) (fun v => v.toUInt32.toNat)
    (fun _ => by rw [UInt32.ofNat_toNat, Int32.toInt32_toUInt32])
    (fun _ hn => by rw [UInt32.toUInt32_toInt32]; exact UInt32.toNat_ofNat_of_lt' hn) fun v => v.toUInt32.toNat_lt

theorem codes_takeInt64 : Codes takeInt64 (fun v => BigEndian.toBytes 8 v.toUInt64.toNat) fun _ => True :=
  (codes_takeNat 8).map (fun n => (UInt64.ofNat n).toInt64) (fun v => v.toUInt64.toNat)
    (fun _ => by rw [UInt64.ofNat_toNat, Int64.toInt64_toUInt64])
    (fun _ hn => by rw [UInt64.toUInt64_toInt64]; exact UInt64.toNat_ofNat_of_lt' hn) fun v => v.toUInt64.toNat_lt

theorem codes_takeSingle : Codes takeSingle (fun v => BigEndian.toBytes 4 v.bits.toNat) fun _ => True :=
  (codes_takeNat 4).map (fun n => Single.mk (.ofNat n)) (fun v => v.bits.toNat) (fun _ => by rw [UInt32.ofNat_toNat])
    (fun _ hn => UInt32.toNat_ofNat_of_lt' hn) fun v => v.bits.toNat_lt

theorem codes_takeDouble : Codes takeDouble (fun v => BigEndian.toBytes 8 v.bits.toNat) fun _ => True :=
  (codes_takeNat 8).map (fun n => Double.mk (.ofNat n)) (fun v => v.bits.toNat) (fun _ => by rw [UInt64.ofNat_toNat])
    (fun _ hn => UInt64.toNat_ofNat_of_lt' hn) fun v => v.bits.toNat_lt

/-- Any byte is a boolean; which one it was is not known afterwards. -/
theorem takes_takeBoolean (raw : UInt8) : Takes takeBoolean [raw] (raw != 0) :=
  ((codes_takeByte.takes raw trivial).bind (takes_pure (raw != 0))).of_eq (List.append_nil _) rfl

theorem takeBoolean_ok {s s' : Supply} {v : Bool} (h : takeBoolean s = .ok v s') :
    ∃ raw, v = (raw != 0) ∧ Took s [raw] s' := by
  obtain ⟨raw, s1, h1, h2⟩ := bind_ok h
  obtain ⟨rfl, rfl⟩ := pure_ok h2
  exact ⟨raw, rfl, (codes_takeByte.took _ _ _ h1).2⟩

section

variable {α : Type} {take : Decoder α} {form : α → List UInt8} {Has : α → Prop} {f : α → Payload}

theorem takes_one (h : Codes take form Has) {a : α} (ha : Has a) : Takes (do return f (← take)) (form a) (f a) :=
  ((h.takes a ha).map f).of_eq rfl rfl

theorem one_ok (h : Codes take form Has) {s s' : Supply} {p : Payload} (hs : (do return f (← take) : Decoder Payload) s = .ok p s') :
    ∃ a, Has a ∧ p = f a ∧ Took s (form a) s' := by
  obtain ⟨a, s1, h1, h2⟩ := bind_ok hs
  obtain ⟨rfl, rfl⟩ := pure_ok h2
  obtain ⟨ha, ht⟩ := h.took _ _ _ h1
  exact ⟨a, ha, rfl, ht⟩

end

variable {reg : Registry} {c : Charset} {budget levels : Nat}

theorem takes_leaf {l : Leaf} (h : l.Fits c) :
    Takes (takePayload reg c budget (levels + 1) l.kind) (l.bytes c) (.scalar l.value) := by
  match l, h with
  | .boolean raw, _ => exact ((takes_takeBoolean raw).map fun v => Payload.scalar (.boolean v)).of_eq rfl rfl
  | .scalar (.boolean v), h => exact absurd rfl h.1
  | .scalar (.byte v), _ => exact takes_one codes_takeInt8 trivial
  | .scalar (.short v), _ => exact takes_one codes_takeInt16 trivial
  | .scalar (.int v), _ => exact takes_one codes_takeInt32 trivial
  | .scalar (.long v), _ => exact takes_one codes_takeInt64 trivial
  | .scalar (.float v), _ => exact takes_one codes_takeSingle trivial
  | .scalar (.double v), _ => exact takes_one codes_takeDouble trivial
  | .scalar (.string v), h => exact takes_one (codes_takeString c) h.2
  | .scalar (.timestamp v), h => exact takes_one Timestamp.codes_read h.2

theorem took_leaf {k : Kind} (hk : k.category ≠ .container) {s s' : Supply} {p : Payload}
    (h : takePayload reg c budget (levels + 1) k s = .ok p s') :
    ∃ l : Leaf, l.kind = k ∧ l.Fits c ∧ p = .scalar l.value ∧ Took s (l.bytes c) s' := by
  match k, hk, h with
  | .boolean, _, h =>
    obtain ⟨v, s1, h1, h2⟩ := bind_ok h
    obtain ⟨rfl, rfl⟩ := pure_ok h2
    obtain ⟨raw, rfl, ht⟩ := takeBoolean_ok h1
    exact ⟨.boolean raw, rfl, trivial, rfl, ht⟩
  | .byte, _, h =>
    obtain ⟨v, _, rfl, ht⟩ := one_ok codes_takeInt8 h
    exact ⟨.scalar (.byte v), rfl, ⟨nofun, trivial⟩, rfl, ht⟩
  | .short, _, h =>
    obtain ⟨v, _, rfl, ht⟩ := one_ok codes_takeInt16 h
    exact ⟨.scalar (.short v), rfl, ⟨nofun, trivial⟩, rfl, ht⟩
  | .int, _, h =>
    obtain ⟨v, _, rfl, ht⟩ := one_ok codes_takeInt32 h
    exact ⟨.scalar (.int v), rfl, ⟨nofun, trivial⟩, rfl, ht⟩
  | .long, _, h =>
    obtain ⟨v, _, rfl, ht⟩ := one_ok codes_takeInt64 h
    exact ⟨.scalar (.long v), rfl, ⟨nofun, trivial⟩, rfl, ht⟩
  | .float, _, h =>
    obtain ⟨v, _, rfl, ht⟩ := one_ok codes_takeSingle h
    exact ⟨.scalar (.float v), rfl, ⟨nofun, trivial⟩, rfl, ht⟩
  | .double, _, h =>
    obtain ⟨v, _, rfl, ht⟩ := one_ok codes_takeDouble h
    exact ⟨.scalar (.double v), rfl, ⟨nofun, trivial⟩, rfl, ht⟩
  | .string, _, h =>
    obtain ⟨v, hv, rfl, ht⟩ := one_ok (codes_takeString c) h
    exact ⟨.scalar (.string v), rfl, ⟨nofun, hv⟩, rfl, ht⟩
  | .timestamp, _, h =>
    obtain ⟨v, hv, rfl, ht⟩ := one_ok Timestamp.codes_read h
    exact ⟨.scalar (.timestamp v), rfl, ⟨nofun, hv⟩, rfl, ht⟩

/-! ## Sequences -/

section

variable {α β : Type} {one : Decoder α}

theorem takes_many {form : β → List UInt8} {value : β → α} {bs : List β} (h : ∀ b ∈ bs, Takes one (form b) (value b))
    (acc : List α) : Takes (takeMany one bs.length acc) (bs.flatMap form) (acc.reverse ++ bs.map value) := by
  induction bs generalizing acc with
  | nil => exact (takes_pure acc.reverse).of_eq rfl (List.append_nil _).symm
  | cons b rest ih =>
    have hrest := ih (fun b hb => h b (List.mem_cons_of_mem _ hb)) (value b :: acc)
    exact ((h b List.mem_cons_self).bind hrest).of_eq rfl (by simp)

theorem took_many {form : β → List UInt8} {value : β → α} {Has : β → Prop}
    (h : ∀ s a s', one s = .ok a s' → ∃ b, Has b ∧ a = value b ∧ Took s (form b) s') {count : Nat} {acc out : List α}
    {s s' : Supply} (hs : takeMany one count acc s = .ok out s') :
    ∃ bs : List β, bs.length = count ∧ (∀ b ∈ bs, Has b) ∧ out = acc.reverse ++ bs.map value ∧
      Took s (bs.flatMap form) s' := by
  induction count generalizing acc s with
  | zero =>
    obtain ⟨rfl, rfl⟩ := pure_ok hs
    exact ⟨[], rfl, nofun, by simp, Took.refl _⟩
  | succ n ih =>
    obtain ⟨a, s1, h1, h2⟩ := bind_ok hs
    obtain ⟨b, hb, rfl, t1⟩ := h _ _ _ h1
    obtain ⟨bs, rfl, hbs, rfl, t2⟩ := ih h2
    exact ⟨b :: bs, rfl, List.forall_mem_cons.2 ⟨hb, hbs⟩, by simp, t1.trans t2⟩

end

/-! ## Containers -/

section

variable {payload : Kind → Decoder Payload}

theorem takes_entries {es : List (UInt8 × String × Spelling)}
    (ids : ∀ e ∈ es, e.1 ≠ TypeId.terminator.toByte ∧ reg.kindOf e.1 = .ok e.2.2.kind)
    (names : ∀ e ∈ es, Counted c e.2.1)
    (below : ∀ e ∈ es, Takes (payload e.2.2.kind) (e.2.2.bytes c) e.2.2.payload) (hb : es.length < budget)
    (acc : List (String × Value)) :
    Takes (takeEntries reg c payload budget acc) (Spelling.entriesBytes c es ++ [TypeId.terminator.toByte])
      (Entries.putAll (Spelling.entries es) acc) := by
  induction es generalizing budget acc with
  | nil =>
    obtain ⟨n, rfl⟩ : ∃ n, budget = n + 1 := ⟨budget - 1, by simp at hb; omega⟩
    have hend : Takes (takeEntries reg c payload (n + 1) acc) ([TypeId.terminator.toByte] ++ []) acc := by
      refine (codes_takeByte.takes TypeId.terminator.toByte trivial).bind ?_
      rw [if_pos rfl]
      exact takes_pure acc
    exact hend
  | cons e rest ih =>
    obtain ⟨id, name, v⟩ := e
    obtain ⟨n, rfl⟩ : ∃ n, budget = n + 1 := ⟨budget - 1, by simp at hb; omega⟩
    obtain ⟨⟨hid, hkind⟩, ids⟩ := List.forall_mem_cons.1 ids
    obtain ⟨hname, names⟩ := List.forall_mem_cons.1 names
    obtain ⟨hv, below⟩ := List.forall_mem_cons.1 below
    have hrest := ih ids names below (by simpa using hb) (Entries.put name ⟨some name, v.payload, false⟩ acc)
    have hall : Takes (takeEntries reg c payload (n + 1) acc)
        ([id] ++ ([] ++ (stringBytes c name ++ (v.bytes c ++ (Spelling.entriesBytes c rest ++ [TypeId.terminator.toByte])))))
        (Entries.putAll (Spelling.entries ((id, name, v) :: rest)) acc) := by
      refine (codes_takeByte.takes id trivial).bind ?_
      rw [if_neg hid]
      exact (takes_settled hkind).bind (((codes_takeString c).takes name hname).bind (hv.bind hrest))
    exact hall.of_eq (by simp [Spelling.entriesBytes]) rfl

variable {n : Nat} (below : ∀ k s p s', payload k s = .ok p s' →
  ∃ σ : Spelling, σ.kind = k ∧ σ.Fits reg c n ∧ p = σ.payload ∧ Took s (σ.bytes c) s')

include below

theorem took_entries {acc out : List (String × Value)} {s s' : Supply}
    (h : takeEntries reg c payload budget acc s = .ok out s') :
    ∃ es : List (UInt8 × String × Spelling),
      (∀ e ∈ es, e.1 ≠ TypeId.terminator.toByte ∧ reg.kindOf e.1 = .ok e.2.2.kind) ∧ (∀ e ∈ es, Counted c e.2.1) ∧
      (∀ e ∈ es, e.2.2.Fits reg c n) ∧ out = Entries.putAll (Spelling.entries es) acc ∧
      Took s (Spelling.entriesBytes c es ++ [TypeId.terminator.toByte]) s' := by
  induction budget generalizing acc s with
  | zero => exact (throw_ne_ok h).elim
  | succ budget ih =>
    obtain ⟨id, s1, h1, h⟩ := bind_ok h
    have t1 := (codes_takeByte.took _ _ _ h1).2
    split at h
    · rename_i hid
      obtain ⟨rfl, rfl⟩ := pure_ok h
      exact ⟨[], nofun, nofun, nofun, rfl, hid ▸ t1⟩
    · rename_i hid
      obtain ⟨kind, hkind, h⟩ := settled_bind_ok h
      obtain ⟨name, s3, h3, h⟩ := bind_ok h
      obtain ⟨hname, t3⟩ := (codes_takeString c).took _ _ _ h3
      obtain ⟨p, s4, h4, h⟩ := bind_ok h
      obtain ⟨σ, rfl, hσ, rfl, t4⟩ := below _ _ _ _ h4
      obtain ⟨es, ids, names, fits, rfl, t5⟩ := ih h
      refine ⟨(id, name, σ) :: es, List.forall_mem_cons.2 ⟨⟨hid, hkind⟩, ids⟩, List.forall_mem_cons.2 ⟨hname, names⟩,
        List.forall_mem_cons.2 ⟨hσ, fits⟩, rfl, ?_⟩
      exact (t1.trans (t3.trans (t4.trans t5))).of_eq (by simp [Spelling.entriesBytes])

theorem took_named {k : Kind} {v : Value} {s s' : Supply}
    (h : (do return ⟨some (← takeString c), ← payload k, false⟩ : Decoder Value) s = .ok v s') :
    ∃ e : String × Spelling, (e.2.kind = k ∧ Counted c e.1 ∧ e.2.Fits reg c n) ∧ v = ⟨some e.1, e.2.payload, false⟩ ∧
      Took s (stringBytes c e.1 ++ e.2.bytes c) s' := by
  obtain ⟨name, s1, h1, h⟩ := bind_ok h
  obtain ⟨p, s2, h2, h⟩ := bind_ok h
  obtain ⟨rfl, rfl⟩ := pure_ok h
  obtain ⟨hname, t1⟩ := (codes_takeString c).took _ _ _ h1
  obtain ⟨σ, hk, hσ, rfl, t2⟩ := below _ _ _ _ h2
  exact ⟨(name, σ), ⟨hk, hname, hσ⟩, rfl, t1.trans t2⟩

theorem took_list {out : List Value} {s s' : Supply} (h : takeList reg c payload s = .ok out s') :
    ∃ σ : Spelling, σ.kind = .list ∧ σ.Fits reg c (n + 1) ∧ .list out = σ.payload ∧ Took s (σ.bytes c) s' := by
  obtain ⟨id, s1, h1, h⟩ := bind_ok h
  have t1 := (codes_takeByte.took _ _ _ h1).2
  split at h
  · rename_i hid
    obtain ⟨rfl, rfl⟩ := pure_ok h
    exact ⟨.noList, rfl, .noList, rfl, t1.of_eq (by rw [hid]; rfl)⟩
  · rename_i hid
    obtain ⟨kind, hkind, h⟩ := settled_bind_ok h
    obtain ⟨count, s3, h3, h⟩ := bind_ok h
    obtain ⟨hcount, t3⟩ := codes_takeCount.took _ _ _ h3
    obtain ⟨xs, rfl, hxs, rfl, t4⟩ := took_many (fun _ _ _ => took_named below) h
    refine ⟨.list id xs, rfl, .list hid hkind hcount (fun e he => (hxs e he).1) (fun e he => (hxs e he).2.1)
      fun e he => (hxs e he).2.2, ?_, ?_⟩
    · simp [Spelling.payload, Spelling.elements_eq_map]
    · exact (t1.trans (t3.trans t4)).of_eq (by simp [Spelling.bytes, Spelling.elementsBytes_eq_flatMap])

end

theorem takes_named {payload : Kind → Decoder Payload} {k : Kind} {e : String × Spelling} (name : Counted c e.1)
    (below : Takes (payload k) (e.2.bytes c) e.2.payload) :
    Takes (do return ⟨some (← takeString c), ← payload k, false⟩) (stringBytes c e.1 ++ e.2.bytes c)
      (⟨some e.1, e.2.payload, false⟩ : Value) :=
  ((codes_takeString c).takes e.1 name).bind (below.map fun p => (⟨some e.1, p, false⟩ : Value))

theorem takes_list {payload : Kind → Decoder Payload} {id : UInt8} {k : Kind} {xs : List (String × Spelling)}
    (hid : id ≠ TypeId.terminator.toByte) (hk : reg.kindOf id = .ok k) (count : xs.length < countLimit)
    (names : ∀ e ∈ xs, Counted c e.1) (below : ∀ e ∈ xs, Takes (payload k) (e.2.bytes c) e.2.payload) :
    Takes (takeList reg c payload) ((Spelling.list id xs).bytes c) (Spelling.elements xs) := by
  have hall : Takes (takeList reg c payload)
      ([id] ++ ([] ++ (BigEndian.toBytes 4 xs.length ++ xs.flatMap fun e => stringBytes c e.1 ++ e.2.bytes c)))
      ([].reverse ++ xs.map fun e => ⟨some e.1, e.2.payload, false⟩) := by
    refine (codes_takeByte.takes id trivial).bind ?_
    rw [if_neg hid]
    refine (takes_settled hk).bind ((codes_takeCount.takes xs.length count).bind (takes_many (fun e he => ?_) []))
    exact takes_named (names e he) (below e he)
  exact hall.of_eq (by simp [Spelling.bytes, Spelling.elementsBytes_eq_flatMap]) (by simp [Spelling.elements_eq_map])

theorem takes_array {payload : Kind → Decoder Payload} {id : UInt8} {k : Kind} {xs : List Leaf}
    (hid : id ≠ TypeId.terminator.toByte) (hk : reg.kindOf id = .ok k) (hp : k.isPrimitive = true)
    (count : xs.length < countLimit) (below : ∀ l ∈ xs, Takes (payload k) (l.bytes c) (.scalar l.value)) :
    Takes (takeArray reg payload) ((Spelling.array id xs).bytes c) (xs.map fun l => ⟨none, .scalar l.value, false⟩) := by
  have hone : ∀ l ∈ xs, Takes (do return ⟨none, ← payload k, false⟩) (l.bytes c) (⟨none, .scalar l.value, false⟩ : Value) :=
    fun l hl => (below l hl).map fun p => (⟨none, p, false⟩ : Value)
  have hall : Takes (takeArray reg payload)
      ([id] ++ ([] ++ (BigEndian.toBytes 4 xs.length ++ xs.flatMap (Leaf.bytes c))))
      ([].reverse ++ xs.map fun l => ⟨none, .scalar l.value, false⟩) := by
    refine (codes_takeByte.takes id trivial).bind ?_
    rw [if_neg hid]
    refine (takes_settled hk).bind ?_
    simp only [hp, Bool.not_true, Bool.false_eq_true, if_false]
    exact (codes_takeCount.takes xs.length count).bind (takes_many hone [])
  exact hall.of_eq (by simp [Spelling.bytes]) (by simp)

theorem took_array {out : List Value} {s s' : Supply} (h : takeArray reg (takePayload reg c budget levels) s = .ok out s') :
    ∃ σ : Spelling, σ.kind = .array ∧ σ.Fits reg c (levels + 1) ∧ .array out = σ.payload ∧ Took s (σ.bytes c) s' := by
  obtain ⟨id, s1, h1, h⟩ := bind_ok h
  have t1 := (codes_takeByte.took _ _ _ h1).2
  split at h
  · rename_i hid
    obtain ⟨rfl, rfl⟩ := pure_ok h
    exact ⟨.noArray, rfl, .noArray, rfl, t1.of_eq (by rw [hid]; rfl)⟩
  · rename_i hid
    obtain ⟨kind, hkind, h⟩ := settled_bind_ok h
    split at h
    · obtain ⟨_, _, h, _⟩ := bind_ok h
      exact (throw_ne_ok h).elim
    rename_i hp
    have hp : kind.isPrimitive = true := by simpa using hp
    obtain ⟨count, s3, h3, h⟩ := bind_ok h
    obtain ⟨hcount, t3⟩ := codes_takeCount.took _ _ _ h3
    have hone : ∀ s v s', (do return ⟨none, ← takePayload reg c budget levels kind, false⟩ : Decoder Value) s = .ok v s' →
        ∃ l : Leaf, (levels ≠ 0 ∧ l.kind = kind ∧ l.Fits c) ∧ v = ⟨none, .scalar l.value, false⟩ ∧
          Took s (l.bytes c) s' := by
      intro s v s' hv
      obtain ⟨p, s4, h4, hv⟩ := bind_ok hv
      obtain ⟨rfl, rfl⟩ := pure_ok hv
      cases levels with
      | zero => exact (throw_ne_ok h4).elim
      | succ n =>
        have hcat : kind.category ≠ .container := by
          intro hc
          simp [Kind.isPrimitive, hc] at hp
        obtain ⟨l, hk, hl, rfl, t⟩ := took_leaf hcat h4
        exact ⟨l, ⟨n.succ_ne_zero, hk, hl⟩, rfl, t⟩
    obtain ⟨xs, rfl, hxs, rfl, t4⟩ := took_many hone h
    have hbelow : levels ≠ 0 ∨ xs = [] := by
      cases xs with
      | nil => exact .inr rfl
      | cons l rest => exact .inl (hxs l List.mem_cons_self).1
    refine ⟨.array id xs, rfl, .array hid hkind hp hcount (fun l hl => (hxs l hl).2.1) hbelow
      fun l hl => (hxs l hl).2.2, ?_, ?_⟩
    · simp [Spelling.payload]
    · exact (t1.trans (t3.trans t4)).of_eq (by simp [Spelling.bytes])

/-! ## Payloads -/

theorem took_payload {k : Kind} {s s' : Supply} {p : Payload} (h : takePayload reg c budget levels k s = .ok p s') :
    ∃ σ : Spelling, σ.kind = k ∧ σ.Fits reg c levels ∧ p = σ.payload ∧ Took s (σ.bytes c) s' := by
  induction levels generalizing k s p s' with
  | zero => exact (throw_ne_ok h).elim
  | succ n ih =>
    by_cases hc : k.category = .container
    · cases k with
      | object =>
        obtain ⟨out, s1, h1, h⟩ := bind_ok h
        obtain ⟨rfl, rfl⟩ := pure_ok h
        obtain ⟨es, ids, names, fits, rfl, ht⟩ := took_entries (fun _ _ _ _ => ih) h1
        exact ⟨.object es, rfl, .object ids names fits, rfl, ht⟩
      | list =>
        obtain ⟨out, s1, h1, h⟩ := bind_ok h
        obtain ⟨rfl, rfl⟩ := pure_ok h
        exact took_list (fun _ _ _ _ => ih) h1
      | array =>
        obtain ⟨out, s1, h1, h⟩ := bind_ok h
        obtain ⟨rfl, rfl⟩ := pure_ok h
        exact took_array h1
      | _ => cases hc
    · obtain ⟨l, hk, hl, rfl, ht⟩ := took_leaf hc h
      exact ⟨.leaf l, hk, .leaf hl, rfl, ht⟩

theorem takes_payload {σ : Spelling} (h : σ.Fits reg c levels) (hb : (σ.bytes c).length ≤ budget) :
    Takes (takePayload reg c budget levels σ.kind) (σ.bytes c) σ.payload := by
  induction h with
  | leaf h => exact takes_leaf h
  | @object n es ids names below ih =>
    have hlen := Spelling.length_le_entriesBytes c es
    simp only [Spelling.bytes, List.length_append, List.length_singleton] at hb
    have hsub : ∀ e ∈ es, Takes (takePayload reg c budget n e.2.2.kind) (e.2.2.bytes c) e.2.2.payload := by
      intro e he
      have := Spelling.length_bytes_of_mem_entries c he
      exact ih e he (by omega)
    exact (takes_entries ids names hsub (by omega) []).map Payload.object
  | noList =>
    refine Takes.map Payload.list ((codes_takeByte.takes TypeId.terminator.toByte trivial).bind (takes_pure []))
  | @list n id k xs hid hk count kinds names below ih =>
    simp only [Spelling.bytes, List.length_cons, List.length_append] at hb
    have hsub : ∀ e ∈ xs, Takes (takePayload reg c budget n k) (e.2.bytes c) e.2.payload := by
      intro e he
      have := Spelling.length_bytes_of_mem_elements c he
      exact kinds e he ▸ ih e he (by omega)
    exact (takes_list hid hk count names hsub).map Payload.list
  | noArray =>
    refine Takes.map Payload.array ((codes_takeByte.takes TypeId.terminator.toByte trivial).bind (takes_pure []))
  | @array n id k xs hid hk hp count kinds below fits =>
    have hsub : ∀ l ∈ xs, Takes (takePayload reg c budget n k) (l.bytes c) (.scalar l.value) := by
      intro l hl
      obtain ⟨m, rfl⟩ : ∃ m, n = m + 1 := by
        rcases below with h | rfl
        · exact ⟨n - 1, by omega⟩
        · cases hl
      exact kinds l hl ▸ takes_leaf (fits l hl)
    exact (takes_array hid hk hp count hsub).map Payload.array

theorem takes_decode {σ : Spelling} (h : σ.Fits reg c (maxDepth + 1)) :
    Takes (Payload.decode reg c σ.kind) (σ.bytes c) σ.payload := by
  intro s rest hs
  refine takes_payload h ?_ s rest hs
  rw [Supply.size, Supply.bytes, hs, List.length_append, List.length_append]
  omega

theorem decode_ok {k : Kind} {s s' : Supply} {p : Payload} (h : Payload.decode reg c k s = .ok p s') :
    ∃ σ : Spelling, σ.kind = k ∧ σ.Fits reg c (maxDepth + 1) ∧ p = σ.payload ∧ Took s (σ.bytes c) s' :=
  took_payload h

end TypedDoc
