import ConstFold.Proofs.Cache.RoundTrip

/-!
# Reading from the cache is strict

A constant is read from an object with one entry, whose key is the tag of the kind. If the kind is
no float kind, then the content of the entry has to denote the payload in full: an integer is the
very number of the word or address, and a tag is written in one of two ways. So reading goes by the
relation `Denotes` and accepts nothing else. In particular an integer that the kind does not have is
an error; it is not cut off at the end of the range, and not wrapped around.

Writing does not come into this. A tree that the cache never wrote is held to the same relation as
one that it did.

## Main definitions

* `Cache.Tree.Spells` — the two spellings of a tag without content
* `Cache.Denotes` — the contents of a constant
* `Kind.HasInteger` — the integers that are constants of a kind

## Main results

* `decodeSigned?_eq_some_iff`, `decodeUnsigned?_eq_some_iff` — the integer that a word is read from
* `denotes_of_decodePayload?`, `decodePayload?_of_denotes` — the contents that a constant is read
  from
* `isSome_decodeValue?_int_iff` — the integers that are read
* `decodeValue?_iff_denotes` — the trees that a constant is read from
-/

namespace ConstFold

/-- The integers that are constants of a kind. Floats are rounded from any integer. -/
def Kind.HasInteger (n : ℤ) : Kind → Prop
  | int32 => -2 ^ 31 ≤ n ∧ n < 2 ^ 31
  | int64 => -2 ^ 63 ≤ n ∧ n < 2 ^ 63
  | addr => 0 ≤ n ∧ n < 2 ^ 64
  | float32 | float64 => True
  | cond | memory | void | tuple => False

/-! ### Tags -/

/-- A table in which an entry is found by its own tag has it under no other tag. -/
theorem find?_tag_eq_some_iff {α : Type*} {entries : List α} {tag : α → String} {s : String} {a : α}
    (hself : entries.find? (fun b => tag b == tag a) = some a) :
    entries.find? (fun b => tag b == s) = some a ↔ s = tag a := by
  constructor
  · intro h
    have htag : (tag a == s) = true := List.find?_some (p := fun b => tag b == s) h
    exact (beq_iff_eq.mp htag).symm
  · rintro rfl
    exact hself

theorem Kind.ofTag?_eq_some_iff {s : String} {k : Kind} : ofTag? s = some k ↔ s = k.tag :=
  find?_tag_eq_some_iff (ofTag?_tag k)

theorem Condition.ofTag?_eq_some_iff {s : String} {c : Condition} :
    ofTag? s = some c ↔ s = c.tag :=
  find?_tag_eq_some_iff (ofTag?_tag c)

namespace Cache

/-- A tree is a tag without content, in one of the two spellings: as a string, or as the key of an
object with null as its only content. -/
def Tree.Spells (t : Tree) (tag : String) : Prop :=
  t = .str tag ∨ t = .obj [(tag, .null)]

theorem Tree.tag?_eq_some_iff {t : Tree} {tag : String} : t.tag? = some tag ↔ t.Spells tag := by
  constructor
  · intro h
    unfold tag? at h
    split at h
    · exact Or.inl (congrArg _ (Option.some.inj h))
    · rw [Option.some.inj h]
      exact Or.inr rfl
    · exact nomatch h
  · rintro (rfl | rfl) <;> rfl

theorem decodeCondition?_eq_some_iff {t : Tree} {c : Condition} :
    decodeCondition? t = some c ↔ t.Spells c.tag := by
  rw [decodeCondition?, Option.bind_eq_some_iff]
  constructor
  · rintro ⟨tag, htag, hc⟩
    rw [← Condition.ofTag?_eq_some_iff.mp hc]
    exact Tree.tag?_eq_some_iff.mp htag
  · intro h
    exact ⟨_, Tree.tag?_eq_some_iff.mpr h, Condition.ofTag?_tag c⟩

theorem decodeMemory?_eq_some_iff {t : Tree} {m : Memory} :
    decodeMemory? t = some m ↔ t.Spells m.tag := by
  cases m
  rw [← Tree.tag?_eq_some_iff, decodeMemory?]
  cases t.tag? with
  | none => simp
  | some tag => simp

/-! ### Integers -/

section

variable {w : ℕ} {n : ℤ} {t : Tree} {v : BitVec w}

/-- **A signed word is read from its number**, and from nothing else. -/
theorem decodeSigned?_eq_some_iff : decodeSigned? w t = some v ↔ t = .int v.toInt := by
  cases t with
  | int n => rw [decodeSigned?, Word.ofInt_signed_eq_some_iff, Tree.int.injEq, eq_comm]
  | null | bool _ | real _ | str _ | arr _ | obj _ => exact iff_of_false nofun nofun

/-- **An unsigned word is read from its number**, and from nothing else. -/
theorem decodeUnsigned?_eq_some_iff : decodeUnsigned? w t = some v ↔ t = .int v.toNat := by
  cases t with
  | int n => rw [decodeUnsigned?, Word.ofInt_unsigned_eq_some_iff, Tree.int.injEq, eq_comm]
  | null | bool _ | real _ | str _ | arr _ | obj _ => exact iff_of_false nofun nofun

theorem isSome_decodeSigned?_iff (hw : 0 < w) : (decodeSigned? w (.int n)).isSome = true ↔
    -2 ^ (w - 1) ≤ n ∧ n < 2 ^ (w - 1) := by
  rw [decodeSigned?, Option.isSome_ite, BitVec.toInt_intMin_of_pos hw, BitVec.toInt_intMax,
    Int.le_sub_one_iff]

theorem isSome_decodeUnsigned?_iff : (decodeUnsigned? w (.int n)).isSome = true ↔
    0 ≤ n ∧ n < 2 ^ w := by
  have hmax : ((BitVec.allOnes w).toNat : ℤ) = 2 ^ w - 1 := by
    rw [BitVec.toNat_allOnes, Nat.cast_sub (Nat.one_le_two_pow), Nat.cast_pow, Nat.cast_one,
      Nat.cast_ofNat]
  rw [decodeUnsigned?, Option.isSome_ite, hmax, Int.le_sub_one_iff]

end

/-! ### Contents -/

/-- The content of a constant: the number of a word or an address, or a tag. A float has a number,
about which nothing more is said here. -/
def Denotes (content : Tree) : Value → Prop
  | .int32 v => content = .int v.toInt
  | .int64 v => content = .int v.toInt
  | .float32 _ | .float64 _ => (∃ n, content = .int n) ∨ ∃ r, content = .real r
  | .addr a => content = .int a.raw.toNat
  | .cond c => content.Spells c.tag
  | .memory m => content.Spells m.tag

theorem exists_number_of_decodeBinary? {f : Format} {content : Tree} {b : Binary f}
    (h : decodeBinary? f content = some b) :
    (∃ n, content = .int n) ∨ ∃ r, content = .real r := by
  cases content with
  | int n => exact Or.inl ⟨n, rfl⟩
  | real r => exact Or.inr ⟨r, rfl⟩
  | null | bool _ | str _ | arr _ | obj _ => exact nomatch h

/-- What a constant is read from denotes it. -/
theorem denotes_of_decodePayload? {content : Tree} {k : Kind} {v : Value}
    (h : decodePayload? content k = some v) : v.kind = k ∧ Denotes content v := by
  cases k with
  | int32 =>
    obtain ⟨x, hx, rfl⟩ := Option.map_eq_some_iff.mp h
    exact ⟨rfl, decodeSigned?_eq_some_iff.mp hx⟩
  | int64 =>
    obtain ⟨x, hx, rfl⟩ := Option.map_eq_some_iff.mp h
    exact ⟨rfl, decodeSigned?_eq_some_iff.mp hx⟩
  | float32 =>
    obtain ⟨b, hb, rfl⟩ := Option.map_eq_some_iff.mp h
    exact ⟨rfl, exists_number_of_decodeBinary? hb⟩
  | float64 =>
    obtain ⟨b, hb, rfl⟩ := Option.map_eq_some_iff.mp h
    exact ⟨rfl, exists_number_of_decodeBinary? hb⟩
  | addr =>
    obtain ⟨a, ha, rfl⟩ := Option.map_eq_some_iff.mp h
    obtain ⟨raw, hraw, rfl⟩ := Option.map_eq_some_iff.mp ha
    exact ⟨rfl, decodeUnsigned?_eq_some_iff.mp hraw⟩
  | cond =>
    obtain ⟨c, hc, rfl⟩ := Option.map_eq_some_iff.mp h
    exact ⟨rfl, decodeCondition?_eq_some_iff.mp hc⟩
  | memory =>
    obtain ⟨m, hm, rfl⟩ := Option.map_eq_some_iff.mp h
    exact ⟨rfl, decodeMemory?_eq_some_iff.mp hm⟩
  | void | tuple => exact nomatch h

/-- Every content of a constant of another kind than the float ones is read. -/
theorem decodePayload?_of_denotes {content : Tree} {v : Value} (hk : v.kind.isFloating = false)
    (h : Denotes content v) : decodePayload? content v.kind = some v := by
  cases v with
  | int32 v => exact congrArg (Option.map Value.int32) (decodeSigned?_eq_some_iff.mpr h)
  | int64 v => exact congrArg (Option.map Value.int64) (decodeSigned?_eq_some_iff.mpr h)
  | addr a =>
    have hraw := congrArg (Option.map Addr.mk) (decodeUnsigned?_eq_some_iff.mpr h)
    exact congrArg (Option.map Value.addr) hraw
  | cond c => exact congrArg (Option.map Value.cond) (decodeCondition?_eq_some_iff.mpr h)
  | memory m => exact congrArg (Option.map Value.memory) (decodeMemory?_eq_some_iff.mpr h)
  | float32 _ | float64 _ => exact absurd hk.symm Bool.false_ne_true

/-! ### Trees -/

/-- A constant is read from an object with one entry, which is the tag and a content of its kind. -/
theorem decodeValue?_eq_some_iff {t : Tree} {v : Value} :
    decodeValue? t = some v ↔
      ∃ content, t = .obj [(v.kind.tag, content)] ∧ decodePayload? content v.kind = some v := by
  constructor
  · intro h
    unfold decodeValue? at h
    split at h
    · next tag content =>
      obtain ⟨k, hk, hv⟩ := Option.bind_eq_some_iff.mp h
      obtain ⟨rfl, -⟩ := denotes_of_decodePayload? hv
      exact ⟨content, by rw [Kind.ofTag?_eq_some_iff.mp hk], hv⟩
    · exact nomatch h
  · rintro ⟨content, rfl, hv⟩
    exact (decodeValue?_tagged v.kind content).trans hv

/-- A tree of another shape is no constant. -/
theorem decodeValue?_eq_none {t : Tree} (h : ∀ tag content, t ≠ .obj [(tag, content)]) :
    decodeValue? t = none := by
  rw [decodeValue?]
  exact h

/-- **An integer is read as a constant of a kind** exactly if the kind has it. -/
theorem isSome_decodeValue?_int_iff (k : Kind) (n : ℤ) :
    (decodeValue? (.tagged k.tag (.int n))).isSome = true ↔ k.HasInteger n := by
  rw [decodeValue?_tagged]
  cases k with
  | int32 =>
    rw [decodePayload?, Option.isSome_map]
    exact isSome_decodeSigned?_iff (by decide)
  | int64 =>
    rw [decodePayload?, Option.isSome_map]
    exact isSome_decodeSigned?_iff (by decide)
  | addr =>
    rw [decodePayload?, decodeAddr?, Option.isSome_map, Option.isSome_map]
    exact isSome_decodeUnsigned?_iff
  | float32 | float64 =>
    rw [decodePayload?, Option.isSome_map, decodeBinary?]
    split_ifs <;> exact iff_of_true rfl trivial
  | cond | memory | void | tuple => exact iff_of_false Bool.false_ne_true id

/-- **Reading is strict.** A constant is read only from an object with one entry, whose key is the
tag of its kind and whose content denotes it; and unless its kind is a float kind, it is read from
every such object. So an integer is read if the kind has it, and is an error otherwise; and so are a
string by itself, an object without entries and one with two. -/
theorem decodeValue?_iff_denotes :
    (∀ t v, decodeValue? t = some v →
      ∃ content, t = .obj [(v.kind.tag, content)] ∧ Denotes content v) ∧
    (∀ content v, v.kind.isFloating = false → Denotes content v →
      decodeValue? (.obj [(v.kind.tag, content)]) = some v) ∧
    (∀ k n, (decodeValue? (.obj [(Kind.tag k, .int n)])).isSome = true ↔ k.HasInteger n) ∧
    (∀ s, decodeValue? (.str s) = none) ∧ decodeValue? (.obj []) = none ∧
    ∀ e e' rest, decodeValue? (.obj (e :: e' :: rest)) = none := by
  refine ⟨?_, ?_, isSome_decodeValue?_int_iff, ?_, ?_, ?_⟩
  · intro t v h
    obtain ⟨content, ht, hv⟩ := decodeValue?_eq_some_iff.mp h
    exact ⟨content, ht, (denotes_of_decodePayload? hv).2⟩
  · intro content v hk h
    exact decodeValue?_eq_some_iff.mpr ⟨content, rfl, decodePayload?_of_denotes hk h⟩
  · intro s
    exact decodeValue?_eq_none nofun
  · exact decodeValue?_eq_none nofun
  · intro e e' rest
    exact decodeValue?_eq_none nofun

/-- The least integer of 32 bits is read and the one below it is not; no address is negative; an
outcome can be spelled as a key. -/
theorem decodeValue?_iff_denotes_ends :
    decodeValue? (.obj [("Int32", .int (-2147483648))]) = some (.int32 0x80000000#32) ∧
      decodeValue? (.obj [("Int32", .int (-2147483649))]) = none ∧
      decodeValue? (.obj [("Addr", .int (-1))]) = none ∧
      decodeValue? (.obj [("Cond", .obj [("Lt", .null)])]) = some (.cond .lt) := by
  obtain ⟨-, hread, hint, -⟩ := decodeValue?_iff_denotes
  have hnone {k : Kind} {n : ℤ} (h : ¬ k.HasInteger n) :
      decodeValue? (.obj [(k.tag, .int n)]) = none :=
    Option.not_isSome_iff_eq_none.mp (mt (hint k n).mp h)
  refine ⟨?_, ?_, ?_, ?_⟩
  · exact hread (.int (-2147483648)) (.int32 0x80000000#32) rfl rfl
  · exact hnone (k := .int32) fun h => absurd h.1 (by decide)
  · exact hnone (k := .addr) fun h => absurd h.1 (by decide)
  · exact hread (.obj [("Lt", .null)]) (.cond .lt) rfl (Or.inr rfl)

end Cache

end ConstFold
