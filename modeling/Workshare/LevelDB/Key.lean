import Mathlib.Data.Prod.Lex
import Mathlib.Order.Basic

/-!
# Internal keys

Every entry the compaction engine moves is addressed by an *internal key*: the user key followed
by an 8-byte trailer `num = seq <<< 8 ||| kt` holding the sequence number and the entry kind.
Entries are ordered by user key ascending and, within one user key, by trailer descending, so
that the newest version of a key comes first. This is `iComparer.Compare`, and every ordering
argument of the compaction code goes through it.

## Implementation notes

`key.go` is not among the sources. What is modelled follows the data model of the spec
(internal key = user key + sequence + kind) and the uses in `db_compaction.go`:

* user keys are any type with a linear order, the user comparator;
* the trailer is a `UInt64`, so a decoded sequence number never exceeds `keyMaxSeq`;
* `parseInternalKey` fails exactly when the kind byte is neither `keyTypeDel` nor `keyTypeVal`.
  A raw key shorter than eight bytes has no trailer and is not representable here.

## Main results

* `InternalKey.le_iff` — the order, spelled out
* `InternalKey.ukey_le_of_le` — the user key is monotone in the internal order
* `InternalKey.seq_le_keyMaxSeq` — every decoded sequence number is at most `keyMaxSeq`
-/

namespace Workshare

namespace LevelDB

/-- The kind of an entry: a deletion marker or a value (`keyType`). -/
inductive KeyType
  | del
  | val
  deriving DecidableEq, Repr

/-- The largest sequence number, `(1 << 56) - 1` (`keyMaxSeq`). -/
def keyMaxSeq : ℕ := 72057594037927935

/-- An internal key: a user key and the trailer `seq << 8 | kt`. -/
structure InternalKey (K : Type) where
  /-- The user key, `ik[:len(ik)-8]`. -/
  ukey : K
  /-- The little-endian trailer of the last eight bytes. -/
  num : UInt64
  deriving DecidableEq, Repr

section

variable {K : Type}

namespace InternalKey

/-- The sequence number held by the trailer, `num >> 8`. -/
def seq (ik : InternalKey K) : ℕ := ik.num.toNat / 256

/-- The kind byte of the trailer, `num & 0xff`. -/
def kt (ik : InternalKey K) : ℕ := ik.num.toNat % 256

theorem seq_le_keyMaxSeq (ik : InternalKey K) : ik.seq ≤ keyMaxSeq := by
  have h := UInt64.toNat_lt_size ik.num
  simp only [seq, keyMaxSeq, UInt64.size] at *
  omega

end InternalKey

/-- The byte a kind is written as: `keyTypeDel = 0`, `keyTypeVal = 1`. -/
def KeyType.toNat : KeyType → ℕ
  | .del => 0
  | .val => 1

/-- The internal key of `(ukey, seq, kt)` (`makeInternalKey`). -/
def makeInternalKey (ukey : K) (seq : ℕ) (kt : KeyType) : InternalKey K :=
  ⟨ukey, UInt64.ofNat (seq * 256 + kt.toNat)⟩

/-- Decoding an internal key into user key, sequence number and kind (`parseInternalKey`). -/
def parseInternalKey (ik : InternalKey K) : Option (K × ℕ × KeyType) :=
  match ik.kt with
  | 0 => some (ik.ukey, ik.seq, .del)
  | 1 => some (ik.ukey, ik.seq, .val)
  | _ => none

theorem parseInternalKey_eq_some {ik : InternalKey K} {u : K} {seq : ℕ} {kt : KeyType}
    (h : parseInternalKey ik = some (u, seq, kt)) : u = ik.ukey ∧ seq = ik.seq := by
  unfold parseInternalKey at h
  split at h <;> cases h <;> exact ⟨rfl, rfl⟩

end

/-! ## The internal-key order -/

namespace InternalKey

variable {K : Type}

/-- The order key of `iComparer.Compare`: user key ascending, then trailer descending. -/
def lexKey (ik : InternalKey K) : K ×ₗ ℕᵒᵈ := toLex (ik.ukey, OrderDual.toDual ik.num.toNat)

theorem lexKey_injective : Function.Injective (lexKey (K := K)) := by
  rintro ⟨a, m⟩ ⟨b, n⟩ h
  simp only [lexKey, EmbeddingLike.apply_eq_iff_eq, Prod.mk.injEq] at h
  obtain ⟨rfl, h⟩ := h
  rw [UInt64.toNat.inj (OrderDual.toDual.injective h)]

variable [LinearOrder K]

instance : LinearOrder (InternalKey K) := LinearOrder.lift' lexKey lexKey_injective

theorem le_iff {a b : InternalKey K} :
    a ≤ b ↔ a.ukey < b.ukey ∨ a.ukey = b.ukey ∧ b.num.toNat ≤ a.num.toNat :=
  Prod.Lex.le_iff _ _

theorem lt_iff {a b : InternalKey K} :
    a < b ↔ a.ukey < b.ukey ∨ a.ukey = b.ukey ∧ b.num.toNat < a.num.toNat :=
  Prod.Lex.lt_iff _ _

theorem ukey_le_of_le {a b : InternalKey K} (h : a ≤ b) : a.ukey ≤ b.ukey := by
  rcases le_iff.mp h with h | ⟨h, -⟩
  · exact h.le
  · exact h.le

theorem lt_of_ukey_lt {a b : InternalKey K} (h : a.ukey < b.ukey) : a < b :=
  lt_iff.mpr (.inl h)

/-- Within one user key the order runs from the newest sequence number down. -/
theorem seq_le_of_le {a b : InternalKey K} (h : a ≤ b) (hu : a.ukey = b.ukey) : b.seq ≤ a.seq := by
  rcases le_iff.mp h with h | ⟨-, h⟩
  · exact absurd hu h.ne
  · exact Nat.div_le_div_right h

end InternalKey

end LevelDB

end Workshare
