import Mathlib.Data.List.Basic
import Mathlib.Tactic.Ring

/-!
# The EVM runtime's state: values

The values `state.cpp` stores and compares, at the widths the source gives them:

* `Address` (`evmc::address`, 160 bits), `Bytes32` (`evmc::bytes32`: code hashes, storage keys
  and storage values) and `Bytes` (contract code);
* `Account`, the interpreter's account snapshot (`silkworm::Account`), which `update_account`
  compares as a whole;
* `kEmptyHash`, the hash of empty code;
* the `uint32` arithmetic of the garbage collector's budget and of a code row's `ref_count`:
  `+ 1` wraps at `2 ^ 32`, `- 1` is safe exactly away from `0`, and a budget `a + b` that fits
  is not spent while `a` is not.
-/

namespace EvmContract

/-- `evmc::address`. -/
abbrev Address := BitVec 160

/-- `evmc::bytes32`: code hashes, storage locations and storage values. -/
abbrev Bytes32 := BitVec 256

/-- A byte string (`bytes`, `ByteView`). -/
abbrev Bytes := List UInt8

/-- `silkworm::Account`: the snapshot the interpreter hands to `update_account`. -/
structure Account where
  nonce : UInt64
  balance : BitVec 256
  codeHash : Bytes32
  incarnation : UInt64
  deriving DecidableEq, Repr

/-- Modelled from the spec: `silkworm::kEmptyHash`, "the canonical hash of empty code"
(keccak-256 of the empty byte string). -/
def kEmptyHash : Bytes32 := 0xc5d2460186f7233c927e7db2dcc703c0e500b653ca82273b7bfad8045d85a470

/-! ### `uint32` arithmetic -/

theorem uint32_eq_iff {a b : UInt32} : a = b ↔ a.toNat = b.toNat :=
  ⟨congrArg _, UInt32.toNat.inj⟩

theorem uint32_toNat_lt (a : UInt32) : a.toNat < 2 ^ 32 := a.toBitVec.isLt

theorem uint32_toNat_sub_one {a : UInt32} (h : a ≠ 0) : (a - 1).toNat = a.toNat - 1 :=
  UInt32.toNat_sub_of_le a 1 (by
    have := mt uint32_eq_iff.2 h
    show (1 : UInt32).toNat ≤ a.toNat
    simp only [UInt32.toNat_zero] at this
    exact Nat.one_le_iff_ne_zero.2 this)

theorem uint32_toNat_add_one (a : UInt32) : (a + 1).toNat = (a.toNat + 1) % 2 ^ 32 := rfl

theorem uint32_ne_zero_iff {a : UInt32} : a ≠ 0 ↔ 0 < a.toNat := by
  rw [Ne, uint32_eq_iff, UInt32.toNat_zero]; omega

theorem uint32_toNat_add {a b : UInt32} (h : a.toNat + b.toNat < 2 ^ 32) :
    (a + b).toNat = a.toNat + b.toNat := Nat.mod_eq_of_lt h

theorem uint32_zero_add (b : UInt32) : 0 + b = b :=
  uint32_eq_iff.2 (by
    rw [uint32_toNat_add (by simpa using uint32_toNat_lt b), UInt32.toNat_zero, Nat.zero_add])

/-- A budget split into two parts that fit in a `uint32` is not spent while its first part is
not. -/
theorem uint32_add_ne_zero {a b : UInt32} (h : a.toNat + b.toNat < 2 ^ 32) (ha : a ≠ 0) :
    a + b ≠ 0 := by
  rw [uint32_ne_zero_iff, uint32_toNat_add h]; exact Nat.add_pos_left (uint32_ne_zero_iff.1 ha) _

theorem uint32_add_sub_one {a b : UInt32} (h : a.toNat + b.toNat < 2 ^ 32) (ha : a ≠ 0) :
    a + b - 1 = a - 1 + b := by
  have hab := uint32_add_ne_zero h ha
  have h1 : (a - 1).toNat + b.toNat < 2 ^ 32 := by rw [uint32_toNat_sub_one ha]; omega
  rw [uint32_eq_iff, uint32_toNat_sub_one hab, uint32_toNat_add h, uint32_toNat_add h1,
    uint32_toNat_sub_one ha]
  have := uint32_ne_zero_iff.1 ha
  omega

end EvmContract
