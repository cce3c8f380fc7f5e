import EvmContract.Table
import Mathlib.Logic.Function.Basic

/-!
# The persisted state and its read paths

The five tables `state.cpp` keeps. `tables.hpp`, which declares them, is not among the sources;
the fields below are the ones `state.cpp` reads and writes:

* `account`: `id`, `eth_address` (index `by.address`), `nonce`, `balance`, `code_hash`;
* `storage`, one scope per account id: `id`, `key` (index `by.key`), `value`;
* `account_code`: `id`, `code_hash` (index `by.codehash`), `code`, `ref_count` (`uint32`);
* `gcstore`: `id`, `storage_id`; `gccode`: `id`, `code_id`.

Numbers and hashes are kept decoded: the fixed-width big-endian encodings the rows store
(`to_bytes`, `intx::be::load`, `make_key`) are injective, and the model leaves them out.

`State` is the C++ `state` object: the tables, and the two per-instance caches `addr2id` and
`addr2code` that `read_account`, `read_storage` and `read_code` fill.
-/

namespace EvmContract

/-- A row of the `account` table. -/
structure AccountRow where
  id : Nat
  ethAddress : Address
  nonce : UInt64
  balance : BitVec 256
  codeHash : Option Bytes32
  deriving DecidableEq, Repr

/-- A row of a `storage` table; `scope` is the account id the table is scoped by. -/
structure StorageRow where
  scope : Nat
  id : Nat
  key : Bytes32
  value : Bytes32
  deriving DecidableEq, Repr

/-- A row of the `account_code` table. -/
structure CodeRow where
  id : Nat
  codeHash : Bytes32
  code : Bytes
  refCount : UInt32
  deriving DecidableEq, Repr

/-- A row of the `gcstore` table: a storage scope waiting to be emptied. -/
structure GcStoreRow where
  id : Nat
  storageId : Nat
  deriving DecidableEq, Repr

/-- A row of the `gccode` table: a code row waiting to be erased. -/
structure GcCodeRow where
  id : Nat
  codeId : Nat
  deriving DecidableEq, Repr

instance : TableRow AccountRow := ⟨fun _ => 0, AccountRow.id⟩
instance : TableRow StorageRow := ⟨StorageRow.scope, StorageRow.id⟩
instance : TableRow CodeRow := ⟨fun _ => 0, CodeRow.id⟩
instance : TableRow GcStoreRow := ⟨fun _ => 0, GcStoreRow.id⟩
instance : TableRow GcCodeRow := ⟨fun _ => 0, GcCodeRow.id⟩

/-- Modelled from the spec: the row's `get_code_hash()` (`tables.hpp`), the stored hash, or
`kEmptyHash` for an account without code. -/
def AccountRow.getCodeHash (r : AccountRow) : Bytes32 := r.codeHash.getD kEmptyHash

/-- The persisted state: the contract's five tables. -/
structure Db where
  accounts : Table AccountRow
  storage : Table StorageRow
  codes : Table CodeRow
  gcStore : Table GcStoreRow
  gcCode : Table GcCodeRow

namespace Db

/-- Tables with the same rows are the same state. -/
theorem ext_rows {db db' : Db} (ha : db.accounts.rows = db'.accounts.rows)
    (hs : db.storage.rows = db'.storage.rows) (hc : db.codes.rows = db'.codes.rows)
    (hgs : db.gcStore.rows = db'.gcStore.rows) (hgc : db.gcCode.rows = db'.gcCode.rows) :
    db = db' := by
  cases db; cases db'
  simp only [mk.injEq]
  exact ⟨Table.ext_rows ha, Table.ext_rows hs, Table.ext_rows hc, Table.ext_rows hgs,
    Table.ext_rows hgc⟩

/-- The state of a fresh deployment: every table empty. -/
def empty : Db := ⟨.empty, .empty, .empty, .empty, .empty⟩

/-! ### Lookups -/

/-- `accounts.get_index<"by.address"_n>().find(make_key(address))`. -/
def findAccount (db : Db) (address : Address) : Option AccountRow :=
  db.accounts.rows.find? (·.ethAddress = address)

/-- `codes.get_index<"by.codehash"_n>().find(make_key(code_hash))`. -/
def findCode (db : Db) (codeHash : Bytes32) : Option CodeRow :=
  db.codes.rows.find? (·.codeHash = codeHash)

/-- `storage_table(_self, id).get_index<"by.key"_n>().find(make_key(location))`. -/
def findSlot (db : Db) (id : Nat) (location : Bytes32) : Option StorageRow :=
  db.storage.rows.find? fun r => r.scope = id ∧ r.key = location

theorem findAccount_eq_none {db : Db} {address : Address} :
    db.findAccount address = none ↔ ∀ r ∈ db.accounts.rows, r.ethAddress ≠ address := by
  simp [findAccount, List.find?_eq_none]

theorem findAccount_some {db : Db} {address : Address} {r : AccountRow}
    (h : db.findAccount address = some r) : r ∈ db.accounts.rows ∧ r.ethAddress = address :=
  ⟨List.mem_of_find?_eq_some h, by simpa using List.find?_some h⟩

theorem findCode_eq_none {db : Db} {codeHash : Bytes32} :
    db.findCode codeHash = none ↔ ∀ r ∈ db.codes.rows, r.codeHash ≠ codeHash := by
  simp [findCode, List.find?_eq_none]

theorem findCode_some {db : Db} {codeHash : Bytes32} {r : CodeRow}
    (h : db.findCode codeHash = some r) : r ∈ db.codes.rows ∧ r.codeHash = codeHash :=
  ⟨List.mem_of_find?_eq_some h, by simpa using List.find?_some h⟩

theorem findSlot_eq_none {db : Db} {id : Nat} {location : Bytes32} :
    db.findSlot id location = none ↔
      ∀ r ∈ db.storage.rows, r.scope = id → r.key ≠ location := by
  simp [findSlot, List.find?_eq_none]

theorem findSlot_some {db : Db} {id : Nat} {location : Bytes32} {r : StorageRow}
    (h : db.findSlot id location = some r) :
    r ∈ db.storage.rows ∧ r.scope = id ∧ r.key = location :=
  ⟨List.mem_of_find?_eq_some h, by simpa using List.find?_some h⟩

/-- The value of slot `location` in scope `id`; an absent slot reads as zero. -/
def slotValue (db : Db) (id : Nat) (location : Bytes32) : Bytes32 :=
  match db.findSlot id location with
  | none => 0
  | some r => r.value

/-! ### Reads on the tables

What `read_account`, `read_storage` and `read_code` return on an instance whose caches are
empty. -/

/-- `read_account`: the account's snapshot, with incarnation `0`. -/
def readAccount (db : Db) (address : Address) : Option Account :=
  (db.findAccount address).map fun r => ⟨r.nonce, r.balance, r.getCodeHash, 0⟩

/-- `read_storage`: zero for an unknown account or an absent slot. -/
def readStorage (db : Db) (address : Address) (location : Bytes32) : Bytes32 :=
  match db.findAccount address with
  | none => 0
  | some r => db.slotValue r.id location

/-- `read_code`: empty for an unknown hash. -/
def readCode (db : Db) (codeHash : Bytes32) : Bytes :=
  match db.findCode codeHash with
  | none => []
  | some r => r.code

end Db

/-! ### The `state` object and its caches -/

/-- The C++ `state`: the tables and the caches `addr2id` and `addr2code`. -/
structure State where
  db : Db
  addr2id : Address → Option Nat
  addr2code : Bytes32 → Option Bytes

namespace State

/-- An instance constructed on the tables `db`, with empty caches. -/
def fresh (db : Db) : State := ⟨db, fun _ => none, fun _ => none⟩

/-- `read_account`: on a hit, the account's id is cached. -/
def readAccount (st : State) (address : Address) : Option Account × State :=
  match st.db.findAccount address with
  | none => (none, st)
  | some r =>
    (st.db.readAccount address,
      { st with addr2id := Function.update st.addr2id address (some r.id) })

/-- `read_storage`: the account id comes from `addr2id` when cached, from the table otherwise. -/
def readStorage (st : State) (address : Address) (location : Bytes32) : Bytes32 × State :=
  match st.addr2id address with
  | some id => (st.db.slotValue id location, st)
  | none =>
    match st.db.findAccount address with
    | none => (0, st)
    | some r =>
      (st.db.slotValue r.id location,
        { st with addr2id := Function.update st.addr2id address (some r.id) })

/-- `read_code`: the bytes come from `addr2code` when cached; a non-empty hit is cached. -/
def readCode (st : State) (codeHash : Bytes32) : Bytes × State :=
  match st.addr2code codeHash with
  | some code => (code, st)
  | none =>
    match st.db.findCode codeHash with
    | none => ([], st)
    | some r =>
      if r.code = [] then ([], st)
      else (r.code, { st with addr2code := Function.update st.addr2code codeHash (some r.code) })

theorem readAccount_fst (st : State) (address : Address) :
    (st.readAccount address).1 = st.db.readAccount address := by
  unfold readAccount Db.readAccount
  split <;> simp_all

theorem readAccount_db (st : State) (address : Address) :
    (st.readAccount address).2.db = st.db := by
  unfold readAccount; split <;> rfl

theorem readStorage_db (st : State) (address : Address) (location : Bytes32) :
    (st.readStorage address location).2.db = st.db := by
  unfold readStorage; split
  · rfl
  · split <;> rfl

theorem readCode_db (st : State) (codeHash : Bytes32) : (st.readCode codeHash).2.db = st.db := by
  unfold readCode; split
  · rfl
  · split
    · rfl
    · split <;> rfl

/-- A fresh instance reads what the tables hold. -/
theorem readStorage_fresh (db : Db) (address : Address) (location : Bytes32) :
    ((fresh db).readStorage address location).1 = db.readStorage address location := by
  simp only [readStorage, fresh, Db.readStorage]
  split <;> rfl

theorem readCode_fresh (db : Db) (codeHash : Bytes32) :
    ((fresh db).readCode codeHash).1 = db.readCode codeHash := by
  simp only [readCode, fresh, Db.readCode]
  split
  · rfl
  · split <;> simp_all

end State

end EvmContract
