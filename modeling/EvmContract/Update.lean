import EvmContract.State

/-!
# The write paths: `update_account`, `update_account_code`, `update_storage`

Each write path of `state.cpp` as a function of the tables. The writes they share are one
definition each, applied to the values of each call site:

* `emplaceAccount`: the three account creations (`update_account`, `update_account_code`,
  `update_storage`), each with its own nonce, balance and stored code hash;
* `modifyAccount`, `modifyRefCount`, `enqueueStore`, `enqueueCode`, `writeSlot`;
* `removeAccount`: the delete path of `update_account`, with `releaseCode`, its code reference
  drop.

The incarnation arguments and `update_storage`'s `initial` are not read by the code and are left
out; the statistics counters (`stats`) are written and never read, and are left out too.
-/

namespace EvmContract

namespace Db

/-- The stored form of a snapshot's code hash: the hash of empty code is stored as no code. -/
def storedCodeHash (h : Bytes32) : Option Bytes32 := if h = kEmptyHash then none else some h

/-- The stored form reads back as the hash it stores. -/
theorem storedCodeHash_getD (h : Bytes32) : (storedCodeHash h).getD kEmptyHash = h := by
  unfold storedCodeHash; split_ifs with e <;> simp [e]

/-! ### Table writes -/

/-- `accounts.emplace`: a new account row at `available_primary_key()`. -/
@[simps]
def emplaceAccount (db : Db) (address : Address) (nonce : UInt64) (balance : BitVec 256)
    (codeHash : Option Bytes32) : Db :=
  { db with
    accounts := db.accounts.emplace 0 (fun id => ⟨id, address, nonce, balance, codeHash⟩)
      (fun _ => ⟨rfl, rfl⟩) }

/-- `accounts.modify`: rewrite the account row `row` by `f`, which keeps the id. -/
@[simps]
def modifyAccount (db : Db) (row : AccountRow) (f : AccountRow → AccountRow)
    (hf : ∀ r, (f r).id = r.id) : Db :=
  { db with accounts := db.accounts.modify row f fun r => ⟨rfl, hf r⟩ }

/-- `codes.modify` on the `ref_count` of the code row `c`. -/
@[simps]
def modifyRefCount (db : Db) (c : CodeRow) (f : UInt32 → UInt32) : Db :=
  { db with
    codes := db.codes.modify c (fun r => { r with refCount := f r.refCount })
      (fun _ => ⟨rfl, rfl⟩) }

theorem mem_modifyRefCount {db : Db} {c x : CodeRow} {f : UInt32 → UInt32} :
    x ∈ (db.modifyRefCount c f).codes.rows ↔
      (c ∈ db.codes.rows ∧ x = { c with refCount := f c.refCount }) ∨ (x ∈ db.codes.rows ∧ x ≠ c) :=
  @Table.mem_modify CodeRow _ _ db.codes c (fun r => { r with refCount := f r.refCount })
    (fun _ => ⟨rfl, rfl⟩) x

/-- `codes.emplace`: a new code row with count one. -/
@[simps]
def emplaceCode (db : Db) (codeHash : Bytes32) (code : Bytes) : Db :=
  { db with
    codes := db.codes.emplace 0 (fun id => ⟨id, codeHash, code, 1⟩) fun _ => ⟨rfl, rfl⟩ }

/-- `gc.emplace`: schedule the storage scope `id` for deletion. -/
@[simps]
def enqueueStore (db : Db) (id : Nat) : Db :=
  { db with gcStore := db.gcStore.emplace 0 (fun n => ⟨n, id⟩) fun _ => ⟨rfl, rfl⟩ }

/-- `gccode.emplace`: schedule the code row `id` for deletion. -/
@[simps]
def enqueueCode (db : Db) (id : Nat) : Db :=
  { db with gcCode := db.gcCode.emplace 0 (fun n => ⟨n, id⟩) fun _ => ⟨rfl, rfl⟩ }

/-- The slot write of `update_storage` in scope `id`: create the slot, or overwrite its value. -/
def writeSlot (db : Db) (id : Nat) (location value : Bytes32) : Db :=
  match db.findSlot id location with
  | none =>
    { db with
      storage := db.storage.emplace id (fun n => ⟨id, n, location, value⟩) fun _ => ⟨rfl, rfl⟩ }
  | some slot =>
    { db with
      storage := db.storage.modify slot (fun r => { r with value := value }) fun _ => ⟨rfl, rfl⟩ }

/-- The slot erase of `update_storage` in scope `id`: erase the slot if there is one. -/
def eraseSlot (db : Db) (id : Nat) (location : Bytes32) : Db :=
  match db.findSlot id location with
  | none => db
  | some slot => { db with storage := db.storage.erase slot }

/-- `ref_count` after a deleted account drops its reference: decremented unless already `0`. -/
def decRefCount (n : UInt32) : UInt32 := if n > 0 then n - 1 else n

/-- `decRefCount` is the truncated predecessor: it never wraps below `0`. -/
theorem decRefCount_toNat (n : UInt32) : (decRefCount n).toNat = n.toNat - 1 := by
  unfold decRefCount
  split_ifs with h
  · exact uint32_toNat_sub_one (uint32_ne_zero_iff.2 h)
  · have : ¬ 0 < n.toNat := h
    omega

/-- The code reference drop of a deleted account whose stored code hash is `codeHash`: the code
row is scheduled for deletion when its count is at most one, then its count is decremented. An
account without code hash drops nothing; a hash with no code row is ignored ("SHOULD NOT REACH
HERE"). -/
def releaseCode (db : Db) (codeHash : Option Bytes32) : Db :=
  match codeHash with
  | none => db
  | some h =>
    match db.findCode h with
    | none => db
    | some c => (if c.refCount ≤ 1 then db.enqueueCode c.id else db).modifyRefCount c decRefCount

/-- The delete path of `update_account` for the account row `row`: its storage scope is
scheduled for deletion, its code reference dropped, and the row erased. -/
def removeAccount (db : Db) (row : AccountRow) : Db :=
  let db := (db.enqueueStore row.id).releaseCode row.codeHash
  { db with accounts := db.accounts.erase row }

/-! ### The three write paths -/

/-- The in-place update of `update_account`: nonce, stored code hash and balance of `c`. -/
def setSnapshot (c : Account) (r : AccountRow) : AccountRow :=
  { r with nonce := c.nonce, codeHash := storedCodeHash c.codeHash, balance := c.balance }

/-- `state::update_account`. -/
def updateAccount (db : Db) (address : Address) (initial current : Option Account) : Db :=
  if current = initial then db
  else
    match current, db.findAccount address with
    | some c, none => db.emplaceAccount address c.nonce c.balance (storedCodeHash c.codeHash)
    | some c, some row => db.modifyAccount row (setSnapshot c) fun _ => rfl
    | none, none => db
    | none, some row => db.removeAccount row

/-- The code half of `update_account_code`: a new code row with count one, or one more
reference to the row that has the hash. -/
def addCodeRef (db : Db) (codeHash : Bytes32) (code : Bytes) : Db :=
  match db.findCode codeHash with
  | none => db.emplaceCode codeHash code
  | some c => db.modifyRefCount c (· + 1)

/-- The in-place update of `update_account_code`: the stored code hash. -/
def setCodeHash (codeHash : Bytes32) (r : AccountRow) : AccountRow :=
  { r with codeHash := some codeHash }

/-- The account half of `update_account_code`: the account's code hash is set, the account row
created if there is none. The created row's balance is not set by the code and reads as zero. -/
def setAccountCode (db : Db) (address : Address) (codeHash : Bytes32) : Db :=
  match db.findAccount address with
  | some row => db.modifyAccount row (setCodeHash codeHash) fun _ => rfl
  | none => db.emplaceAccount address 0 0 (some codeHash)

/-- `state::update_account_code`. -/
def updateAccountCode (db : Db) (address : Address) (codeHash : Bytes32) (code : Bytes) : Db :=
  (db.addCodeRef codeHash code).setAccountCode address codeHash

/-- `state::update_storage`. A zero value erases the slot; a non-zero value is written, after
creating the account row when there is none (its id is `available_primary_key()`). -/
def updateStorage (db : Db) (address : Address) (location current : Bytes32) : Db :=
  if current = 0 then
    match db.findAccount address with
    | none => db
    | some row => db.eraseSlot row.id location
  else
    match db.findAccount address with
    | none =>
      (db.emplaceAccount address 0 0 (some kEmptyHash)).writeSlot
        (db.accounts.availablePrimaryKey 0) location current
    | some row => db.writeSlot row.id location current

/-! ### Frames

What each write leaves unchanged. -/

section Frames

variable (db : Db)

@[simp] theorem writeSlot_frame (id : Nat) (location value : Bytes32) :
    (db.writeSlot id location value).accounts = db.accounts ∧
    (db.writeSlot id location value).codes = db.codes ∧
    (db.writeSlot id location value).gcStore = db.gcStore ∧
    (db.writeSlot id location value).gcCode = db.gcCode := by
  unfold writeSlot; split <;> exact ⟨rfl, rfl, rfl, rfl⟩

@[simp] theorem eraseSlot_frame (id : Nat) (location : Bytes32) :
    (db.eraseSlot id location).accounts = db.accounts ∧
    (db.eraseSlot id location).codes = db.codes ∧
    (db.eraseSlot id location).gcStore = db.gcStore ∧
    (db.eraseSlot id location).gcCode = db.gcCode := by
  unfold eraseSlot; split <;> exact ⟨rfl, rfl, rfl, rfl⟩

@[simp] theorem releaseCode_frame (codeHash : Option Bytes32) :
    (db.releaseCode codeHash).accounts = db.accounts ∧
    (db.releaseCode codeHash).storage = db.storage ∧
    (db.releaseCode codeHash).gcStore = db.gcStore := by
  unfold releaseCode; split
  · exact ⟨rfl, rfl, rfl⟩
  · split
    · exact ⟨rfl, rfl, rfl⟩
    · split <;> exact ⟨rfl, rfl, rfl⟩

@[simp] theorem removeAccount_frame (row : AccountRow) :
    (db.removeAccount row).accounts = db.accounts.erase row ∧
    (db.removeAccount row).storage = db.storage ∧
    (db.removeAccount row).gcStore = (db.enqueueStore row.id).gcStore ∧
    (db.removeAccount row).codes = ((db.enqueueStore row.id).releaseCode row.codeHash).codes ∧
    (db.removeAccount row).gcCode = ((db.enqueueStore row.id).releaseCode row.codeHash).gcCode := by
  simp [removeAccount]

@[simp] theorem addCodeRef_frame (codeHash : Bytes32) (code : Bytes) :
    (db.addCodeRef codeHash code).accounts = db.accounts ∧
    (db.addCodeRef codeHash code).storage = db.storage ∧
    (db.addCodeRef codeHash code).gcStore = db.gcStore ∧
    (db.addCodeRef codeHash code).gcCode = db.gcCode := by
  unfold addCodeRef; split <;> exact ⟨rfl, rfl, rfl, rfl⟩

@[simp] theorem setAccountCode_frame (address : Address) (codeHash : Bytes32) :
    (db.setAccountCode address codeHash).storage = db.storage ∧
    (db.setAccountCode address codeHash).codes = db.codes ∧
    (db.setAccountCode address codeHash).gcStore = db.gcStore ∧
    (db.setAccountCode address codeHash).gcCode = db.gcCode := by
  unfold setAccountCode; split <;> exact ⟨rfl, rfl, rfl, rfl⟩

end Frames

/-! ### Branches

Each write path's branches, with the guards that select them. -/

section Branches

variable {db : Db}

theorem writeSlot_storage (id : Nat) (location value : Bytes32) :
    (db.writeSlot id location value).storage.rows =
      match db.findSlot id location with
      | none => db.storage.rows ++ [⟨id, db.storage.availablePrimaryKey id, location, value⟩]
      | some slot =>
        db.storage.rows.map fun x => if x = slot then { x with value := value } else x := by
  unfold writeSlot; split <;> rfl

theorem eraseSlot_storage (id : Nat) (location : Bytes32) :
    (db.eraseSlot id location).storage.rows =
      match db.findSlot id location with
      | none => db.storage.rows
      | some slot => db.storage.rows.filter (· ≠ slot) := by
  unfold eraseSlot; split <;> rfl

theorem releaseCode_induction {P : Db → Prop} (codeHash : Option Bytes32) (keep : P db)
    (release : ∀ h c, codeHash = some h → db.findCode h = some c →
      P ((if c.refCount ≤ 1 then db.enqueueCode c.id else db).modifyRefCount c decRefCount)) :
    P (db.releaseCode codeHash) := by
  unfold releaseCode
  rcases codeHash with _ | h
  · exact keep
  · dsimp only; split
    · exact keep
    · exact release h _ rfl ‹_›

/-- `releaseCode` changes the code rows only by the decrement of the released hash's row. -/
theorem releaseCode_codes (codeHash : Option Bytes32) :
    (db.releaseCode codeHash).codes =
      (codeHash.bind db.findCode).elim db.codes
        fun c => (db.modifyRefCount c decRefCount).codes := by
  unfold releaseCode
  rcases codeHash with _ | h
  · rfl
  · dsimp only [Option.bind]
    rcases db.findCode h with _ | c
    · rfl
    · dsimp only [Option.elim]; split_ifs <;> rfl

theorem updateAccount_induction {P : Db → Prop} {address : Address}
    {initial current : Option Account}
    (same : current = initial ∨ current = none ∧ db.findAccount address = none → P db)
    (create : ∀ c, current = some c → current ≠ initial → db.findAccount address = none →
      P (db.emplaceAccount address c.nonce c.balance (storedCodeHash c.codeHash)))
    (modify : ∀ c row, current = some c → current ≠ initial → db.findAccount address = some row →
      P (db.modifyAccount row (setSnapshot c) fun _ => rfl))
    (remove : ∀ row, current = none → current ≠ initial → db.findAccount address = some row →
      P (db.removeAccount row)) :
    P (db.updateAccount address initial current) := by
  unfold updateAccount
  split_ifs with h
  · exact same (.inl h)
  · rcases current with _ | c <;> rcases hf : db.findAccount address with _ | row
    · exact same (.inr ⟨rfl, hf⟩)
    · exact remove row rfl h hf
    · exact create c rfl h hf
    · exact modify c row rfl h hf

theorem addCodeRef_induction {P : Db → Prop} {codeHash : Bytes32} {code : Bytes}
    (create : db.findCode codeHash = none → P (db.emplaceCode codeHash code))
    (inc : ∀ c, db.findCode codeHash = some c → P (db.modifyRefCount c (· + 1))) :
    P (db.addCodeRef codeHash code) := by
  unfold addCodeRef; split
  · exact create ‹_›
  · exact inc _ ‹_›

theorem setAccountCode_induction {P : Db → Prop} {address : Address} {codeHash : Bytes32}
    (modify : ∀ row, db.findAccount address = some row →
      P (db.modifyAccount row (setCodeHash codeHash) fun _ => rfl))
    (create : db.findAccount address = none → P (db.emplaceAccount address 0 0 (some codeHash))) :
    P (db.setAccountCode address codeHash) := by
  unfold setAccountCode; split
  · exact modify _ ‹_›
  · exact create ‹_›

theorem updateStorage_induction {P : Db → Prop} {address : Address} {location current : Bytes32}
    (same : current = 0 → db.findAccount address = none → P db)
    (erase : ∀ row, current = 0 → db.findAccount address = some row →
      P (db.eraseSlot row.id location))
    (create : current ≠ 0 → db.findAccount address = none →
      P ((db.emplaceAccount address 0 0 (some kEmptyHash)).writeSlot
        (db.accounts.availablePrimaryKey 0) location current))
    (write : ∀ row, current ≠ 0 → db.findAccount address = some row →
      P (db.writeSlot row.id location current)) :
    P (db.updateStorage address location current) := by
  unfold updateStorage
  split_ifs with h <;> split
  · exact same h ‹_›
  · exact erase _ h ‹_›
  · exact create h ‹_›
  · exact write _ h ‹_›

end Branches

/-! ### Footprints -/

/-- **Each write path keeps to its tables.** `update_account` never touches a storage row, not
even when it deletes the account, whose scope is left to `gc`; `update_account_code` touches
neither the storage nor the `gc` queues; `update_storage` touches neither the code table nor the
`gc` queues. -/
theorem write_footprints (db : Db) :
    (∀ address initial current,
      (db.updateAccount address initial current).storage = db.storage) ∧
    (∀ address codeHash code, (db.updateAccountCode address codeHash code).storage = db.storage ∧
      (db.updateAccountCode address codeHash code).gcStore = db.gcStore ∧
      (db.updateAccountCode address codeHash code).gcCode = db.gcCode) ∧
    (∀ address location current, (db.updateStorage address location current).codes = db.codes ∧
      (db.updateStorage address location current).gcStore = db.gcStore ∧
      (db.updateStorage address location current).gcCode = db.gcCode) := by
  refine ⟨fun _ _ _ => ?_, fun _ _ _ => by simp [updateAccountCode], fun _ _ _ => ?_⟩
  · exact updateAccount_induction (P := fun d => d.storage = db.storage) (fun _ => rfl)
      (fun _ _ _ _ => rfl) (fun _ _ _ _ _ => rfl)
      (fun row _ _ _ => (removeAccount_frame db row).2.1)
  · exact updateStorage_induction
      (P := fun d => d.codes = db.codes ∧ d.gcStore = db.gcStore ∧ d.gcCode = db.gcCode)
      (fun _ _ => ⟨rfl, rfl, rfl⟩) (fun _ _ _ => by simp) (fun _ _ => by simp)
      (fun _ _ _ => by simp)

end Db

end EvmContract
