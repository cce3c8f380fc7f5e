import EvmContract.RefCount
import EvmContract.GcCollect

/-!
# A contract's life leaves nothing behind

A contract account is created and given code (`Db.deploy`), writes its slots
(`update_storage`), and is deleted (`update_account` with no current snapshot). The deletion
erases only the account row: it queues the account's storage scope in `gcstore` and, when the
code's count drops to one or less, the code row in `gccode`, for `gc` to erase later. The queues
catch everything the life added: its eager collection (`Db.collected`) is that of the tables it
started from.

* `Db.SameOutside`: two states that differ at most in the rows of one storage scope; the slot
  writes of an account stay in its scope (`Db.run_updateStorage_sameOutside`);
* `Db.deploy_fresh`: a deploy onto an address without an account appends one account row and
  adds one reference to the code;
* `Db.releaseCode_addCodeRef`: dropping that reference again leaves the code rows the eager
  collection keeps as they were;
* `Db.life`, `life_collected`: a whole life, and its collection.
-/

namespace EvmContract

namespace Db

/-! ### Slot writes stay in their scope -/

variable {db : Db}

theorem writeSlot_filter_scope (id : Nat) (location value : Bytes32) :
    (db.writeSlot id location value).storage.rows.filter (·.scope ≠ id) =
      db.storage.rows.filter (·.scope ≠ id) := by
  rw [writeSlot_storage]
  split
  · simp
  · rename_i slot hs
    have hsc := (findSlot_some hs).2.1
    rw [List.filter_map]
    refine (List.map_congr_left fun x hx => ?_).trans (List.map_id _) |>.trans
      (List.filter_congr fun x _ => ?_)
    · have hne : x ≠ slot := fun e => by simp [e, hsc] at hx
      simp [hne]
    · by_cases e : x = slot <;> simp [e]

theorem eraseSlot_filter_scope (id : Nat) (location : Bytes32) :
    (db.eraseSlot id location).storage.rows.filter (·.scope ≠ id) =
      db.storage.rows.filter (·.scope ≠ id) := by
  rw [eraseSlot_storage]
  split
  · rfl
  · rename_i slot hs
    have hsc := (findSlot_some hs).2.1
    rw [List.filter_filter]
    exact List.filter_congr fun x _ => by by_cases e : x = slot <;> simp [e, hsc]

/-- The two states differ at most in the storage rows of scope `id`. -/
structure SameOutside (id : Nat) (db db' : Db) : Prop where
  accounts : db'.accounts = db.accounts
  codes : db'.codes = db.codes
  gcStore : db'.gcStore = db.gcStore
  gcCode : db'.gcCode = db.gcCode
  storage : db'.storage.rows.filter (·.scope ≠ id) = db.storage.rows.filter (·.scope ≠ id)

theorem SameOutside.refl (id : Nat) (db : Db) : SameOutside id db db :=
  ⟨rfl, rfl, rfl, rfl, rfl⟩

theorem SameOutside.trans {id : Nat} {db' db'' : Db} (h1 : SameOutside id db db')
    (h2 : SameOutside id db' db'') : SameOutside id db db'' :=
  ⟨h2.accounts.trans h1.accounts, h2.codes.trans h1.codes, h2.gcStore.trans h1.gcStore,
    h2.gcCode.trans h1.gcCode, h2.storage.trans h1.storage⟩

/-- `update_storage` for an account that has a row stays in the row's scope. -/
theorem updateStorage_sameOutside {address : Address} {row : AccountRow}
    (hrow : db.findAccount address = some row) (location value : Bytes32) :
    SameOutside row.id db (db.updateStorage address location value) := by
  refine updateStorage_induction (P := SameOutside row.id db) (fun _ hA => ?_)
    (fun r _ hr => ?_) (fun _ hA => ?_) (fun r _ hr => ?_)
  · exact absurd (hA.symm.trans hrow) (Option.noConfusion ·)
  · obtain rfl := Option.some.inj (hr.symm.trans hrow)
    have hf := @eraseSlot_frame db r.id location
    exact ⟨hf.1, hf.2.1, hf.2.2.1, hf.2.2.2, eraseSlot_filter_scope r.id location⟩
  · exact absurd (hA.symm.trans hrow) (Option.noConfusion ·)
  · obtain rfl := Option.some.inj (hr.symm.trans hrow)
    have hf := @writeSlot_frame db r.id location value
    exact ⟨hf.1, hf.2.1, hf.2.2.1, hf.2.2.2, writeSlot_filter_scope r.id location value⟩

/-- Slot writes for an account that has a row stay in the row's scope. -/
theorem run_updateStorage_sameOutside {address : Address} {row : AccountRow}
    (hrow : db.findAccount address = some row) (slots : List (Bytes32 × Bytes32)) :
    SameOutside row.id db (db.run (slots.map fun s => .updateStorage address s.1 s.2)) := by
  induction slots generalizing db with
  | nil => exact .refl _ _
  | cons s slots ih =>
    have h1 := updateStorage_sameOutside hrow s.1 s.2
    exact h1.trans (ih (by rw [findAccount_of_accounts h1.accounts, hrow]))

/-! ### The deploy and the dropped reference -/

/-- A deploy onto an address without an account appends its row, adds one reference to the code,
and leaves the storage and both queues. -/
theorem deploy_fresh {address : Address} {c : Account} (code : Bytes)
    (hc : c.codeHash ≠ kEmptyHash) (hA : db.findAccount address = none) :
    (db.deploy address none c code).accounts.rows = db.accounts.rows ++
        [⟨db.accounts.availablePrimaryKey 0, address, c.nonce, c.balance, some c.codeHash⟩] ∧
      (db.deploy address none c code).codes = (db.addCodeRef c.codeHash code).codes ∧
      (db.deploy address none c code).storage = db.storage ∧
      (db.deploy address none c code).gcStore = db.gcStore ∧
      (db.deploy address none c code).gcCode = db.gcCode := by
  have hu : (db.updateAccount address none (some c)).storage = db.storage ∧
      (db.updateAccount address none (some c)).gcStore = db.gcStore ∧
      (db.updateAccount address none (some c)).gcCode = db.gcCode :=
    updateAccount_induction (P := fun d => d.storage = db.storage ∧ d.gcStore = db.gcStore ∧
      d.gcCode = db.gcCode) (fun _ => ⟨rfl, rfl, rfl⟩) (fun _ _ _ _ => ⟨rfl, rfl, rfl⟩)
      (fun _ _ _ _ _ => ⟨rfl, rfl, rfl⟩) (fun _ h _ _ => Option.noConfusion h)
  have ha := @addCodeRef_frame (db.updateAccount address none (some c)) c.codeHash code
  have hs := @setAccountCode_frame
    ((db.updateAccount address none (some c)).addCodeRef c.codeHash code) address c.codeHash
  exact ⟨deploy_accounts_fresh code hc hA, deploy_codes address none c code,
    hs.1.trans (ha.2.1.trans hu.1), hs.2.2.1.trans (ha.2.2.1.trans hu.2.1),
    hs.2.2.2.trans (ha.2.2.2.trans hu.2.2)⟩

/-- A count raised by one without wrapping and decremented again is back. -/
theorem decRefCount_add_one {n : UInt32} (h : n.toNat + 1 < 2 ^ 32) : decRefCount (n + 1) = n :=
  uint32_eq_iff.2 (by rw [decRefCount_toNat, uint32_toNat_add_one, Nat.mod_eq_of_lt h]; rfl)

/-- A count raised by one without wrapping is at most one only when it was `0`. -/
theorem eq_zero_of_add_one_le_one {n : UInt32} (h : n.toNat + 1 < 2 ^ 32) (h1 : n + 1 ≤ 1) :
    n = 0 := by
  have h1' : (n + 1).toNat ≤ 1 := h1
  rw [uint32_toNat_add_one, Nat.mod_eq_of_lt h] at h1'
  exact uint32_eq_iff.2 (by simp only [UInt32.toNat_zero]; omega)

/-- Decrementing the row `addCodeRef` incremented gives back the code rows before it. -/
theorem decRefCount_addCodeRef {h : Bytes32} {r : CodeRow} (hf : db.findCode h = some r)
    (hb : r.refCount.toNat + 1 < 2 ^ 32) (code : Bytes) {e : Db}
    (he : e.codes = (db.addCodeRef h code).codes) :
    (e.modifyRefCount { r with refCount := r.refCount + 1 } decRefCount).codes.rows =
      db.codes.rows := by
  obtain ⟨hrm, -⟩ := findCode_some hf
  simp only [modifyRefCount_codes, Table.rows_modify, he, addCodeRef, hf, List.map_map]
  refine (List.map_congr_left fun x hx => ?_).trans (List.map_id' _)
  by_cases hxr : x = r
  · subst hxr; simp [decRefCount_add_one hb]
  · have hne : x ≠ { r with refCount := r.refCount + 1 } :=
      fun e' => hxr (eq_of_codeId_eq (codes_ids_distinct db.codes) hx hrm (by rw [e']))
    simp [hxr, hne]

/-- Dropping the reference `addCodeRef` added, on tables whose code rows and `gccode` queue are
those it left, leaves the code rows the eager collection keeps as they were: a new row drops to
count `0` and is queued; an old row gets its count back, and is queued again only at count `0`,
where it was queued already. -/
theorem releaseCode_addCodeRef
    (hn : ∀ r ∈ db.codes.rows, r.refCount ≠ 0 ∨ r.id ∈ db.gcCode.rows.map (·.codeId))
    {h : Bytes32} (code : Bytes) (hb : ∀ r, db.findCode h = some r → r.refCount.toNat + 1 < 2 ^ 32)
    {d : Db} (hcodes : d.codes = (db.addCodeRef h code).codes) (hgc : d.gcCode = db.gcCode) :
    (d.releaseCode (some h)).codes.rows.filter
        (fun r => !queuedGarbage (d.releaseCode (some h)).gcCode.rows r) =
      db.codes.rows.filter fun r => !queuedGarbage db.gcCode.rows r := by
  have hu := codes_ids_distinct db.codes
  rcases hf : db.findCode h with _ | r
  · -- a new row, with count one
    have hd : d.findCode h = some ⟨db.codes.availablePrimaryKey 0, h, code, 1⟩ := by
      rw [findCode_of_codes hcodes, addCodeRef, hf, findCode_emplaceCode, hf]; simp
    have hlt : ∀ x ∈ db.codes.rows, x.id < db.codes.availablePrimaryKey 0 :=
      fun x hx => Table.primaryKey_lt_available hx
    simp only [releaseCode, hd, (by decide : (1 : UInt32) ≤ 1), if_true, modifyRefCount_codes,
      Table.rows_modify, enqueueCode_codes, hcodes, addCodeRef, hf, emplaceCode_codes,
      Table.rows_emplace, List.map_append, List.filter_append, modifyRefCount_gcCode,
      enqueueCode_gcCode, hgc]
    have hne : ∀ x ∈ db.codes.rows, x ≠ ⟨db.codes.availablePrimaryKey 0, h, code, 1⟩ :=
      fun x hx e => (hlt x hx).ne (congrArg CodeRow.id e)
    rw [List.map_congr_left fun x hx => if_neg (hne x hx), List.map_id']
    refine (congrArg₂ (· ++ ·) (List.filter_congr fun x hx => ?_) ?_).trans (List.append_nil _)
    · simp [queuedGarbage, (hlt x hx).ne']
    · simp [queuedGarbage, show decRefCount 1 = 0 from rfl]
  · -- an old row, whose count goes up by one and down again
    obtain ⟨hrm, -⟩ := findCode_some hf
    have hbr := hb r hf
    have hd : d.findCode h = some { r with refCount := r.refCount + 1 } := by
      rw [findCode_of_codes hcodes]; simp [addCodeRef, hf, findCode_modifyRefCount]
    simp only [releaseCode, hd]
    split_ifs with h1
    · rw [decRefCount_addCodeRef hf hbr code (e := d.enqueueCode r.id) hcodes]
      simp only [modifyRefCount_gcCode, enqueueCode_gcCode, Table.rows_emplace, hgc]
      have hz := eq_zero_of_add_one_le_one hbr h1
      have hq := (hn r hrm).resolve_left (not_not.2 hz)
      refine List.filter_congr fun x hx => ?_
      by_cases e : x.id = r.id
      · obtain rfl := eq_of_codeId_eq hu hx hrm e
        simpa [queuedGarbage, hz] using hq
      · simp [queuedGarbage, Ne.symm e]
    · rw [decRefCount_addCodeRef hf hbr code hcodes, modifyRefCount_gcCode, hgc]

/-! ### A whole life -/

/-- A contract's life at `address`: deployed with the snapshot `c` and `code` where there is no
account, the slot writes `slots`, then deleted, `final` being the interpreter's last snapshot of
it. -/
def life (db : Db) (address : Address) (c : Account) (code : Bytes)
    (slots : List (Bytes32 × Bytes32)) (final : Account) : Db :=
  ((db.deploy address none c code).run (slots.map fun s => .updateStorage address s.1 s.2)
    ).updateAccount address (some final) none

end Db

/-- The rows of a scope that no live account has are all queued. -/
theorem ScopesLive.queued_of_scope {db : Db} (hs : ScopesLive db) {r : StorageRow}
    (hr : r ∈ db.storage.rows) (hid : r.scope = db.accounts.availablePrimaryKey 0) :
    queuedScope db.gcStore.rows r = true := by
  rcases hs r hr with hl | hq
  · obtain ⟨a, ha, he⟩ := List.mem_map.1 hl
    have := Table.primaryKey_lt_available ha
    exact absurd (he.trans hid ▸ this) (lt_irrefl _)
  · obtain ⟨e, he, hid'⟩ := List.mem_map.1 hq
    exact List.any_eq_true.2 ⟨e, he, by simp [hid']⟩

open Db in
/-- **A contract's life leaves nothing once collected.** On tables without orphans, an account
deployed at an address that has none, whatever slots it writes, and deleted again, leaves tables
whose eager collection is that of the tables before it: the account row is gone, every slot it
wrote lies in its queued scope, and its code row has its count back, or is new at count `0` and
queued. The code's count must not wrap. -/
theorem life_collected {db : Db} (hn : NoOrphans db) {address : Address}
    (hA : db.findAccount address = none) {c : Account} (hc : c.codeHash ≠ kEmptyHash)
    (code : Bytes) (hb : ∀ r, db.findCode c.codeHash = some r → r.refCount.toNat + 1 < 2 ^ 32)
    (slots : List (Bytes32 × Bytes32)) (final : Account) :
    (db.life address c code slots final).collected = db.collected := by
  obtain ⟨ha1, hc1, hs1, hgs1, hgc1⟩ := deploy_fresh code hc hA
  set row : AccountRow :=
    ⟨db.accounts.availablePrimaryKey 0, address, c.nonce, c.balance, some c.codeHash⟩ with hrow
  have hlt : ∀ a ∈ db.accounts.rows, a.id < row.id := fun a ha => Table.primaryKey_lt_available ha
  have hrow1 : (db.deploy address none c code).findAccount address = some row := by
    simp only [findAccount, ha1, List.find?_append]
    rw [show db.accounts.rows.find? _ = none from hA]
    simp [hrow]
  have hso := run_updateStorage_sameOutside hrow1 slots
  set d := (db.deploy address none c code).run (slots.map fun s => .updateStorage address s.1 s.2)
  have hrow2 : d.findAccount address = some row :=
    (findAccount_of_accounts hso.accounts).symm ▸ hrow1
  have hne : (none : Option Account) ≠ some final := Option.noConfusion
  simp only [life, updateAccount, hne, hrow2, if_false]
  obtain ⟨hra, hrs, hrgs, hrc, hrgc⟩ := @removeAccount_frame d row
  refine ext_rows ?_ ?_ ?_ rfl rfl
  · -- the account row is gone
    have hne' : ∀ a ∈ db.accounts.rows, a ≠ row := fun a ha e => (hlt a ha).ne (by rw [e])
    rw [collected_accounts, collected_accounts, hra, Table.rows_erase, hso.accounts, ha1,
      List.filter_append, List.filter_eq_self.2 fun a ha => decide_eq_true (hne' a ha)]
    simp
  · -- every slot of the life lies in its queued scope
    rw [collected_storage, collected_storage, hrs, hrgs, enqueueStore_gcStore, Table.rows_emplace,
      filter_queuedScope_append, hso.storage, hso.gcStore, hs1, hgs1, List.filter_filter]
    refine List.filter_congr fun r hr => ?_
    by_cases e : r.scope = row.id
    · simp [e, hn.storage.queued_of_scope hr e]
    · simp [e]
  · -- the code row has its count back, or is new at count `0` and queued
    rw [collected_codes, collected_codes, hrc, hrgc]
    exact releaseCode_addCodeRef hn.codes code hb (by rw [enqueueStore_codes, hso.codes, hc1])
      (by rw [enqueueStore_gcCode, hso.gcCode, hgc1])

theorem life_collected_empty :
    NoOrphans Db.empty ∧ Db.empty.findAccount 1 = none ∧
      (⟨1, 0, 1, 0⟩ : Account).codeHash ≠ kEmptyHash ∧
      (∀ r, Db.empty.findCode (⟨1, 0, 1, 0⟩ : Account).codeHash = some r →
        r.refCount.toNat + 1 < 2 ^ 32) ∧
      (Db.empty.life 1 ⟨1, 0, 1, 0⟩ [7] [(5, 9), (6, 0)] ⟨2, 0, 1, 0⟩).collected =
        Db.empty.collected :=
  have hA : Db.empty.findAccount 1 = none := rfl
  have hc : (⟨1, 0, 1, 0⟩ : Account).codeHash ≠ kEmptyHash := by decide
  have hb : ∀ r, Db.empty.findCode (⟨1, 0, 1, 0⟩ : Account).codeHash = some r →
      r.refCount.toNat + 1 < 2 ^ 32 := fun _ h => Option.noConfusion h
  ⟨NoOrphans.empty, hA, hc, hb, life_collected NoOrphans.empty hA hc [7] hb _ _⟩

end EvmContract
