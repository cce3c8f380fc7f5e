import EvmContract.Reads

/-!
# Replayed writes

What a reconciliation write does when it is made a second time with the same arguments, right
after the first:

* `update_account` and `update_storage` are idempotent on well-formed tables
  (`updateAccount_idempotent`, `updateStorage_idempotent`): the second call finds the row the
  first one wrote and rewrites it to itself, or finds nothing left to erase;
* `update_account_code` is not: each call adds one to the count of the code row (`addCodeRef`),
  so a replayed call counts the account twice (`updateAccountCode_replay`): on any tables it
  changes nothing but that count.

The slot writes come first: `writeSlot` finds the slot it wrote (`findSlot_writeSlot`), and after
`eraseSlot` there is no slot left to find (`findSlot_eraseSlot`).
-/

namespace EvmContract

namespace Db

variable {db : Db}

/-! ### Rewrites to the same row -/

theorem modifyAccount_of_fixed {row : AccountRow} {f : AccountRow → AccountRow} (hf)
    (h : f row = row) : db.modifyAccount row f hf = db := by
  cases db; simp only [modifyAccount, Table.modify_of_fixed h]

/-- Writing the value a slot holds leaves the tables. -/
theorem writeSlot_of_found {id : Nat} {location value : Bytes32} {s : StorageRow}
    (h : db.findSlot id location = some s) (hv : s.value = value) :
    db.writeSlot id location value = db := by
  subst hv
  obtain ⟨accounts, storage, codes, gcStore, gcCode⟩ := db
  have hm : storage.modify s (fun r => { r with value := s.value }) (fun _ => ⟨rfl, rfl⟩) =
      storage := Table.modify_of_fixed rfl
  simp only [writeSlot, h, hm]

theorem eraseSlot_of_none {id : Nat} {location : Bytes32} (h : db.findSlot id location = none) :
    db.eraseSlot id location = db := by
  simp only [eraseSlot, h]

/-! ### Slots -/

/-- After `writeSlot` the slot is found, with the value written. -/
theorem findSlot_writeSlot (id : Nat) (location value : Bytes32) :
    ∃ s, (db.writeSlot id location value).findSlot id location = some s ∧ s.value = value := by
  have hs := @writeSlot_storage db id location value
  rcases hf : db.findSlot id location with _ | slot <;> simp only [hf] at hs <;>
    simp only [findSlot, hs]
  · rw [List.find?_append, show db.storage.rows.find? _ = none from hf]
    exact ⟨⟨id, db.storage.availablePrimaryKey id, location, value⟩, by simp, rfl⟩
  · obtain ⟨-, rfl, rfl⟩ := findSlot_some hf
    refine ⟨{ slot with value := value }, ?_, rfl⟩
    rw [List.find?_map,
      (Table.find?_congr fun r _ => by dsimp only [Function.comp]; split <;> rfl).trans hf]
    simp

/-- On unique slot keys, after `eraseSlot` no slot is left to find. -/
theorem findSlot_eraseSlot (hk : (db.storage.rows.map fun r => (r.scope, r.key)).Nodup)
    (id : Nat) (location : Bytes32) : (db.eraseSlot id location).findSlot id location = none := by
  rcases hf : db.findSlot id location with _ | slot
  · rw [eraseSlot_of_none hf, hf]
  · obtain ⟨hmem, rfl, rfl⟩ := findSlot_some hf
    have hs := @eraseSlot_storage db slot.scope slot.key
    simp only [hf] at hs
    rw [findSlot, hs, List.find?_eq_none]
    intro r hr hp
    simp only [List.mem_filter, decide_eq_true_eq] at hr hp
    exact hr.2 (List.inj_on_of_nodup_map hk hr.1 hmem (by rw [hp.1, hp.2]))

theorem writeSlot_idempotent (id : Nat) (location value : Bytes32) :
    (db.writeSlot id location value).writeSlot id location value =
      db.writeSlot id location value := by
  obtain ⟨s, hs, hv⟩ := @findSlot_writeSlot db id location value
  exact writeSlot_of_found hs hv

/-! ### The write paths -/

/-- **`update_account` is idempotent.** On well-formed tables, made a second time with the same
arguments, it leaves the tables the first call left: the row the first call created or rewrote is
found and rewritten to itself, and a deleted account is found no more. -/
theorem updateAccount_idempotent (hw : WellFormed db) (address : Address)
    (initial current : Option Account) :
    (db.updateAccount address initial current).updateAccount address initial current =
      db.updateAccount address initial current := by
  refine updateAccount_induction (P := fun d => d.updateAccount address initial current = d)
    (fun h => ?_) (fun c hc hne hA => ?_) (fun c row hc hne hrow => ?_) (fun row hc hne hrow => ?_)
  · rcases h with h | ⟨rfl, hA⟩
    · simp only [updateAccount, h, if_true]
    · simp only [updateAccount, hA, ite_self]
  · subst hc
    have hf : (db.emplaceAccount address c.nonce c.balance (storedCodeHash c.codeHash)).findAccount
        address = some ⟨db.accounts.availablePrimaryKey 0, address, c.nonce, c.balance,
          storedCodeHash c.codeHash⟩ := by
      simp [findAccount_emplaceAccount, hA]
    simp only [updateAccount, hne, hf, if_false]
    exact modifyAccount_of_fixed _ rfl
  · subst hc
    have hf : (db.modifyAccount row (setSnapshot c) fun _ => rfl).findAccount address =
        some (setSnapshot c row) := by
      rw [findAccount_modifyAccount row (f := setSnapshot c) (fun _ => rfl) (fun _ => rfl), hrow]
      simp
    simp only [updateAccount, hne, hf, if_false]
    exact modifyAccount_of_fixed _ rfl
  · subst hc
    have hf : (db.removeAccount row).findAccount address = none := by
      rw [findAccount_removeAccount hw (findAccount_some hrow).1, if_pos (findAccount_some hrow).2]
    simp only [updateAccount, hne, hf, if_false]

theorem updateAccount_idempotent_delete :
    let d := (Op.updateStorage 1 1 5).apply Db.empty
    WellFormed d ∧
      (d.updateAccount 1 (some ⟨0, 0, kEmptyHash, 0⟩) none).updateAccount 1
          (some ⟨0, 0, kEmptyHash, 0⟩) none = d.updateAccount 1 (some ⟨0, 0, kEmptyHash, 0⟩) none :=
  have hw := WellFormed.empty.apply (.updateStorage 1 1 5)
  ⟨hw, updateAccount_idempotent hw 1 (some ⟨0, 0, kEmptyHash, 0⟩) none⟩

/-- **`update_storage` is idempotent.** On well-formed tables, made a second time with the same
arguments, it leaves the tables the first call left: the slot the first call wrote is found with
the value written, and an erased slot is found no more. -/
theorem updateStorage_idempotent (hw : WellFormed db) (address : Address)
    (location value : Bytes32) :
    (db.updateStorage address location value).updateStorage address location value =
      db.updateStorage address location value := by
  refine updateStorage_induction (P := fun d => d.updateStorage address location value = d)
    (fun hv hA => ?_) (fun row hv hrow => ?_) (fun hv hA => ?_) (fun row hv hrow => ?_)
  · simp only [updateStorage, hv, hA, if_true]
  · have hf : (db.eraseSlot row.id location).findAccount address = some row := by
      rw [findAccount_of_accounts (eraseSlot_frame ..).1, hrow]
    simp only [updateStorage, hv, hf, if_true]
    exact eraseSlot_of_none (findSlot_eraseSlot hw.slotKeys _ _)
  · have hf : ((db.emplaceAccount address 0 0 (some kEmptyHash)).writeSlot
        (db.accounts.availablePrimaryKey 0) location value).findAccount address =
        some ⟨db.accounts.availablePrimaryKey 0, address, 0, 0, some kEmptyHash⟩ := by
      rw [findAccount_of_accounts (writeSlot_frame ..).1]
      simp [findAccount_emplaceAccount, hA]
    simp only [updateStorage, hv, hf, if_false]
    exact writeSlot_idempotent _ _ _
  · have hf : (db.writeSlot row.id location value).findAccount address = some row := by
      rw [findAccount_of_accounts (writeSlot_frame ..).1, hrow]
    simp only [updateStorage, hv, hf, if_false]
    exact writeSlot_idempotent _ _ _

theorem updateStorage_idempotent_erase :
    let d := (Op.updateStorage 1 1 5).apply Db.empty
    WellFormed d ∧ (d.updateStorage 1 1 0).updateStorage 1 1 0 = d.updateStorage 1 1 0 :=
  have hw := WellFormed.empty.apply (.updateStorage 1 1 5)
  ⟨hw, updateStorage_idempotent hw 1 1 0⟩

/-! ### `update_account_code` -/

/-- After `addCodeRef` the code table has a row with the hash. -/
theorem findCode_addCodeRef (codeHash : Bytes32) (code : Bytes) :
    ∃ c, (db.addCodeRef codeHash code).findCode codeHash = some c :=
  addCodeRef_induction (P := fun d => ∃ c, d.findCode codeHash = some c)
    (fun h => ⟨_, by rw [findCode_emplaceCode, h, if_pos rfl]; rfl⟩)
    (fun c h => ⟨_, by rw [findCode_modifyRefCount, h]; rfl⟩)

/-- After `setAccountCode` the account is found, holding the hash. -/
theorem findAccount_setAccountCode (address : Address) (codeHash : Bytes32) :
    ∃ row, (db.setAccountCode address codeHash).findAccount address = some row ∧
      row.codeHash = some codeHash :=
  setAccountCode_induction
    (P := fun d => ∃ row, d.findAccount address = some row ∧ row.codeHash = some codeHash)
    (fun row h => ⟨setCodeHash codeHash row, by
      rw [findAccount_modifyAccount row (f := setCodeHash codeHash) _ (fun _ => rfl), h]; simp,
      rfl⟩)
    (fun h => ⟨_, by rw [findAccount_emplaceAccount, h, if_pos rfl]; rfl, rfl⟩)

/-- **A replayed `update_account_code` counts the account twice.** On any tables, made a second
time with the same arguments, it changes nothing but the count of the code row with the hash,
which goes up by one: the account already holds the hash, so the row gains a reference that no
account row accounts for. -/
theorem updateAccountCode_replay (address : Address) (codeHash : Bytes32) (code : Bytes) :
    ∃ c ∈ (db.updateAccountCode address codeHash code).codes.rows, c.codeHash = codeHash ∧
      (db.updateAccountCode address codeHash code).updateAccountCode address codeHash code =
        (db.updateAccountCode address codeHash code).modifyRefCount c (· + 1) := by
  obtain ⟨c, hc⟩ := @findCode_addCodeRef db codeHash code
  obtain ⟨row, hrow, hch⟩ := @findAccount_setAccountCode (db.addCodeRef codeHash code) address
    codeHash
  have hc' : (db.updateAccountCode address codeHash code).findCode codeHash = some c := by
    rw [updateAccountCode, findCode_of_codes (setAccountCode_frame ..).2.1, hc]
  have hrow' : ((db.updateAccountCode address codeHash code).modifyRefCount c (· + 1)).findAccount
      address = some row := hrow
  refine ⟨c, (findCode_some hc').1, (findCode_some hc').2, ?_⟩
  rw [updateAccountCode, addCodeRef, hc', setAccountCode, hrow']
  exact modifyAccount_of_fixed _ (by rw [setCodeHash, ← hch])

end Db

end EvmContract
