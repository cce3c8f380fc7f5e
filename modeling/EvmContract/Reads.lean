import EvmContract.Invariants

/-!
# Reads after writes

What the lookups return after each write, stated once so that the refinement and the cache
proofs never unfold a write path:

* `findAccount` after `emplaceAccount`, `modifyAccount` and `removeAccount`;
* `findCode` after `emplaceCode` and `modifyRefCount`;
* `slotValue` after `writeSlot`, `eraseSlot` and `gc`, and on an empty scope.
-/

namespace EvmContract

namespace Db

variable {db : Db}

/-! ### Accounts -/

theorem findAccount_of_accounts {db' : Db} (h : db'.accounts = db.accounts) :
    db'.findAccount = db.findAccount := by
  funext x; simp only [findAccount, h]

theorem findAccount_emplaceAccount (address : Address) (nonce : UInt64) (balance : BitVec 256)
    (codeHash : Option Bytes32) (x : Address) :
    (db.emplaceAccount address nonce balance codeHash).findAccount x =
      (db.findAccount x).or (if address = x then
        some ⟨db.accounts.availablePrimaryKey 0, address, nonce, balance, codeHash⟩ else none) := by
  simp only [findAccount, emplaceAccount_accounts, Table.rows_emplace, List.find?_append]
  congr 1
  by_cases h : address = x <;> simp [h]

theorem findAccount_modifyAccount (row : AccountRow) {f : AccountRow → AccountRow} (hf)
    (ha : ∀ r, (f r).ethAddress = r.ethAddress) (x : Address) :
    (db.modifyAccount row f hf).findAccount x =
      (db.findAccount x).map fun r => if r = row then f r else r := by
  simp only [findAccount, modifyAccount_accounts, Table.rows_modify, List.find?_map]
  congr 1
  refine Table.find?_congr fun r _ => ?_
  by_cases h : r = row <;> simp [h, ha]

/-- Erasing the row of one address leaves the lookups of the others. -/
theorem findAccount_removeAccount_of_ne {row : AccountRow} {x : Address} (h : row.ethAddress ≠ x) :
    (db.removeAccount row).findAccount x = db.findAccount x := by
  simp only [findAccount, removeAccount_frame, Table.rows_erase, List.find?_filter]
  refine Table.find?_congr fun r _ => ?_
  by_cases hrr : r = row
  · subst hrr; simp [h]
  · simp [hrr]

/-- On unique addresses, erasing the row of an address leaves no row for it. -/
theorem findAccount_removeAccount (hw : WellFormed db) {row : AccountRow}
    (hr : row ∈ db.accounts.rows) (x : Address) :
    (db.removeAccount row).findAccount x =
      if row.ethAddress = x then none else db.findAccount x := by
  split_ifs with h
  · simp only [findAccount, removeAccount_frame, Table.rows_erase, List.find?_filter]
    rw [List.find?_eq_none]
    intro r hr' hp
    simp only [decide_eq_true_eq] at hp
    exact hp.1 (List.inj_on_of_nodup_map hw.addresses hr' hr (hp.2.trans h.symm))
  · exact findAccount_removeAccount_of_ne h

/-! ### Code -/

theorem findCode_of_codes {db' : Db} (h : db'.codes = db.codes) : db'.findCode = db.findCode := by
  funext x; simp only [findCode, h]

theorem findCode_emplaceCode (codeHash : Bytes32) (code : Bytes) (x : Bytes32) :
    (db.emplaceCode codeHash code).findCode x =
      (db.findCode x).or (if codeHash = x then
        some ⟨db.codes.availablePrimaryKey 0, codeHash, code, 1⟩ else none) := by
  simp only [findCode, emplaceCode_codes, Table.rows_emplace, List.find?_append]
  congr 1
  by_cases h : codeHash = x <;> simp [h]

theorem findCode_modifyRefCount (c : CodeRow) (f : UInt32 → UInt32) (x : Bytes32) :
    (db.modifyRefCount c f).findCode x =
      (db.findCode x).map fun r => if r = c then { r with refCount := f r.refCount } else r := by
  simp only [findCode, modifyRefCount_codes, Table.rows_modify, List.find?_map]
  congr 1
  refine Table.find?_congr fun r _ => ?_
  by_cases h : r = c <;> simp [h]


/-! ### Slots -/

theorem slotValue_eq (id : Nat) (location : Bytes32) :
    db.slotValue id location = ((db.findSlot id location).map (·.value)).getD 0 := by
  unfold slotValue; split <;> simp_all

theorem slotValue_of_rows {db' : Db} (h : db'.storage.rows = db.storage.rows) :
    db'.slotValue = db.slotValue := by
  funext id location; simp only [slotValue, findSlot, h]

theorem slotValue_eq_zero {id : Nat} (h : ∀ r ∈ db.storage.rows, r.scope ≠ id) :
    db.slotValue id = fun _ => 0 := by
  funext location
  rw [slotValue_eq, findSlot_eq_none.2 fun r hr hs => absurd hs (h r hr)]
  rfl

/-- On unique slot keys, erasing the slot of a key leaves no slot for it. -/
theorem slotValue_eraseSlot (hk : (db.storage.rows.map fun r => (r.scope, r.key)).Nodup)
    (id : Nat) (location : Bytes32) (id' : Nat) (location' : Bytes32) :
    (db.eraseSlot id location).slotValue id' location' =
      if id' = id ∧ location' = location then 0 else db.slotValue id' location' := by
  have hs := @eraseSlot_storage db id location
  rcases hf : db.findSlot id location with _ | slot <;> simp only [hf] at hs
  · rw [slotValue_of_rows hs]
    split_ifs with h
    · obtain ⟨rfl, rfl⟩ := h
      rw [slotValue_eq, hf]; rfl
    · rfl
  · obtain ⟨hmem, rfl, rfl⟩ := findSlot_some hf
    conv_lhs => rw [slotValue_eq, findSlot, hs, List.find?_filter]
    split_ifs with h
    · obtain ⟨rfl, rfl⟩ := h
      rw [List.find?_eq_none.2 fun r hr hp => ?_]
      · rfl
      simp only [decide_eq_true_eq] at hp
      exact hp.1 (List.inj_on_of_nodup_map hk hr hmem (by rw [hp.2.1, hp.2.2]))
    · rw [slotValue_eq, findSlot, Table.find?_congr fun r _ => ?_]
      by_cases hr : r = slot
      · subst hr; simpa using fun h1 h2 => h ⟨h1.symm, h2.symm⟩
      · simp [hr]

theorem slotValue_writeSlot (id : Nat) (location value : Bytes32) (id' : Nat)
    (location' : Bytes32) :
    (db.writeSlot id location value).slotValue id' location' =
      if id' = id ∧ location' = location then value else db.slotValue id' location' := by
  have hs := @writeSlot_storage db id location value
  rcases hf : db.findSlot id location with _ | slot <;> simp only [hf] at hs <;>
    conv_lhs => rw [slotValue_eq, findSlot, hs]
  · rw [findSlot_eq_none] at hf
    rw [List.find?_append]
    split_ifs with h
    · obtain ⟨rfl, rfl⟩ := h
      rw [List.find?_eq_none.2 fun r hr => by simpa using hf r hr]
      simp
    · have : ¬ (id = id' ∧ location = location') := fun h' => h ⟨h'.1.symm, h'.2.symm⟩
      simp [this, slotValue_eq, findSlot]
  · obtain ⟨-, rfl, rfl⟩ := findSlot_some hf
    have hc : List.find? ((fun r : StorageRow => decide (r.scope = id' ∧ r.key = location')) ∘
        fun x => if x = slot then { x with value := value } else x) db.storage.rows =
        db.findSlot id' location' :=
      Table.find?_congr fun r _ => by dsimp only [Function.comp]; split <;> rfl
    rw [List.find?_map, hc, slotValue_eq]
    split_ifs with h
    · obtain ⟨rfl, rfl⟩ := h
      simp [hf]
    · rcases hf' : db.findSlot id' location' with _ | s
      · rfl
      · obtain ⟨-, rfl, rfl⟩ := findSlot_some hf'
        have : s ≠ slot := fun e => h ⟨by rw [e], by rw [e]⟩
        simp [this]

/-- `gc` leaves the slots of an unqueued scope alone. -/
theorem slotValue_gc {id : Nat} (hq : id ∉ db.gcStore.rows.map (·.storageId)) (max : UInt32) :
    (db.gc max).2.slotValue id = db.slotValue id := by
  funext location
  simp only [slotValue_eq, findSlot]
  rw [Table.find?_sublist_eq db.storage.nodup (gc_storage_sublist db max) fun r hr hp => ?_]
  by_contra hr'
  obtain ⟨e, he, hid⟩ := gc_storage_erased hr hr'
  simp only [decide_eq_true_eq] at hp
  exact hq (List.mem_map.2 ⟨e, he, hid.trans hp.1⟩)

end Db

end EvmContract
