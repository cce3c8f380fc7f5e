import EvmContract.Run

/-!
# Invariants of the tables

Two invariants over the runs of the write paths and `gc` from a fresh deployment:

* `WellFormed`, the representation invariant: no two account rows share an address, no two
  storage rows of one scope share a key, no storage row holds zero, and no two code rows share a
  hash. Every run keeps it (`wellFormed_run`): each row is created only after the lookup on its
  key missed, and a slot is written only with a non-zero value.
* `NoOrphans`: every storage row lies in the scope of a live account or of a queued `gcstore`
  entry, and every code row is counted (`ref_count ≠ 0`) or queued. `update_account_code` adds
  one to a `uint32` count with no check, and a count that wraps to `0` leaves an unqueued row
  nobody counts (`refCount_wraps`); runs whose calls never take a count past `2^32 - 1` keep the
  invariant (`noOrphans_of_noWrap`).
-/

namespace EvmContract

open Db

/-! ### The representation invariant -/

/-- The representation invariant of the tables. -/
structure WellFormed (db : Db) : Prop where
  /-- No two account rows have the same address. -/
  addresses : (db.accounts.rows.map (·.ethAddress)).Nodup
  /-- No two storage rows of one scope have the same key. -/
  slotKeys : (db.storage.rows.map fun r => (r.scope, r.key)).Nodup
  /-- No storage row holds the zero value. -/
  slotValues : ∀ r ∈ db.storage.rows, r.value ≠ 0
  /-- No two code rows have the same hash. -/
  codeHashes : (db.codes.rows.map (·.codeHash)).Nodup

namespace WellFormed

theorem empty : WellFormed Db.empty :=
  ⟨List.nodup_nil, List.nodup_nil, fun _ h => absurd h (List.not_mem_nil _), List.nodup_nil⟩

variable {db : Db} (hw : WellFormed db)
include hw

theorem emplaceAccount {address : Address} (h : db.findAccount address = none)
    (nonce : UInt64) (balance : BitVec 256) (codeHash : Option Bytes32) :
    WellFormed (db.emplaceAccount address nonce balance codeHash) :=
  { hw with addresses := Table.nodup_map_emplace _ hw.addresses (findAccount_eq_none.1 h) }

theorem modifyAccount (row : AccountRow) {f : AccountRow → AccountRow} (hf)
    (ha : ∀ r, (f r).ethAddress = r.ethAddress) : WellFormed (db.modifyAccount row f hf) :=
  ⟨by rw [modifyAccount_accounts, Table.map_modify _ ha]; exact hw.1, hw.2, hw.3, hw.4⟩

theorem modifyRefCount (c : CodeRow) (f : UInt32 → UInt32) : WellFormed (db.modifyRefCount c f) :=
  ⟨hw.1, hw.2, hw.3, by rw [modifyRefCount_codes, Table.map_modify]; exacts [hw.4, fun _ => rfl]⟩

theorem enqueueStore (id : Nat) : WellFormed (db.enqueueStore id) := ⟨hw.1, hw.2, hw.3, hw.4⟩

theorem enqueueCode (id : Nat) : WellFormed (db.enqueueCode id) := ⟨hw.1, hw.2, hw.3, hw.4⟩

/-- A slot is written only with a non-zero value, and created only where the lookup missed. -/
theorem writeSlot (id : Nat) (location : Bytes32) {value : Bytes32} (hv : value ≠ 0) :
    WellFormed (db.writeSlot id location value) := by
  unfold Db.writeSlot; split
  · refine ⟨hw.1, Table.nodup_map_emplace _ hw.2 fun r hr => ?_, fun r hr => ?_, hw.4⟩
    · simpa using findSlot_eq_none.1 ‹_› r hr
    · rcases Table.mem_emplace.1 hr with hr | rfl
      exacts [hw.slotValues r hr, hv]
  · refine ⟨hw.1, ?_, fun r hr => ?_, hw.4⟩
    · rw [Table.map_modify]; exacts [hw.2, fun _ => rfl]
    · dsimp only at hr
      rcases Table.mem_modify.1 hr with ⟨-, rfl⟩ | ⟨hr, -⟩
      exacts [hv, hw.slotValues r hr]

theorem eraseSlot (id : Nat) (location : Bytes32) : WellFormed (db.eraseSlot id location) := by
  unfold Db.eraseSlot; split
  · exact hw
  · exact ⟨hw.1, hw.2.sublist ((List.filter_sublist _).map _),
      fun r hr => hw.slotValues r (List.mem_of_mem_filter hr), hw.4⟩

theorem releaseCode (codeHash : Option Bytes32) : WellFormed (db.releaseCode codeHash) :=
  releaseCode_induction codeHash hw fun _ c _ _ => by
    split_ifs
    · exact (hw.enqueueCode c.id).modifyRefCount c decRefCount
    · exact hw.modifyRefCount c decRefCount

theorem removeAccount (row : AccountRow) : WellFormed (db.removeAccount row) :=
  have hr := (hw.enqueueStore row.id).releaseCode row.codeHash
  { addresses := by
      rw [(removeAccount_frame db row).1]
      exact hw.addresses.sublist ((List.filter_sublist _).map _)
    slotKeys := by rw [(removeAccount_frame db row).2.1]; exact hw.slotKeys
    slotValues := by rw [(removeAccount_frame db row).2.1]; exact hw.slotValues
    codeHashes := by rw [(removeAccount_frame db row).2.2.2.1]; exact hr.codeHashes }

theorem addCodeRef (codeHash : Bytes32) (code : Bytes) : WellFormed (db.addCodeRef codeHash code) :=
  addCodeRef_induction
    (fun h => { hw with
      codeHashes := Table.nodup_map_emplace _ hw.codeHashes (findCode_eq_none.1 h) })
    (fun c _ => hw.modifyRefCount c _)

theorem setAccountCode (address : Address) (codeHash : Bytes32) :
    WellFormed (db.setAccountCode address codeHash) :=
  setAccountCode_induction (fun row _ => hw.modifyAccount row _ fun _ => rfl)
    (fun h => hw.emplaceAccount h _ _ _)

theorem gc (max : UInt32) : WellFormed (db.gc max).2 where
  addresses := by rw [gc_snd, gcRun_accounts]; exact hw.addresses
  slotKeys := hw.slotKeys.sublist ((gc_storage_sublist db max).map _)
  slotValues := fun r hr => hw.slotValues r ((gc_storage_sublist db max).subset hr)
  codeHashes := hw.codeHashes.sublist ((gc_codes_sublist db max).map _)

/-- Every call keeps the representation invariant. -/
theorem apply : ∀ op : Op, WellFormed (op.apply db)
  | .updateAccount .. =>
    updateAccount_induction (P := WellFormed) (fun _ => hw) (fun _ _ _ h => hw.emplaceAccount h ..)
      (fun _ row _ _ _ => hw.modifyAccount row _ fun _ => rfl)
      (fun row _ _ _ => hw.removeAccount row)
  | .updateAccountCode _ codeHash code => (hw.addCodeRef codeHash code).setAccountCode ..
  | .updateStorage .. =>
    updateStorage_induction (P := WellFormed) (fun _ _ => hw) (fun _ _ _ => hw.eraseSlot ..)
      (fun hv h => (hw.emplaceAccount h ..).writeSlot _ _ hv) (fun _ hv _ => hw.writeSlot _ _ hv)
  | .gc max => hw.gc max

end WellFormed

/-- **Representation invariant.** In every state a run from a fresh deployment reaches, no two
account rows have the same address, no two storage rows of one scope have the same key, no
storage row holds zero, and no two code rows have the same hash. -/
theorem wellFormed_run (ops : List Op) : WellFormed (Db.empty.run ops) :=
  (reachable_run ops).induction WellFormed.empty fun _ op hw _ => hw.apply op

/-! ### No orphaned rows -/

/-- Every storage row lies in the scope of a live account or of a queued `gcstore` entry. -/
def ScopesLive (db : Db) : Prop :=
  ∀ r ∈ db.storage.rows,
    r.scope ∈ db.accounts.rows.map (·.id) ∨ r.scope ∈ db.gcStore.rows.map (·.storageId)

/-- No row is out of reach of both the read paths and the collector. -/
structure NoOrphans (db : Db) : Prop where
  /-- Every storage row lies in the scope of a live account or of a queued `gcstore` entry. -/
  storage : ScopesLive db
  /-- Every code row is counted, or queued in `gccode`. -/
  codes : ∀ c ∈ db.codes.rows, c.refCount ≠ 0 ∨ c.id ∈ db.gcCode.rows.map (·.codeId)

/-- The calls that keep every count below the `uint32` limit: an `update_account_code` whose
hash has a code row finds its count below `2^32 - 1`. -/
def Op.NoWrap (db : Db) : Op → Prop
  | .updateAccountCode _ codeHash _ =>
    ∀ c, db.findCode codeHash = some c → c.refCount.toNat + 1 < 2 ^ 32
  | _ => True

theorem mem_map_append_left {α β : Type} {f : α → β} {l : List α} {x : α} {b : β}
    (h : b ∈ l.map f) : b ∈ (l ++ [x]).map f := by
  rw [List.map_append]; exact List.mem_append_left _ h

namespace ScopesLive

variable {db : Db} (hs : ScopesLive db)
include hs

/-- A write that leaves the accounts, the storage and `gcstore` alone keeps the invariant. -/
theorem of_frame {db' : Db} (ha : db'.accounts = db.accounts) (hst : db'.storage = db.storage)
    (hg : db'.gcStore = db.gcStore) : ScopesLive db' := by
  unfold ScopesLive; rw [ha, hst, hg]; exact hs

theorem emplaceAccount (address : Address) (nonce : UInt64) (balance : BitVec 256)
    (codeHash : Option Bytes32) : ScopesLive (db.emplaceAccount address nonce balance codeHash) :=
  fun r hr => (hs r hr).imp_left mem_map_append_left

theorem modifyAccount (row : AccountRow) {f : AccountRow → AccountRow} (hf) :
    ScopesLive (db.modifyAccount row f hf) := by
  unfold ScopesLive; rw [modifyAccount_accounts, Table.map_modify _ hf]; exact hs

theorem enqueueStore (id : Nat) : ScopesLive (db.enqueueStore id) :=
  fun r hr => (hs r hr).imp_right mem_map_append_left

/-- A slot is written only in the scope of a live account. -/
theorem writeSlot {id : Nat} (hid : id ∈ db.accounts.rows.map (·.id)) (location value : Bytes32) :
    ScopesLive (db.writeSlot id location value) := by
  unfold ScopesLive
  rw [(writeSlot_frame db id location value).1, (writeSlot_frame db id location value).2.2.1,
    writeSlot_storage]
  split
  · intro r hr
    rcases List.mem_append.1 hr with hr | hr
    exacts [hs r hr, .inl (by rw [List.mem_singleton.1 hr]; exact hid)]
  · intro r hr
    obtain ⟨x, hx, rfl⟩ := List.mem_map.1 hr
    split <;> exact hs x hx

theorem eraseSlot (id : Nat) (location : Bytes32) : ScopesLive (db.eraseSlot id location) := by
  unfold Db.eraseSlot; split
  · exact hs
  · exact fun r hr => hs r (List.mem_of_mem_filter hr)

/-- A deleted account's scope is queued before its row goes. -/
theorem removeAccount (row : AccountRow) : ScopesLive (db.removeAccount row) := by
  unfold ScopesLive
  simp only [removeAccount_frame, enqueueStore_gcStore, Table.rows_erase, Table.rows_emplace,
    List.map_append, List.mem_append, List.mem_map, List.mem_filter, List.mem_singleton]
  intro r hr
  rcases hs r hr with hl | hq
  · obtain ⟨a, ha, hid⟩ := List.mem_map.1 hl
    by_cases hne : a = row
    · exact .inr (.inr ⟨_, rfl, by rw [← hid, hne]⟩)
    · exact .inl ⟨a, ⟨ha, by simpa using hne⟩, hid⟩
  · exact .inr (.inl (List.mem_map.1 hq))

/-- `gc` drops a `gcstore` entry only once its scope is empty. -/
theorem gc (max : UInt32) : ScopesLive (db.gc max).2 := fun r hr => by
  rw [gc_snd, gcRun_accounts]
  rcases hs r ((gc_storage_sublist db max).subset hr) with h | h
  · exact .inl h
  · obtain ⟨e, he, hid⟩ := List.mem_map.1 h
    by_cases he' : e ∈ (db.gc max).2.gcStore.rows
    · exact .inr (List.mem_map.2 ⟨e, he', hid⟩)
    · exact absurd hid.symm (gc_gcStore_cleared he he' r hr)

/-- Every call keeps every storage row in a live or queued scope. -/
theorem apply : ∀ op : Op, ScopesLive (op.apply db)
  | .updateAccount .. =>
    updateAccount_induction (P := ScopesLive) (fun _ => hs)
      (fun _ _ _ _ => hs.emplaceAccount _ _ _ _) (fun _ row _ _ _ => hs.modifyAccount row _)
      (fun row _ _ _ => hs.removeAccount row)
  | .updateAccountCode _ codeHash code =>
    have h1 : ScopesLive (db.addCodeRef codeHash code) := hs.of_frame
      (addCodeRef_frame ..).1 (addCodeRef_frame ..).2.1 (addCodeRef_frame ..).2.2.1
    setAccountCode_induction (fun row _ => h1.modifyAccount row _)
      (fun _ => h1.emplaceAccount _ _ _ _)
  | .updateStorage .. =>
    updateStorage_induction (P := ScopesLive) (fun _ _ => hs) (fun _ _ _ => hs.eraseSlot _ _)
      (fun _ _ => (hs.emplaceAccount _ _ _ _).writeSlot (by simp) _ _)
      (fun _ _ h => hs.writeSlot (List.mem_map_of_mem _ (findAccount_some h).1) _ _)
  | .gc max => hs.gc max

end ScopesLive

/-- **Storage rows are never orphaned.** On every run from a fresh deployment, whatever the
calls, every storage row lies in the scope of a live account or of a queued `gcstore` entry. -/
theorem scopesLive_run (ops : List Op) : ScopesLive (Db.empty.run ops) :=
  (reachable_run ops).induction (fun _ h => absurd h (List.not_mem_nil _)) fun _ op hs _ =>
    hs.apply op

namespace NoOrphans

theorem empty : NoOrphans Db.empty :=
  ⟨fun _ h => absurd h (List.not_mem_nil _), fun _ h => absurd h (List.not_mem_nil _)⟩

variable {db : Db} (hn : NoOrphans db)
include hn

/-- Rewriting a count keeps the invariant when the new count is non-zero or the row queued. -/
theorem modifyRefCount (c : CodeRow) {f : UInt32 → UInt32}
    (hf : f c.refCount ≠ 0 ∨ c.id ∈ db.gcCode.rows.map (·.codeId)) :
    NoOrphans (db.modifyRefCount c f) := by
  refine ⟨hn.storage.of_frame rfl rfl rfl, fun x hx => ?_⟩
  dsimp only [modifyRefCount_codes] at hx
  rcases Table.mem_modify.1 hx with ⟨-, rfl⟩ | ⟨hx, -⟩
  exacts [hf, hn.codes x hx]

theorem enqueueStore (id : Nat) : NoOrphans (db.enqueueStore id) :=
  ⟨hn.storage.enqueueStore id, hn.codes⟩

theorem enqueueCode (id : Nat) : NoOrphans (db.enqueueCode id) :=
  ⟨hn.storage.of_frame rfl rfl rfl, fun c hc => (hn.codes c hc).imp_right mem_map_append_left⟩

/-- A dropped reference queues the code row when its count reaches `0`. -/
theorem releaseCode (codeHash : Option Bytes32) : NoOrphans (db.releaseCode codeHash) :=
  releaseCode_induction codeHash hn fun _ c _ _ => by
    split_ifs with h
    · exact (hn.enqueueCode c.id).modifyRefCount c
        (.inr (by simp [List.map_append]))
    · refine hn.modifyRefCount c (.inl ?_)
      have : ¬ c.refCount.toNat ≤ 1 := h
      rw [uint32_ne_zero_iff, decRefCount_toNat]
      omega

theorem removeAccount (row : AccountRow) : NoOrphans (db.removeAccount row) :=
  ⟨hn.storage.removeAccount row, by
    simpa only [removeAccount_frame] using
      ((hn.enqueueStore row.id).releaseCode row.codeHash).codes⟩

/-- A count is raised only while it stays below the `uint32` limit. -/
theorem addCodeRef {codeHash : Bytes32}
    (hw : ∀ c, db.findCode codeHash = some c → c.refCount.toNat + 1 < 2 ^ 32) (code : Bytes) :
    NoOrphans (db.addCodeRef codeHash code) :=
  addCodeRef_induction
    (fun _ => ⟨hn.storage.of_frame rfl rfl rfl, fun c hc => by
      rcases Table.mem_emplace.1 hc with hc | rfl
      exacts [hn.codes c hc, .inl (by show (1 : UInt32) ≠ 0; decide)]⟩)
    (fun c hc => hn.modifyRefCount c (.inl (by
      rw [uint32_ne_zero_iff, uint32_toNat_add_one, Nat.mod_eq_of_lt (hw c hc)]
      omega)))

theorem setAccountCode (address : Address) (codeHash : Bytes32) :
    NoOrphans (db.setAccountCode address codeHash) :=
  setAccountCode_induction (fun row _ => ⟨hn.storage.modifyAccount row _, hn.codes⟩)
    (fun _ => ⟨hn.storage.emplaceAccount _ _ _ _, hn.codes⟩)

/-- `gc` drops a `gccode` entry only once nothing it names is left to collect. -/
theorem gc (max : UInt32) : NoOrphans (db.gc max).2 := by
  refine ⟨hn.storage.gc max, fun c hc => ?_⟩
  rcases hn.codes c ((gc_codes_sublist db max).subset hc) with h | h
  · exact .inl h
  · obtain ⟨e, he, hid⟩ := List.mem_map.1 h
    by_cases he' : e ∈ (db.gc max).2.gcCode.rows
    · exact .inr (List.mem_map.2 ⟨e, he', hid⟩)
    · exact .inl (gc_gcCode_cleared he he' c hc hid.symm)

/-- Every call that keeps the counts below the `uint32` limit keeps the invariant. -/
theorem apply : ∀ op : Op, op.NoWrap db → NoOrphans (op.apply db)
  | .updateAccount .., _ =>
    updateAccount_induction (P := NoOrphans) (fun _ => hn)
      (fun _ _ _ _ => ⟨hn.storage.emplaceAccount _ _ _ _, hn.codes⟩)
      (fun _ row _ _ _ => ⟨hn.storage.modifyAccount row _, hn.codes⟩)
      (fun row _ _ _ => hn.removeAccount row)
  | .updateAccountCode _ _ code, hw => (hn.addCodeRef hw code).setAccountCode ..
  | .updateStorage .., _ =>
    updateStorage_induction (P := NoOrphans) (fun _ _ => hn)
      (fun _ _ _ => ⟨hn.storage.eraseSlot _ _, by simpa only [eraseSlot_frame] using hn.codes⟩)
      (fun _ _ => ⟨(hn.storage.emplaceAccount _ _ _ _).writeSlot (by simp) _ _,
        by simpa only [writeSlot_frame] using hn.codes⟩)
      (fun _ _ h => ⟨hn.storage.writeSlot (List.mem_map_of_mem _ (findAccount_some h).1) _ _,
        by simpa only [writeSlot_frame] using hn.codes⟩)
  | .gc max, _ => hn.gc max

end NoOrphans

/-- **No orphaned rows, below the `uint32` limit.** In every state reached by calls none of which
raises a code count past `2^32 - 1`, every storage row lies in the scope of a live account or of
a queued `gcstore` entry, and every code row is counted or queued in `gccode`. -/
theorem noOrphans_of_noWrap {db : Db} (h : ReachableBy Op.NoWrap db) : NoOrphans db :=
  h.induction NoOrphans.empty fun _ op hn hok => hn.apply op hok

theorem noOrphans_of_noWrap_deploy :
    ReachableBy Op.NoWrap ((Op.updateAccountCode 0 1 []).apply Db.empty) ∧
      NoOrphans ((Op.updateAccountCode 0 1 []).apply Db.empty) :=
  have h : ReachableBy Op.NoWrap ((Op.updateAccountCode 0 1 []).apply Db.empty) :=
    .step _ .empty fun _ hc => absurd hc (by simp [Db.findCode, Db.empty])
  ⟨h, noOrphans_of_noWrap h⟩

/-! ### A count that wraps -/

/-- `update_account_code` again on an account that already holds the hash raises the count by
one and queues nothing. -/
theorem updateAccountCode_again {db : Db} {k : UInt32} (hc : db.codes.rows = [⟨0, 1, [], k⟩])
    (ha : db.accounts.rows = [⟨0, 0, 0, 0, some 1⟩]) :
    (db.updateAccountCode 0 1 []).codes.rows = [⟨0, 1, [], k + 1⟩] ∧
    (db.updateAccountCode 0 1 []).gcCode = db.gcCode ∧
    (db.updateAccountCode 0 1 []).accounts.rows = [⟨0, 0, 0, 0, some 1⟩] := by
  have hf : db.findCode 1 = some ⟨0, 1, [], k⟩ := by simp [findCode, hc]
  have hf' : (db.modifyRefCount ⟨0, 1, [], k⟩ (· + 1)).findAccount 0 =
      some ⟨0, 0, 0, 0, some 1⟩ := by simp [findAccount, ha]
  rw [updateAccountCode, addCodeRef, hf]; dsimp only; rw [setAccountCode, hf']
  simp [hc, ha, setCodeHash]

/-- After `n + 1` such calls the count is `n + 1` modulo `2^32`, and nothing is queued. -/
theorem run_updateAccountCode_replicate (n : Nat) :
    ∃ k : UInt32, k.toNat = (n + 1) % 2 ^ 32 ∧
      (Db.empty.run (List.replicate (n + 1) (.updateAccountCode 0 1 []))).codes.rows =
        [⟨0, 1, [], k⟩] ∧
      (Db.empty.run (List.replicate (n + 1) (.updateAccountCode 0 1 []))).gcCode.rows = [] ∧
      (Db.empty.run (List.replicate (n + 1) (.updateAccountCode 0 1 []))).accounts.rows =
        [⟨0, 0, 0, 0, some 1⟩] := by
  induction n with
  | zero => exact ⟨1, rfl, rfl, rfl, rfl⟩
  | succ n ih =>
    obtain ⟨k, hk, hc, hg, ha⟩ := ih
    obtain ⟨hc', hg', ha'⟩ := updateAccountCode_again hc ha
    rw [List.replicate_succ', Db.run_append]
    refine ⟨k + 1, ?_, hc', by rw [← hg]; exact congrArg _ hg', ha'⟩
    rw [uint32_toNat_add_one, hk]
    omega

/-- `2^32` calls of `update_account_code` on one account wrap the count of its code row to `0`,
and no `gccode` entry names the row. -/
theorem refCount_wraps :
    ¬ NoOrphans (Db.empty.run (List.replicate (2 ^ 32) (.updateAccountCode 0 1 []))) := by
  intro hn
  obtain ⟨k, hk, hc, hg, -⟩ := run_updateAccountCode_replicate (2 ^ 32 - 1)
  rw [show 2 ^ 32 - 1 + 1 = 2 ^ 32 from rfl] at hk hc hg
  have hk0 : k = 0 := uint32_eq_iff.2 (hk.trans (Nat.mod_self _))
  have := hn.codes ⟨0, 1, [], k⟩ (by rw [hc]; exact List.mem_singleton_self _)
  rw [hg, hk0] at this
  simp at this

end EvmContract
