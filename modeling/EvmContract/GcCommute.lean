import EvmContract.GcCollect
import EvmContract.Run

/-!
# `gc` may run at any moment

`gc` sweeps the storage scopes queued in `gcstore` and the code rows queued in `gccode`; the
snapshot writes of `update_account` touch only the accounts table, and `update_storage` only the
rows of its account's scope (and the account row it may create). Where the two touch different
rows, the order of the calls does not matter: the same tables, and the same reply from `gc`.

* `eraseScope_map`, `eraseScope_append_of_ne`, `eraseScope_filter`: erasing one scope commutes
  with a change of the rows that keeps every row's scope, with a row added to another scope, and
  with erasing rows of another scope; `gcStoreLoop_comm`: so does the storage loop, with a change
  that commutes with each queued scope's erasure;
* `Db.StorageEdit`, `Db.StorageEdit.gc_comm`: a change of the storage rows alone commutes with
  `gc` when it commutes with the storage loop;
* `Db.gc_writeSlot`, `Db.gc_eraseSlot`, `Db.gc_updateStorage`, `Db.gc_updateAccount_some`: the
  write paths, outside the queued scopes;
* `Op.MovesPastGc`, `gc_run_comm`: along every run of such calls, `gc` may run first or last.

A deletion queues a scope and may queue a code row, so `gc` runs differently after it; and
`update_account_code` may create a code row whose id depends on the rows `gc` has erased. Neither
is moved across `gc`.
-/

namespace EvmContract

/-! ### One scope's erasure -/

section EraseScope

variable {sid : Nat}

theorem eraseScope_map {f : StorageRow → StorageRow} (hf : ∀ r, (f r).scope = r.scope)
    (l : List StorageRow) (m : UInt32) :
    eraseScope sid (l.map f) m = ((eraseScope sid l m).1.map f, (eraseScope sid l m).2) := by
  induction l generalizing m with
  | nil => rfl
  | cons r rs ih =>
    simp only [List.map_cons, eraseScope, hf]
    split_ifs <;> simp [ih]

theorem eraseScope_append_of_ne {x : StorageRow} (hx : x.scope ≠ sid) (l : List StorageRow)
    (m : UInt32) :
    eraseScope sid (l ++ [x]) m = ((eraseScope sid l m).1 ++ [x], (eraseScope sid l m).2) := by
  induction l generalizing m with
  | nil => rw [List.nil_append, eraseScope_cons_of_ne hx]; rfl
  | cons r rs ih =>
    simp only [List.cons_append, eraseScope]
    split_ifs <;> simp [ih]

theorem eraseScope_filter {p : StorageRow → Bool} {l : List StorageRow}
    (hp : ∀ r ∈ l, r.scope = sid → p r) (m : UInt32) :
    eraseScope sid (l.filter p) m = ((eraseScope sid l m).1.filter p, (eraseScope sid l m).2) := by
  induction l generalizing m with
  | nil => rfl
  | cons r rs ih =>
    have ih' := ih fun r' hr' => hp r' (List.mem_cons_of_mem _ hr')
    by_cases hr : p r
    · rw [List.filter_cons_of_pos hr]
      simp only [eraseScope]
      split_ifs <;> simp [ih', hr]
    · have hs : r.scope ≠ sid := fun e => hr (hp r (List.mem_cons_self _ _) e)
      rw [List.filter_cons_of_neg hr, eraseScope_cons_of_ne hs, ih']
      simp [hr]

end EraseScope

/-- The storage loop commutes with a change of the rows that commutes with erasing each queued
scope. -/
theorem gcStoreLoop_comm {g : List StorageRow → List StorageRow} {q : List GcStoreRow}
    (hg : ∀ e ∈ q, ∀ l m, eraseScope e.storageId (g l) m =
      (g (eraseScope e.storageId l m).1, (eraseScope e.storageId l m).2))
    (rows : List StorageRow) (m : UInt32) :
    gcStoreLoop q (g rows) m =
      ((gcStoreLoop q rows m).1, g (gcStoreLoop q rows m).2.1, (gcStoreLoop q rows m).2.2) := by
  induction q generalizing rows m with
  | nil => rfl
  | cons e es ih =>
    simp only [gcStoreLoop, hg e (List.mem_cons_self _ _)]
    split_ifs <;> simp [ih fun e' he' => hg e' (List.mem_cons_of_mem _ he')]

/-- The storage loop leaves the rows of a scope no entry names. -/
theorem gcStoreLoop_filter_scope {id : Nat} {q : List GcStoreRow} (hq : ∀ e ∈ q, e.storageId ≠ id)
    (rows : List StorageRow) (m : UInt32) :
    (gcStoreLoop q rows m).2.1.filter (·.scope = id) = rows.filter (·.scope = id) := by
  induction q generalizing rows m with
  | nil => rfl
  | cons e es ih =>
    have he : ∀ r : StorageRow, r.scope = e.storageId → decide (r.scope = id) = false :=
      fun r hr => by simpa [hr] using hq e (List.mem_cons_self _ _)
    simp only [gcStoreLoop]
    split_ifs
    · rfl
    · exact eraseScope_filter_of _ he rows m
    · rw [ih (fun e' he' => hq e' (List.mem_cons_of_mem _ he')), eraseScope_filter_of _ he]

namespace Db

variable {db : Db} {max : UInt32}

/-! ### Reads of one scope -/

/-- The slot lookup reads only the rows of its scope. -/
theorem findSlot_of_filter {db' : Db} {id : Nat}
    (h : db'.storage.rows.filter (·.scope = id) = db.storage.rows.filter (·.scope = id))
    (location : Bytes32) : db'.findSlot id location = db.findSlot id location := by
  have key : ∀ d : Db, d.findSlot id location =
      (d.storage.rows.filter (·.scope = id)).find? fun r => r.scope = id ∧ r.key = location :=
    fun d => by rw [List.find?_filter]; exact Table.find?_congr fun r _ => by simp
  rw [key, key db, h]

/-- `gc` leaves the rows of a scope no `gcstore` entry names. -/
theorem gc_filter_scope {id : Nat} (hq : ∀ e ∈ db.gcStore.rows, e.storageId ≠ id) :
    (db.gc max).2.storage.rows.filter (·.scope = id) = db.storage.rows.filter (·.scope = id) :=
  gcStoreLoop_filter_scope hq _ _

/-! ### Changes of the storage rows alone -/

/-- `d` is `db` with its storage rows changed by `g`, and nothing else. -/
structure StorageEdit (g : List StorageRow → List StorageRow) (db d : Db) : Prop where
  accounts : d.accounts = db.accounts
  storage : d.storage.rows = g db.storage.rows
  codes : d.codes = db.codes
  gcStore : d.gcStore = db.gcStore
  gcCode : d.gcCode = db.gcCode

theorem StorageEdit.of_frame {g : List StorageRow → List StorageRow} {d : Db}
    (hf : d.accounts = db.accounts ∧ d.codes = db.codes ∧ d.gcStore = db.gcStore ∧
      d.gcCode = db.gcCode) (hs : d.storage.rows = g db.storage.rows) : StorageEdit g db d :=
  ⟨hf.1, hs, hf.2.1, hf.2.2.1, hf.2.2.2⟩

/-- A change of the storage rows that commutes with erasing each queued scope commutes with
`gc`. -/
theorem StorageEdit.gc_comm {g : List StorageRow → List StorageRow} {d d' : Db}
    (hg : ∀ e ∈ db.gcStore.rows, ∀ l m, eraseScope e.storageId (g l) m =
      (g (eraseScope e.storageId l m).1, (eraseScope e.storageId l m).2))
    (h : StorageEdit g db d) (h' : StorageEdit g (db.gc max).2 d') :
    d.gc max = ((db.gc max).1, d') := by
  have hs := gcStoreLoop_comm hg db.storage.rows max
  have hgs : (d.gc max).2.gcStore.rows = (db.gc max).2.gcStore.rows := by
    simp only [gc_snd, gcRun_gcStore, h.gcStore, h.storage, hs]
  have hgc : (d.gc max).2.gcCode.rows = (db.gc max).2.gcCode.rows := by
    simp only [gc_snd, gcRun_gcCode, h.gcStore, h.storage, h.gcCode, h.codes, hs]
  refine Prod.ext (by rw [gc_fst, gc_fst, ← gc_snd, ← gc_snd, hgs, hgc]) (ext_rows ?_ ?_ ?_ ?_ ?_)
  · rw [h'.accounts, gc_snd, gc_snd, gcRun_accounts, gcRun_accounts, h.accounts]
  · simp only [h'.storage, gc_snd, gcRun_storage, h.gcStore, h.storage, hs]
  · simp only [h'.codes, gc_snd, gcRun_codes, h.gcStore, h.storage, h.gcCode, h.codes, hs]
  · rw [hgs, h'.gcStore]
  · rw [hgc, h'.gcCode]

/-! ### The write paths -/

/-- The slot write of `update_storage` in a scope no `gcstore` entry names commutes with `gc`. -/
theorem gc_writeSlot {id : Nat} (hq : ∀ e ∈ db.gcStore.rows, e.storageId ≠ id)
    (location value : Bytes32) :
    (db.writeSlot id location value).gc max =
      ((db.gc max).1, (db.gc max).2.writeSlot id location value) := by
  have hsc := @gc_filter_scope db max _ hq
  have hf := findSlot_of_filter hsc location
  have hk : (db.gc max).2.storage.availablePrimaryKey id = db.storage.availablePrimaryKey id :=
    Table.nextKey_of_filter hsc
  rcases hs : db.findSlot id location with _ | slot
  · -- a new row, in scope `id`
    refine StorageEdit.gc_comm
      (g := (· ++ [⟨id, db.storage.availablePrimaryKey id, location, value⟩]))
      (fun e he => eraseScope_append_of_ne (hq e he).symm)
      (.of_frame (writeSlot_frame ..) ?_) (.of_frame (writeSlot_frame ..) ?_)
    · rw [writeSlot_storage, hs]
    · rw [writeSlot_storage, hf, hs, hk]
  · -- the row of the slot, rewritten in place
    refine StorageEdit.gc_comm
      (g := List.map fun x => if x = slot then { x with value := value } else x)
      (fun e _ => eraseScope_map fun r => by split <;> rfl)
      (.of_frame (writeSlot_frame ..) ?_) (.of_frame (writeSlot_frame ..) ?_)
    · rw [writeSlot_storage, hs]
    · rw [writeSlot_storage, hf, hs]

/-- The slot erase of `update_storage` in a scope no `gcstore` entry names commutes with `gc`. -/
theorem gc_eraseSlot {id : Nat} (hq : ∀ e ∈ db.gcStore.rows, e.storageId ≠ id)
    (location : Bytes32) :
    (db.eraseSlot id location).gc max = ((db.gc max).1, (db.gc max).2.eraseSlot id location) := by
  have hf := findSlot_of_filter (@gc_filter_scope db max _ hq) location
  rcases hs : db.findSlot id location with _ | slot
  · simp only [eraseSlot, hs, hf]
  · obtain ⟨-, hsc, -⟩ := findSlot_some hs
    refine StorageEdit.gc_comm (g := List.filter (· ≠ slot))
      (fun e he _ m => eraseScope_filter (fun r _ hr => by
        simp only [ne_eq, decide_eq_true_eq]; rintro rfl; exact hq e he (hr.symm.trans hsc)) m)
      (.of_frame (eraseSlot_frame ..) ?_) (.of_frame (eraseSlot_frame ..) ?_)
    · rw [eraseSlot_storage, hs]
    · rw [eraseSlot_storage, hf, hs]

/-- `gc` reads no account row. -/
theorem gc_emplaceAccount (address : Address) (nonce : UInt64) (balance : BitVec 256)
    (codeHash : Option Bytes32) :
    (db.emplaceAccount address nonce balance codeHash).gc max =
      ((db.gc max).1, (db.gc max).2.emplaceAccount address nonce balance codeHash) := rfl

/-- The storage scope `update_storage` writes in for `address`: the id of the account's row, or
the id `emplace` gives a new one. -/
def storageScope (db : Db) (address : Address) : Nat :=
  ((db.findAccount address).map (·.id)).getD (db.accounts.availablePrimaryKey 0)

/-- `update_storage` in a scope no `gcstore` entry names commutes with `gc`. -/
theorem gc_updateStorage {address : Address}
    (hq : ∀ e ∈ db.gcStore.rows, e.storageId ≠ db.storageScope address) (location value : Bytes32) :
    (db.updateStorage address location value).gc max =
      ((db.gc max).1, (db.gc max).2.updateStorage address location value) := by
  have hA : (db.gc max).2.findAccount address = db.findAccount address := rfl
  rcases hr : db.findAccount address with _ | row <;> simp only [storageScope, hr] at hq <;>
    simp only [updateStorage, hA, hr] <;> split_ifs
  · rfl
  · rw [gc_writeSlot (by exact hq), gc_emplaceAccount]; rfl
  · exact gc_eraseSlot hq location
  · exact gc_writeSlot hq location value

/-- The snapshot write of `update_account` commutes with `gc`. -/
theorem gc_updateAccount_some (address : Address) (initial : Option Account) (c : Account) :
    (db.updateAccount address initial (some c)).gc max =
      ((db.gc max).1, (db.gc max).2.updateAccount address initial (some c)) := by
  have hA : (db.gc max).2.findAccount address = db.findAccount address := rfl
  rcases hr : db.findAccount address with _ | row <;> simp only [updateAccount, hA, hr] <;>
    split_ifs <;> rfl

end Db

/-! ### Runs -/

/-- The calls `gc` may be moved across: the snapshot writes of `update_account`, and
`update_storage` in a scope no `gcstore` entry names. -/
def Op.MovesPastGc (db : Db) : Op → Prop
  | .updateAccount _ _ current => current ≠ none
  | .updateStorage address _ _ => ∀ e ∈ db.gcStore.rows, e.storageId ≠ db.storageScope address
  | .updateAccountCode .. | .gc _ => False

instance Op.decMovesPastGc (db : Db) : ∀ op, Decidable (Op.MovesPastGc db op)
  | .updateAccount _ _ current => inferInstanceAs (Decidable (current ≠ none))
  | .updateStorage address _ _ =>
    inferInstanceAs (Decidable (∀ e ∈ db.gcStore.rows, e.storageId ≠ db.storageScope address))
  | .updateAccountCode .. | .gc _ => isFalse id

/-- One call that moves past `gc`. -/
theorem Op.gc_apply_comm {db : Db} {op : Op} (h : op.MovesPastGc db) (max : UInt32) :
    (op.apply db).gc max = ((db.gc max).1, op.apply (db.gc max).2) := by
  cases op with
  | updateAccount address initial current =>
    obtain ⟨c, rfl⟩ := Option.ne_none_iff_exists'.1 h
    exact Db.gc_updateAccount_some address initial c
  | updateStorage address location value => exact Db.gc_updateStorage h location value
  | updateAccountCode | gc => exact h.elim

/-- **`gc` may run at any moment of a run of snapshot and slot writes.** Along every run of
`update_account` calls with a current snapshot and `update_storage` calls in scopes that no
`gcstore` entry names, a `gc` call made after the run leaves the tables and gives the reply of
the same call made before it, followed by the run. -/
theorem gc_run_comm {db : Db} {ops : List Op} (h : RunOk Op.MovesPastGc db ops) (max : UInt32) :
    (db.run ops).gc max = ((db.gc max).1, (db.gc max).2.run ops) := by
  induction h with
  | nil => rfl
  | cons hop _ ih => rw [Db.run_cons, ih, Op.gc_apply_comm hop]; rfl

theorem gc_run_comm_after_delete :
    let d := Db.empty.run [.updateStorage 1 1 5, .updateStorage 2 1 6,
      .updateAccount 1 (some ⟨0, 0, kEmptyHash, 0⟩) none]
    let ops : List Op :=
      [.updateStorage 2 3 9, .updateAccount 3 none (some ⟨1, 0, 0, 0⟩), .updateStorage 3 1 4]
    RunOk Op.MovesPastGc d ops ∧ (d.run ops).gc 1 = ((d.gc 1).1, (d.gc 1).2.run ops) :=
  have h : RunOk Op.MovesPastGc (Db.empty.run [.updateStorage 1 1 5, .updateStorage 2 1 6,
      .updateAccount 1 (some ⟨0, 0, kEmptyHash, 0⟩) none])
      [.updateStorage 2 3 9, .updateAccount 3 none (some ⟨1, 0, 0, 0⟩), .updateStorage 3 1 4] :=
    .cons (by decide) (.cons (by decide) (.cons (by decide) (.nil _)))
  ⟨h, gc_run_comm h 1⟩

end EvmContract
