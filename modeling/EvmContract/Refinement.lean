import EvmContract.Reads

/-!
# The tables refine the world state

What the EVM sees of the tables is a world state: per address, an account's nonce, balance, code
hash and storage (`Db.world`). The world-state description says how each call acts on it
(`Op.worldStep`); the code differs from it on purpose in one place: `update_account` returns at
once when its two snapshots are equal (`Op.worldStepAmended`).

Storage is scoped by account id, and `available_primary_key()` gives a new account the id of an
erased account whose id was the largest (`account_id_reused`): the new account then sees the
erased account's slots, which a pending `gcstore` entry will later erase. The refinement
holds on the runs that never create an account while a pending `gcstore` entry names the id it
receives (`Op.CreatesClean`):

* `world_refines`: along every such run the tables represent the world the description
  computes, and `read_account` and `read_storage` return what that world holds;
* `world_step_diverges`: without the amendment, a call whose two snapshots agree already
  separates the tables from the description's world.
-/

namespace EvmContract

open Db

/-! ### The world state -/

/-- An account as the EVM sees it. -/
structure WorldAccount where
  nonce : UInt64
  balance : BitVec 256
  codeHash : Bytes32
  /-- The slot values; an absent slot reads as zero. -/
  storage : Bytes32 → Bytes32

/-- The world state: the account at each address, if any. -/
abbrev World := Address → Option WorldAccount

namespace World

/-- The world of a fresh deployment: no accounts. -/
def empty : World := fun _ => none

/-- The world after a run, one call at a time by `step`. -/
def run (step : Op → World → World) (w : World) : List Op → World
  | [] => w
  | op :: ops => run step (step op w) ops

end World

/-- A fresh account with the code hash `codeHash`: nonce `0`, balance `0`, no slots. -/
def WorldAccount.fresh (codeHash : Bytes32) : WorldAccount := ⟨0, 0, codeHash, fun _ => 0⟩

/-- The account an account row and its slots represent. -/
def AccountRow.view (r : AccountRow) (storage : Bytes32 → Bytes32) : WorldAccount :=
  ⟨r.nonce, r.balance, r.getCodeHash, storage⟩

/-- The world the tables represent: per address the account row's fields and its scope's
slots. -/
def Db.world (db : Db) : World := fun address =>
  (db.findAccount address).map fun r => r.view (db.slotValue r.id)

/-- Modelled from the spec: the effect of a call on the world, in the words of the world-state
description. -/
def Op.worldStep : Op → World → World
  | .updateAccount address _ none, w => Function.update w address none
  | .updateAccount address _ (some c), w =>
    Function.update w address
      (some ⟨c.nonce, c.balance, c.codeHash, ((w address).map (·.storage)).getD fun _ => 0⟩)
  | .updateAccountCode address codeHash _, w =>
    Function.update w address (some { (w address).getD (.fresh codeHash) with codeHash })
  | .updateStorage address location value, w =>
    match w address with
    | none =>
      if value = 0 then w
      else
        Function.update w address
          (some { WorldAccount.fresh kEmptyHash with
            storage := Function.update (fun _ => 0) location value })
    | some x =>
      Function.update w address
        (some { x with storage := Function.update x.storage location value })
  | .gc _, w => w

/-- The amended effect: an `update_account` whose two snapshots are equal changes nothing. -/
def Op.worldStepAmended (op : Op) (w : World) : World :=
  match op with
  | .updateAccount _ initial current => if current = initial then w else op.worldStep w
  | _ => op.worldStep w

/-- Whether the call creates an account row: the `emplace` branches of the three write paths. -/
def Op.createsAccount (db : Db) : Op → Bool
  | .updateAccount address initial current =>
    decide (current ≠ initial) && current.isSome && (db.findAccount address).isNone
  | .updateAccountCode address _ _ => (db.findAccount address).isNone
  | .updateStorage address _ current => decide (current ≠ 0) && (db.findAccount address).isNone
  | .gc _ => false

/-- A call that creates an account row takes an id no pending `gcstore` entry names. -/
def Op.CreatesClean (db : Db) (op : Op) : Prop :=
  op.createsAccount db = true →
    db.accounts.availablePrimaryKey 0 ∉ db.gcStore.rows.map (·.storageId)

instance (db : Db) (op : Op) : Decidable (op.CreatesClean db) :=
  inferInstanceAs (Decidable (_ → _))

/-! ### Account ids -/

theorem id_lt_available {db : Db} {a : AccountRow} (ha : a ∈ db.accounts.rows) :
    a.id < db.accounts.availablePrimaryKey 0 :=
  Table.primaryKey_lt_available ha

theorem eq_of_id_eq {db : Db} {a b : AccountRow} (ha : a ∈ db.accounts.rows)
    (hb : b ∈ db.accounts.rows) (h : a.id = b.id) : a = b :=
  Table.eq_of_key_eq ha hb rfl h

/-- **Account ids are reused.** Address `1` writes a slot, which creates its account row with
id `0`; it is then deleted, which queues scope `0`; a new account at address `2` receives id
`0` again, reads the deleted account's slot, and shares its scope with the pending `gcstore`
entry. -/
theorem account_id_reused :
    (Db.empty.run [.updateStorage 1 1 5]).findAccount 1 = some ⟨0, 1, 0, 0, some kEmptyHash⟩ ∧
    (Db.empty.run [.updateStorage 1 1 5, .updateAccount 1 (some ⟨0, 0, kEmptyHash, 0⟩) none,
      .updateAccount 2 none (some ⟨1, 0, kEmptyHash, 0⟩)]).findAccount 2 =
      some ⟨0, 2, 1, 0, none⟩ ∧
    (Db.empty.run [.updateStorage 1 1 5, .updateAccount 1 (some ⟨0, 0, kEmptyHash, 0⟩) none,
      .updateAccount 2 none (some ⟨1, 0, kEmptyHash, 0⟩)]).gcStore.rows = [⟨0, 0⟩] ∧
    (Db.empty.run [.updateStorage 1 1 5, .updateAccount 1 (some ⟨0, 0, kEmptyHash, 0⟩) none,
      .updateAccount 2 none (some ⟨1, 0, kEmptyHash, 0⟩)]).readStorage 2 1 = 5 := by
  decide

/-- No live account's id is named by a pending `gcstore` entry. -/
def Unqueued (db : Db) : Prop :=
  ∀ a ∈ db.accounts.rows, a.id ∉ db.gcStore.rows.map (·.storageId)

namespace Unqueued

variable {db : Db} (hu : Unqueued db)
include hu

theorem of_frame {db' : Db} (ha : db'.accounts = db.accounts) (hg : db'.gcStore = db.gcStore) :
    Unqueued db' := by
  unfold Unqueued; rw [ha, hg]; exact hu

theorem emplaceAccount (hk : db.accounts.availablePrimaryKey 0 ∉ db.gcStore.rows.map (·.storageId))
    (address : Address) (nonce : UInt64) (balance : BitVec 256) (codeHash : Option Bytes32) :
    Unqueued (db.emplaceAccount address nonce balance codeHash) := fun a ha => by
  rcases Table.mem_emplace.1 ha with ha | rfl
  exacts [hu a ha, hk]

theorem modifyAccount (row : AccountRow) {f : AccountRow → AccountRow} (hf) :
    Unqueued (db.modifyAccount row f hf) := fun a ha => by
  dsimp only [modifyAccount_accounts] at ha
  rcases Table.mem_modify.1 ha with ⟨hr, rfl⟩ | ⟨ha, -⟩
  · rw [hf]; exact hu row hr
  · exact hu a ha

theorem removeAccount {row : AccountRow} (hr : row ∈ db.accounts.rows) :
    Unqueued (db.removeAccount row) := fun a ha => by
  simp only [removeAccount_frame, Table.rows_erase, List.mem_filter, decide_eq_true_eq] at ha
  simp only [removeAccount_frame, enqueueStore_gcStore, Table.rows_emplace, List.map_append,
    List.mem_append, List.map_cons, List.map_nil, List.mem_singleton, not_or]
  exact ⟨hu a ha.1, fun h => ha.2 (eq_of_id_eq ha.1 hr h)⟩

theorem gc (max : UInt32) : Unqueued (db.gc max).2 := fun a ha h =>
  hu a ha (List.map_subset _ (gc_gcStore_suffix db max).subset h)

/-- Every call that creates accounts only over unqueued ids keeps the invariant. -/
theorem apply :
    ∀ op : Op, op.CreatesClean db → Unqueued (op.apply db)
  | .updateAccount address initial current, hc =>
    updateAccount_induction (P := Unqueued) (fun _ => hu)
      (fun c hcur hne hA =>
        hu.emplaceAccount (hc (by subst hcur; simp [Op.createsAccount, hne, hA])) _ _ _ _)
      (fun _ row _ _ _ => hu.modifyAccount row _)
      (fun _ _ _ h => hu.removeAccount (findAccount_some h).1)
  | .updateAccountCode address codeHash code, hc =>
    have h1 : Unqueued (db.addCodeRef codeHash code) :=
      hu.of_frame (addCodeRef_frame ..).1 (addCodeRef_frame ..).2.2.1
    setAccountCode_induction (fun row _ => h1.modifyAccount row _)
      (fun hA => h1.emplaceAccount (by
        rw [(addCodeRef_frame ..).1, (addCodeRef_frame ..).2.2.1]
        refine hc ?_
        rw [findAccount_of_accounts (addCodeRef_frame ..).1] at hA
        simp [Op.createsAccount, hA]) _ _ _ _)
  | .updateStorage address location value, hc =>
    updateStorage_induction (P := Unqueued) (fun _ _ => hu)
      (fun _ _ _ => hu.of_frame (eraseSlot_frame ..).1 (eraseSlot_frame ..).2.2.1)
      (fun hv hA =>
        (hu.emplaceAccount (hc (by simpa [Op.createsAccount, hA] using hv)) _ _ _ _).of_frame
        (writeSlot_frame ..).1 (writeSlot_frame ..).2.2.1)
      (fun _ _ _ => hu.of_frame (writeSlot_frame ..).1 (writeSlot_frame ..).2.2.1)
  | .gc max, _ => hu.gc max

end Unqueued

theorem ScopesLive.fresh_scope_empty {db : Db} (hs : ScopesLive db)
    (hk : db.accounts.availablePrimaryKey 0 ∉ db.gcStore.rows.map (·.storageId)) :
    ∀ r ∈ db.storage.rows, r.scope ≠ db.accounts.availablePrimaryKey 0 := fun r hr he => by
  rcases hs r hr with h | h
  · obtain ⟨a, ha, hid⟩ := List.mem_map.1 h
    have := id_lt_available ha
    omega
  · exact hk (he ▸ h)

/-! ### The world of the tables -/

namespace Db

variable {db : Db}


theorem world_none {address : Address} (h : db.findAccount address = none) :
    db.world address = none := by
  simp [world, h]

theorem world_some {address : Address} {row : AccountRow} (h : db.findAccount address = some row) :
    db.world address = some (row.view (db.slotValue row.id)) := by
  simp [world, h]

theorem world_of_rows {db' : Db} (ha : db'.accounts.rows = db.accounts.rows)
    (hs : db'.storage.rows = db.storage.rows) : db'.world = db.world := by
  funext x; simp only [world, findAccount, ha, slotValue_of_rows hs]

theorem world_emplaceAccount {address : Address} (hA : db.findAccount address = none)
    (hk : ∀ r ∈ db.storage.rows, r.scope ≠ db.accounts.availablePrimaryKey 0)
    (nonce : UInt64) (balance : BitVec 256) (codeHash : Option Bytes32) :
    (db.emplaceAccount address nonce balance codeHash).world =
      Function.update db.world address
        (some ⟨nonce, balance, codeHash.getD kEmptyHash, fun _ => 0⟩) := by
  have hs : (db.emplaceAccount address nonce balance codeHash).slotValue = db.slotValue :=
    slotValue_of_rows rfl
  funext x
  by_cases hx : x = address
  · subst hx
    simp [world, findAccount_emplaceAccount, hA, hs, slotValue_eq_zero hk, AccountRow.view,
      AccountRow.getCodeHash]
  · simp [world, findAccount_emplaceAccount, Ne.symm hx, hs, hx]

theorem world_modifyAccount {address : Address} {row : AccountRow}
    (hrow : db.findAccount address = some row) {f : AccountRow → AccountRow}
    (hf : ∀ r, (f r).id = r.id) (ha : ∀ r, (f r).ethAddress = r.ethAddress) :
    (db.modifyAccount row f hf).world =
      Function.update db.world address (some ((f row).view (db.slotValue row.id))) := by
  have hs : (db.modifyAccount row f hf).slotValue = db.slotValue := slotValue_of_rows rfl
  funext x
  by_cases hx : x = address
  · subst hx
    simp [world, findAccount_modifyAccount _ _ ha, hrow, hs, hf]
  · simp only [world, findAccount_modifyAccount _ _ ha, hs, Function.update_noteq hx,
      Option.map_map]
    rcases h : db.findAccount x with _ | r
    · rfl
    · have : r ≠ row := fun e => hx (by rw [← (findAccount_some h).2, e, (findAccount_some hrow).2])
      simp [this]

theorem world_removeAccount (hw : WellFormed db) {address : Address} {row : AccountRow}
    (hrow : db.findAccount address = some row) :
    (db.removeAccount row).world = Function.update db.world address none := by
  have hs : (db.removeAccount row).slotValue = db.slotValue := slotValue_of_rows (by simp)
  obtain ⟨hmem, rfl⟩ := findAccount_some hrow
  funext x
  by_cases hx : x = row.ethAddress
  · subst hx; simp [world, findAccount_removeAccount hw hmem]
  · simp [world, findAccount_removeAccount hw hmem, Ne.symm hx, hx, hs]

theorem world_setSlot {db' : Db} {address : Address} {row : AccountRow}
    (hrow : db.findAccount address = some row) (ha : db'.accounts.rows = db.accounts.rows)
    {location value : Bytes32}
    (hs : ∀ id' location', db'.slotValue id' location' =
      if id' = row.id ∧ location' = location then value else db.slotValue id' location') :
    db'.world = Function.update db.world address
      (some (row.view (Function.update (db.slotValue row.id) location value))) := by
  have hf : db'.findAccount = db.findAccount := by funext x; simp only [findAccount, ha]
  funext x
  by_cases hx : x = address
  · subst hx
    simp only [world, hf, hrow, Option.map_some', Function.update_same]
    congr 2; funext l; rw [hs]
    by_cases hl : l = location
    · subst hl; simp
    · simp [hl]
  · simp only [world, hf, Function.update_noteq hx]
    rcases h : db.findAccount x with _ | r
    · rfl
    · have hne : r.id ≠ row.id := fun e => hx (by
        rw [← (findAccount_some h).2, eq_of_id_eq (findAccount_some h).1
          (findAccount_some hrow).1 e, (findAccount_some hrow).2])
      simp only [Option.map_some']
      congr 2; funext l; rw [hs]; simp [hne]

theorem world_gc (hu : Unqueued db) (max : UInt32) : (db.gc max).2.world = db.world := by
  have hf : (db.gc max).2.findAccount = db.findAccount := by
    funext x; simp only [findAccount, gc_snd, gcRun_accounts]
  funext x; simp only [world, hf]
  rcases h : db.findAccount x with _ | r
  · rfl
  · simp only [Option.map_some', slotValue_gc (hu r (findAccount_some h).1)]

end Db

/-! ### The refinement -/

/-- What the refinement rests on. -/
structure WorldInv (db : Db) : Prop where
  wellFormed : WellFormed db
  scopesLive : ScopesLive db
  unqueued : Unqueued db

namespace WorldInv

theorem empty : WorldInv Db.empty :=
  ⟨WellFormed.empty, NoOrphans.empty.storage, fun _ h => absurd h (List.not_mem_nil _)⟩

variable {db : Db} (hi : WorldInv db)
include hi

theorem apply (op : Op) (hc : op.CreatesClean db) : WorldInv (op.apply db) :=
  ⟨hi.wellFormed.apply op, hi.scopesLive.apply op, hi.unqueued.apply op hc⟩

/-- `update_account` moves the world as the amended step says. -/
theorem world_updateAccount {address : Address} {initial current : Option Account}
    (hc : (Op.updateAccount address initial current).CreatesClean db) :
    (db.updateAccount address initial current).world =
      (Op.updateAccount address initial current).worldStepAmended db.world := by
  refine updateAccount_induction (P := fun db' => db'.world = _) ?_ ?_ ?_ ?_
  · rintro (h | ⟨rfl, hA⟩)
    · simp [Op.worldStepAmended, h]
    · by_cases h : none = initial
      · simp [Op.worldStepAmended, h]
      · simp only [Op.worldStepAmended, if_neg h, Op.worldStep]
        rw [← world_none hA, Function.update_eq_self]
  · intro c hcur hne hA
    subst hcur
    rw [world_emplaceAccount hA (hi.scopesLive.fresh_scope_empty
      (hc (by simp [Op.createsAccount, hne, hA])))]
    simp [Op.worldStepAmended, hne, Op.worldStep, world_none hA, storedCodeHash_getD]
  · intro c row hcur hne hrow
    subst hcur
    rw [world_modifyAccount (f := setSnapshot c) hrow (fun _ => rfl) (fun _ => rfl)]
    simp [Op.worldStepAmended, hne, Op.worldStep, world_some hrow, setSnapshot, AccountRow.view,
      AccountRow.getCodeHash, storedCodeHash_getD]
  · intro row hcur hne hrow
    subst hcur
    rw [world_removeAccount hi.wellFormed hrow]
    simp [Op.worldStepAmended, hne, Op.worldStep]

/-- `update_account_code` moves the world as the step says. -/
theorem world_updateAccountCode {address : Address} {codeHash : Bytes32} {code : Bytes}
    (hc : (Op.updateAccountCode address codeHash code).CreatesClean db) :
    (db.updateAccountCode address codeHash code).world =
      (Op.updateAccountCode address codeHash code).worldStepAmended db.world := by
  have hw1 : (db.addCodeRef codeHash code).world = db.world := world_of_rows (by simp) (by simp)
  have hs1 : (db.addCodeRef codeHash code).slotValue = db.slotValue := slotValue_of_rows (by simp)
  have hf1 := findAccount_of_accounts (addCodeRef_frame db codeHash code).1
  refine setAccountCode_induction (P := fun db' => db'.world = _) (fun row hrow => ?_)
    (fun hA => ?_)
  · dsimp only
    rw [world_modifyAccount (f := setCodeHash codeHash) hrow (fun _ => rfl) (fun _ => rfl), hw1,
      hs1]
    rw [hf1] at hrow
    simp [Op.worldStepAmended, Op.worldStep, world_some hrow, setCodeHash, AccountRow.view,
      AccountRow.getCodeHash]
  · have hk := hi.scopesLive.fresh_scope_empty (hc (by simpa [Op.createsAccount, hf1] using hA))
    rw [← (addCodeRef_frame db codeHash code).1, ← (addCodeRef_frame db codeHash code).2.1] at hk
    dsimp only
    rw [world_emplaceAccount hA hk, hw1]
    rw [hf1] at hA
    simp [Op.worldStepAmended, Op.worldStep, world_none hA, WorldAccount.fresh]

/-- `update_storage` moves the world as the step says. -/
theorem world_updateStorage {address : Address} {location value : Bytes32}
    (hc : (Op.updateStorage address location value).CreatesClean db) :
    (db.updateStorage address location value).world =
      (Op.updateStorage address location value).worldStepAmended db.world := by
  refine updateStorage_induction (P := fun db' => db'.world = _) (fun hv hA => ?_)
    (fun row hv hrow => ?_) (fun hv hA => ?_) (fun row hv hrow => ?_)
  · simp [Op.worldStepAmended, Op.worldStep, world_none hA, hv]
  · subst hv
    rw [world_setSlot hrow (by simp) (slotValue_eraseSlot hi.wellFormed.slotKeys row.id location)]
    simp only [Op.worldStepAmended, Op.worldStep, world_some hrow]
    rfl
  · have hk := hi.scopesLive.fresh_scope_empty (hc (by simpa [Op.createsAccount, hA] using hv))
    have hrow : (db.emplaceAccount address 0 0 (some kEmptyHash)).findAccount address =
        some ⟨db.accounts.availablePrimaryKey 0, address, 0, 0, some kEmptyHash⟩ := by
      simp [findAccount_emplaceAccount, hA]
    have h0 : (db.emplaceAccount address 0 0 (some kEmptyHash)).slotValue
        (db.accounts.availablePrimaryKey 0) = fun _ => 0 := by
      rw [show (db.emplaceAccount address 0 0 (some kEmptyHash)).slotValue = db.slotValue from
        slotValue_of_rows rfl, slotValue_eq_zero hk]
    dsimp only
    rw [world_setSlot hrow (by simp) (slotValue_writeSlot _ _ _), world_emplaceAccount hA hk,
      Function.update_idem]
    dsimp only
    rw [h0]
    simp only [Op.worldStepAmended, Op.worldStep, world_none hA, if_neg hv]
    rfl
  · dsimp only
    rw [world_setSlot hrow (by simp) (slotValue_writeSlot _ _ _)]
    simp only [Op.worldStepAmended, Op.worldStep, world_some hrow]
    rfl

theorem world_apply : ∀ op : Op, op.CreatesClean db →
    (op.apply db).world = op.worldStepAmended db.world
  | .updateAccount .., hc => hi.world_updateAccount hc
  | .updateAccountCode .., hc => hi.world_updateAccountCode hc
  | .updateStorage .., hc => hi.world_updateStorage hc
  | .gc max, _ => by
    simp only [Op.apply, world_gc hi.unqueued, Op.worldStepAmended, Op.worldStep]

/-- Along a run whose account creations are all clean, the tables follow the amended world. -/
theorem run {ops : List Op} (h : RunOk Op.CreatesClean db ops) :
    (db.run ops).world = World.run Op.worldStepAmended db.world ops := by
  induction h with
  | nil => rfl
  | cons hc _ ih => rw [Db.run_cons, World.run, ← hi.world_apply _ hc]; exact ih (hi.apply _ hc)

end WorldInv

theorem Db.world_empty : Db.empty.world = World.empty := rfl

/-- `read_account` returns the world's account with incarnation `0`. -/
theorem Db.readAccount_eq_world (db : Db) (address : Address) :
    db.readAccount address =
      (db.world address).map fun x => ⟨x.nonce, x.balance, x.codeHash, 0⟩ := by
  simp [readAccount, world, Option.map_map, Function.comp_def, AccountRow.view]

/-- `read_storage` returns the world's slot, zero for an absent account. -/
theorem Db.readStorage_eq_world (db : Db) (address : Address) (location : Bytes32) :
    db.readStorage address location =
      ((db.world address).map fun x => x.storage location).getD 0 := by
  unfold readStorage world; split <;> simp_all [AccountRow.view]

/-- **The tables refine the world state.** Along every run from a fresh deployment in which no
account is created while a pending `gcstore` entry names the id it receives, the tables represent
the world the amended description computes, and `read_account` and `read_storage` return what
that world holds. -/
theorem world_refines (ops : List Op) (h : RunOk Op.CreatesClean Db.empty ops) :
    (Db.empty.run ops).world = World.run Op.worldStepAmended World.empty ops ∧
    (∀ address, (Db.empty.run ops).readAccount address =
      (World.run Op.worldStepAmended World.empty ops address).map
        fun x => ⟨x.nonce, x.balance, x.codeHash, 0⟩) ∧
    ∀ address location, (Db.empty.run ops).readStorage address location =
      ((World.run Op.worldStepAmended World.empty ops address).map
        fun x => x.storage location).getD 0 := by
  have hw := WorldInv.empty.run h
  rw [Db.world_empty] at hw
  exact ⟨hw, fun a => by rw [Db.readAccount_eq_world, hw],
    fun a l => by rw [Db.readStorage_eq_world, hw]⟩

/-- The run of `account_id_reused` with a `gc` between the deletion and the creation: the scope
is emptied and its entry dropped before the id is handed out again. -/
theorem world_refines_after_gc :
    RunOk Op.CreatesClean Db.empty [.updateStorage 1 1 5,
      .updateAccount 1 (some ⟨0, 0, kEmptyHash, 0⟩) none, .gc 10,
      .updateAccount 2 none (some ⟨1, 0, kEmptyHash, 0⟩)] ∧
    (Db.empty.run [.updateStorage 1 1 5, .updateAccount 1 (some ⟨0, 0, kEmptyHash, 0⟩) none, .gc 10,
      .updateAccount 2 none (some ⟨1, 0, kEmptyHash, 0⟩)]).world =
      World.run Op.worldStepAmended World.empty [.updateStorage 1 1 5,
        .updateAccount 1 (some ⟨0, 0, kEmptyHash, 0⟩) none, .gc 10,
        .updateAccount 2 none (some ⟨1, 0, kEmptyHash, 0⟩)] :=
  have h : RunOk Op.CreatesClean Db.empty [.updateStorage 1 1 5,
      .updateAccount 1 (some ⟨0, 0, kEmptyHash, 0⟩) none, .gc 10,
      .updateAccount 2 none (some ⟨1, 0, kEmptyHash, 0⟩)] :=
    .cons (by decide) (.cons (by decide) (.cons (by decide) (.cons (by decide) (.nil _))))
  ⟨h, (world_refines _ h).1⟩

/-- The description's own step leaves the tables at the first call whose two snapshots agree:
`update_account` returns at once, where the description creates the account. -/
theorem world_step_diverges :
    (Db.empty.run
      [.updateAccount 0 (some ⟨1, 0, kEmptyHash, 0⟩) (some ⟨1, 0, kEmptyHash, 0⟩)]).world ≠
      World.run Op.worldStep World.empty
        [.updateAccount 0 (some ⟨1, 0, kEmptyHash, 0⟩) (some ⟨1, 0, kEmptyHash, 0⟩)] := by
  intro h
  have := congrFun h 0
  simp [World.run, Op.worldStep, World.empty, Op.apply, Db.updateAccount, Db.world_empty] at this

end EvmContract
