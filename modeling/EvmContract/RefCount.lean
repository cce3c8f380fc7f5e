import EvmContract.Reads
import Mathlib.Logic.Relation

/-!
# Code reference counts

`account_code` rows are shared by content: one row per code hash, whose `ref_count` is meant to
count the accounts that have the hash. `update_account_code` adds one (creating the row with count
one), the delete path of `update_account` drops one and queues the row for `gc` at count one or
less, and `gc` erases a queued row whose count is zero.

* `Db.refs db h`: the number of account rows whose stored code hash is `h`;
* `Db.deploy`: the pair of calls the EVM makes when it gives an account code, an `update_account`
  with the new snapshot and then `update_account_code` with its hash;
* `CodeRefs`: the invariant, every count exact, every referenced hash with its code row, no row for
  `kEmptyHash`; one preservation lemma per kind of call;
* `WfStep`: the steps of a well-formed run, a deploy onto an account without code or any other
  call that keeps code hashes;
* `codeRefs_of_wf`: along every well-formed run the counts are exact, provided no deploy finds its
  row at `2^32 - 1`, and `gc` frees no code an account refers to;
* `deploys_wrap_refCount`: without that bound `2^32` deploys wrap the `uint32` count to zero.
-/

namespace EvmContract
open Db

namespace Db

/-- The number of account rows whose code hash is `h`. -/
def refs (db : Db) (h : Bytes32) : Nat := db.accounts.rows.countP (·.codeHash = some h)

/-- The stored code hash of `address`: none for no row or no hash. -/
def storedHash (db : Db) (address : Address) : Option Bytes32 :=
  (db.findAccount address).bind (·.codeHash)

/-- The code hash `address` has as the EVM sees it: `kEmptyHash` for no row or no hash. -/
def codeHashOf (db : Db) (address : Address) : Bytes32 := (db.storedHash address).getD kEmptyHash

/-- A deploy: `update_account` with the new snapshot `c`, then `update_account_code` with its
code hash. -/
def deploy (db : Db) (address : Address) (initial : Option Account) (c : Account) (code : Bytes) :
    Db :=
  (db.updateAccount address initial (some c)).updateAccountCode address c.codeHash code

variable {db : Db}

theorem refs_of_rows {db' : Db} (h : db'.accounts.rows = db.accounts.rows) :
    db'.refs = db.refs := by
  funext x; simp only [refs, h]

theorem refs_emplaceAccount (address : Address) (nonce : UInt64) (balance : BitVec 256)
    (codeHash : Option Bytes32) (h : Bytes32) :
    (db.emplaceAccount address nonce balance codeHash).refs h =
      db.refs h + if codeHash = some h then 1 else 0 := by
  simp [refs, List.countP_append, List.countP_cons]

theorem refs_modifyAccount {row : AccountRow} (hr : row ∈ db.accounts.rows)
    {f : AccountRow → AccountRow} (hf) (h : Bytes32) :
    (db.modifyAccount row f hf).refs h + (if row.codeHash = some h then 1 else 0) =
      db.refs h + if (f row).codeHash = some h then 1 else 0 := by
  have := Table.countP_map_ite (fun r : AccountRow => decide (r.codeHash = some h)) f
    db.accounts.nodup hr
  simpa [refs] using this

theorem refs_removeAccount {row : AccountRow} (hr : row ∈ db.accounts.rows) (h : Bytes32) :
    (db.removeAccount row).refs h + (if row.codeHash = some h then 1 else 0) = db.refs h := by
  have := Table.countP_filter_ne (fun r : AccountRow => decide (r.codeHash = some h))
    db.accounts.nodup hr
  simpa [refs] using this

theorem refs_setAccountCode (address : Address) (codeHash h : Bytes32) :
    (db.setAccountCode address codeHash).refs h +
        (if db.storedHash address = some h then 1 else 0) =
      db.refs h + if codeHash = h then 1 else 0 := by
  refine setAccountCode_induction (P := fun d => d.refs h +
      (if db.storedHash address = some h then 1 else 0) = db.refs h + if codeHash = h then 1 else 0)
    (fun row hrow => ?_) (fun hA => ?_)
  · have := refs_modifyAccount (findAccount_some hrow).1 (f := setCodeHash codeHash)
      (fun _ => rfl) h
    simpa [storedHash, hrow, setCodeHash] using this
  · simp [refs_emplaceAccount, storedHash, hA]

/-- An `update_account` that writes a snapshot moves the address's reference from its old stored
hash to its new one. -/
theorem refs_updateAccount_some (address : Address) (initial : Option Account) (c : Account)
    (h : Bytes32) :
    (db.updateAccount address initial (some c)).refs h +
        (if db.storedHash address = some h then 1 else 0) =
      db.refs h + if (db.updateAccount address initial (some c)).storedHash address = some h
        then 1 else 0 := by
  refine updateAccount_induction (P := fun d => d.refs h +
      (if db.storedHash address = some h then 1 else 0) =
        db.refs h + if d.storedHash address = some h then 1 else 0)
    (fun _ => rfl) (fun c' _ _ hA => ?_) (fun c' row _ _ hrow => ?_)
    (fun _ h _ _ => absurd h (by simp))
  · simp [refs_emplaceAccount, storedHash, findAccount_emplaceAccount, hA]
  · have := refs_modifyAccount (findAccount_some hrow).1 (f := setSnapshot c') (fun _ => rfl) h
    simpa [storedHash, findAccount_modifyAccount row (f := setSnapshot c') (fun _ => rfl)
      (fun _ => rfl), hrow] using this

/-- The count of a hash other than `kEmptyHash` is blind to an empty stored hash. -/
theorem storedHash_ne_of_empty {address : Address} (he : db.codeHashOf address = kEmptyHash)
    {h : Bytes32} (hh : h ≠ kEmptyHash) : db.storedHash address ≠ some h := fun e => by
  rw [codeHashOf, e] at he; exact hh he

theorem updateAccount_codes_of_some (address : Address) (initial : Option Account) (c : Account) :
    (db.updateAccount address initial (some c)).codes = db.codes :=
  updateAccount_induction (P := fun d => d.codes = db.codes) (fun _ => rfl) (fun _ _ _ _ => rfl)
    (fun _ _ _ _ _ => rfl) (fun _ h _ _ => Option.noConfusion h)

theorem addCodeRef_codes_congr {db' : Db} (h : db'.codes = db.codes) (codeHash : Bytes32)
    (code : Bytes) :
    (db'.addCodeRef codeHash code).codes = (db.addCodeRef codeHash code).codes := by
  have hf : db'.findCode codeHash = db.findCode codeHash := by simp only [findCode, h]
  unfold addCodeRef
  rw [hf]
  split
  · simp only [emplaceCode_codes, h]
  · simp only [modifyRefCount_codes, h]

theorem deploy_codes (address : Address) (initial : Option Account) (c : Account) (code : Bytes) :
    (db.deploy address initial c code).codes = (db.addCodeRef c.codeHash code).codes := by
  rw [deploy, updateAccountCode, (setAccountCode_frame ..).2.1,
    addCodeRef_codes_congr (updateAccount_codes_of_some ..)]

theorem storedHash_of_accounts {db' : Db} (h : db'.accounts = db.accounts) :
    db'.storedHash = db.storedHash := by
  funext x; simp only [storedHash, findAccount_of_accounts h]

/-- A stored hash read back and stored again is unchanged, for every hash but `kEmptyHash`. -/
theorem storedCodeHash_getD_eq_some {h : Bytes32} (hh : h ≠ kEmptyHash) (o : Option Bytes32) :
    storedCodeHash (o.getD kEmptyHash) = some h ↔ o = some h := by
  rcases o with _ | x
  · simp [storedCodeHash, Ne.symm hh]
  · by_cases hx : x = kEmptyHash
    · subst hx; simp [storedCodeHash, Ne.symm hh]
    · simp [storedCodeHash, hx]

theorem storedCodeHash_of_ne {h : Bytes32} (hh : h ≠ kEmptyHash) : storedCodeHash h = some h :=
  if_neg hh

/-- A deploy adds one reference to its hash and leaves every other count of a non-empty hash. -/
theorem deploy_refs {address : Address} {initial : Option Account} {c : Account} (code : Bytes)
    (he : db.codeHashOf address = kEmptyHash) {h : Bytes32}
    (hh : h ≠ kEmptyHash) :
    (db.deploy address initial c code).refs h = db.refs h + if c.codeHash = h then 1 else 0 := by
  have hu := @refs_updateAccount_some db address initial c h
  rw [if_neg (storedHash_ne_of_empty he hh)] at hu
  unfold deploy updateAccountCode
  set u := db.updateAccount address initial (some c)
  have e1 : (u.addCodeRef c.codeHash code).refs = u.refs := refs_of_rows (by simp)
  have e2 : (u.addCodeRef c.codeHash code).storedHash = u.storedHash :=
    storedHash_of_accounts (by simp)
  have hs := @refs_setAccountCode (u.addCodeRef c.codeHash code) address c.codeHash h
  rw [e1, e2] at hs
  omega

/-- An account row with code hash `h` makes the count of `h` positive. -/
theorem refs_ne_zero {r : AccountRow} (hr : r ∈ db.accounts.rows) {h : Bytes32}
    (hh : r.codeHash = some h) : db.refs h ≠ 0 :=
  (List.countP_pos_iff.2 ⟨r, hr, by simpa using hh⟩).ne'

/-- Rewriting a count keeps a row of every hash the code table had. -/
theorem modifyRefCount_keeps (c : CodeRow) (f : UInt32 → UInt32) {x : CodeRow}
    (hx : x ∈ db.codes.rows) :
    ∃ y ∈ (db.modifyRefCount c f).codes.rows, y.codeHash = x.codeHash := by
  by_cases e : x = c
  · exact ⟨_, mem_modifyRefCount.2 (.inl ⟨e ▸ hx, rfl⟩), by rw [e]⟩
  · exact ⟨x, mem_modifyRefCount.2 (.inr ⟨hx, e⟩), rfl⟩

/-- `addCodeRef` keeps a row of every hash the code table had. -/
theorem addCodeRef_keeps (codeHash : Bytes32) (code : Bytes) {x : CodeRow}
    (hx : x ∈ db.codes.rows) :
    ∃ y ∈ (db.addCodeRef codeHash code).codes.rows, y.codeHash = x.codeHash :=
  addCodeRef_induction (P := fun d => ∃ y ∈ d.codes.rows, y.codeHash = x.codeHash)
    (fun _ => ⟨x, Table.mem_emplace.2 (.inl hx), rfl⟩) (fun c _ => modifyRefCount_keeps c _ hx)

/-- `addCodeRef` leaves a row of its hash. -/
theorem addCodeRef_has (codeHash : Bytes32) (code : Bytes) :
    ∃ y ∈ (db.addCodeRef codeHash code).codes.rows, y.codeHash = codeHash :=
  addCodeRef_induction (P := fun d => ∃ y ∈ d.codes.rows, y.codeHash = codeHash)
    (fun _ => ⟨_, Table.mem_emplace.2 (.inr rfl), rfl⟩)
    (fun _ hc => ⟨_, mem_modifyRefCount.2 (.inl ⟨(findCode_some hc).1, rfl⟩), (findCode_some hc).2⟩)

end Db

/-! ### The invariant -/

/-- The reference-count invariant of the code table. -/
structure CodeRefs (db : Db) : Prop where
  /-- Every code row's count is the number of account rows with its hash. -/
  count : ∀ c ∈ db.codes.rows, c.refCount.toNat = db.refs c.codeHash
  /-- Every account row whose code hash is not `kEmptyHash` has a code row with that hash. -/
  present : ∀ r ∈ db.accounts.rows, ∀ h, r.codeHash = some h → h ≠ kEmptyHash →
    ∃ c ∈ db.codes.rows, c.codeHash = h
  /-- No code row has the hash of empty code. -/
  noEmpty : ∀ c ∈ db.codes.rows, c.codeHash ≠ kEmptyHash

namespace CodeRefs

theorem empty : CodeRefs Db.empty :=
  ⟨fun _ h => absurd h (List.not_mem_nil _), fun _ h => absurd h (List.not_mem_nil _),
    fun _ h => absurd h (List.not_mem_nil _)⟩

variable {db : Db} (hi : CodeRefs db)
include hi

/-- A referenced hash other than `kEmptyHash` has its code row. -/
theorem present_of_refs {h : Bytes32} (hh : h ≠ kEmptyHash) (hr : db.refs h ≠ 0) :
    ∃ c ∈ db.codes.rows, c.codeHash = h := by
  obtain ⟨r, hr, hp⟩ := List.countP_pos_iff.1 (Nat.pos_of_ne_zero hr)
  exact hi.present r hr h (by simpa using hp) hh

/-- A write that keeps the code rows and every count of a hash other than `kEmptyHash` keeps the
invariant. -/
theorem of_refs {db' : Db} (hc : db'.codes.rows = db.codes.rows)
    (hr : ∀ h, h ≠ kEmptyHash → db'.refs h = db.refs h) : CodeRefs db' where
  count c hc' := by
    rw [hc] at hc'; rw [hr _ (hi.noEmpty c hc'), hi.count c hc']
  present r hr' h hh he := by
    rw [hc]; exact hi.present_of_refs he (hr h he ▸ refs_ne_zero hr' hh)
  noEmpty c hc' := hi.noEmpty c (hc ▸ hc')

/-- Deleting an account drops its reference: the count of its code row goes down by one. -/
theorem removeAccount (hw : WellFormed db) {row : AccountRow} (hrow : row ∈ db.accounts.rows) :
    CodeRefs (db.removeAccount row) := by
  have hr := fun h => refs_removeAccount hrow h
  have hcodes : (db.removeAccount row).codes =
      (row.codeHash.bind db.findCode).elim db.codes
        fun c => (db.modifyRefCount c decRefCount).codes :=
    (removeAccount_frame db row).2.2.2.1.trans (releaseCode_codes _)
  rcases hfc : row.codeHash.bind db.findCode with _ | c0 <;> rw [hfc] at hcodes
  · refine hi.of_refs (congrArg Table.rows hcodes) fun h hh => ?_
    have hne : row.codeHash ≠ some h := fun e => by
      obtain ⟨c, hc, rfl⟩ := hi.present row hrow _ e hh
      rw [e, Option.some_bind] at hfc
      exact findCode_eq_none.1 hfc c hc rfl
    simpa [hne] using hr h
  obtain ⟨h0, hch, hfc⟩ := Option.bind_eq_some.1 hfc
  obtain ⟨hc0, rfl⟩ := findCode_some hfc
  have hacc : ∀ r ∈ (db.removeAccount row).accounts.rows, r ∈ db.accounts.rows := fun r h => by
    simp only [removeAccount_frame, Table.rows_erase] at h; exact List.mem_of_mem_filter h
  refine ⟨fun c hc => ?_, fun r hr h hh he => ?_, fun c hc => ?_⟩
  · rw [hcodes, Option.elim, mem_modifyRefCount] at hc
    have h1 := hr c.codeHash
    rcases hc with ⟨-, rfl⟩ | ⟨hc, hne⟩
    · dsimp only at h1 ⊢
      rw [hch, if_pos rfl] at h1
      rw [decRefCount_toNat, hi.count c0 hc0]
      omega
    · have hh : c.codeHash ≠ c0.codeHash :=
        fun e => hne (List.inj_on_of_nodup_map hw.codeHashes hc hc0 e)
      rw [hch, if_neg (by simpa using Ne.symm hh)] at h1
      rw [hi.count c hc, ← h1, Nat.add_zero]
  · obtain ⟨c, hc, rfl⟩ := hi.present r (hacc r hr) h hh he
    rw [hcodes]
    exact modifyRefCount_keeps c0 _ hc
  · rw [hcodes, Option.elim, mem_modifyRefCount] at hc
    rcases hc with ⟨-, rfl⟩ | ⟨hc, -⟩
    exacts [hi.noEmpty c0 hc0, hi.noEmpty c hc]

/-- `gc` erases no code row an account row refers to: such a row's count is not `0`. -/
theorem gc_keeps_referenced (max : UInt32) {c : CodeRow} (hc : c ∈ db.codes.rows)
    (hc' : c ∉ (db.gc max).2.codes.rows) {r : AccountRow} (hr : r ∈ db.accounts.rows) :
    r.codeHash ≠ some c.codeHash := fun hh => by
  have := hi.count c hc
  rw [(gc_codes_erased hc hc').1, UInt32.toNat_zero] at this
  exact refs_ne_zero hr hh this.symm

/-- `gc` erases only rows whose count is `0`, and so no row an account refers to. -/
theorem gc (max : UInt32) : CodeRefs (db.gc max).2 where
  count c hc := by
    rw [show (db.gc max).2.refs = db.refs from refs_of_rows (by simp)]
    exact hi.count c ((gc_codes_sublist db max).subset hc)
  present r hr h hh he := by
    rw [gc_snd, gcRun_accounts] at hr
    obtain ⟨c, hc, rfl⟩ := hi.present r hr h hh he
    exact ⟨c, by_contra fun hc' => hi.gc_keeps_referenced max hc hc' hr hh, rfl⟩
  noEmpty c hc := hi.noEmpty c ((gc_codes_sublist db max).subset hc)

/-- A call on slots keeps the invariant: an account it creates has no code. -/
theorem updateStorage (address : Address) (location value : Bytes32) :
    CodeRefs (db.updateStorage address location value) := by
  refine updateStorage_induction (P := CodeRefs) (fun _ _ => hi) (fun row _ _ => ?_) (fun _ _ => ?_)
    (fun row _ _ => ?_)
  · exact hi.of_refs (by simp) fun _ _ => congrFun (refs_of_rows (by simp)) _
  · have h1 : CodeRefs (db.emplaceAccount address 0 0 (some kEmptyHash)) :=
      hi.of_refs rfl fun h hh => by simp [refs_emplaceAccount, Ne.symm hh]
    exact h1.of_refs (by simp) fun _ _ => congrFun (refs_of_rows (by simp)) _
  · exact hi.of_refs (by simp) fun _ _ => congrFun (refs_of_rows (by simp)) _

/-- An `update_account` that keeps the account's code hash keeps the invariant. -/
theorem keepCode {address : Address} {initial : Option Account} {c : Account}
    (hk : c.codeHash = db.codeHashOf address) :
    CodeRefs (db.updateAccount address initial (some c)) := by
  refine updateAccount_induction (P := CodeRefs) (fun _ => hi) (fun c' hcur _ hA => ?_)
    (fun c' row hcur _ hrow => ?_) (fun _ h _ _ => absurd h (by simp))
  · obtain rfl : c = c' := Option.some.inj hcur
    have he : c.codeHash = kEmptyHash := by simpa [codeHashOf, storedHash, hA] using hk
    exact hi.of_refs rfl fun h _ => by simp [refs_emplaceAccount, storedCodeHash, he]
  · obtain rfl : c = c' := Option.some.inj hcur
    refine hi.of_refs rfl fun h hh => ?_
    have hm := refs_modifyAccount (findAccount_some hrow).1 (f := setSnapshot c) (fun _ => rfl) h
    have hk' : c.codeHash = row.codeHash.getD kEmptyHash := by
      simpa [codeHashOf, storedHash, hrow] using hk
    simp only [setSnapshot, hk', storedCodeHash_getD_eq_some hh] at hm
    omega

/-- Deleting an account keeps the invariant. -/
theorem deleteAccount (hw : WellFormed db) (address : Address) (initial : Option Account) :
    CodeRefs (db.updateAccount address initial none) :=
  updateAccount_induction (P := CodeRefs) (fun _ => hi) (fun _ h _ _ => absurd h (by simp))
    (fun _ _ h _ _ => absurd h (by simp))
    (fun _ _ _ hrow => hi.removeAccount hw (findAccount_some hrow).1)

/-- A deploy below the `uint32` limit adds one to the count of its hash, creating the code row
with count one if there is none. -/
theorem deploy (hw : WellFormed db) {address : Address} {initial : Option Account} {c : Account}
    (code : Bytes) (hc : c.codeHash ≠ kEmptyHash) (he : db.codeHashOf address = kEmptyHash)
    (hb : ∀ r, db.findCode c.codeHash = some r → r.refCount.toNat + 1 < 2 ^ 32) :
    CodeRefs (db.deploy address initial c code) := by
  have hr : ∀ h, h ≠ kEmptyHash → (db.deploy address initial c code).refs h =
      db.refs h + if c.codeHash = h then 1 else 0 := fun h hh => deploy_refs code he hh
  have hold : ∀ x ∈ db.codes.rows, x.codeHash ≠ c.codeHash →
      x.refCount.toNat = (db.deploy address initial c code).refs x.codeHash := fun x hx hne => by
    rw [hr _ (hi.noEmpty x hx), if_neg (Ne.symm hne), Nat.add_zero, hi.count x hx]
  refine ⟨fun x hx => ?_, fun r hr' h hh he' => ?_, fun x hx => ?_⟩
  · rw [deploy_codes] at hx; revert hx
    refine addCodeRef_induction (P := fun d => x ∈ d.codes.rows → x.refCount.toNat = _)
      (fun hn hx => ?_) (fun c0 hc0 hx => ?_)
    · rcases Table.mem_emplace.1 hx with hx | rfl
      · exact hold x hx fun e => findCode_eq_none.1 hn x hx e
      · have h0 : db.refs c.codeHash = 0 := by
          by_contra h0
          obtain ⟨y, hy, e⟩ := hi.present_of_refs hc h0
          exact findCode_eq_none.1 hn y hy e
        rw [hr _ hc, h0, if_pos rfl]; rfl
    · obtain ⟨hc0m, hch0⟩ := findCode_some hc0
      rcases mem_modifyRefCount.1 hx with ⟨-, rfl⟩ | ⟨hx, hne⟩
      · dsimp only
        rw [uint32_toNat_add_one, Nat.mod_eq_of_lt (hb _ hc0), hi.count c0 hc0m, hch0, hr _ hc,
          if_pos rfl]
      · exact hold x hx fun e =>
          hne (List.inj_on_of_nodup_map hw.codeHashes hx hc0m (e.trans hch0.symm))
  · rw [deploy_codes]
    by_cases e : h = c.codeHash
    · exact e ▸ addCodeRef_has _ _
    · have hne : db.refs h ≠ 0 := by
        have := hr h he'
        rw [if_neg (Ne.symm e), Nat.add_zero] at this
        exact this ▸ refs_ne_zero hr' hh
      obtain ⟨x, hx, rfl⟩ := hi.present_of_refs he' hne
      exact addCodeRef_keeps _ _ hx
  · rw [deploy_codes] at hx; revert hx
    refine addCodeRef_induction (P := fun d => x ∈ d.codes.rows → x.codeHash ≠ kEmptyHash)
      (fun _ hx => ?_) (fun c0 hc0 hx => ?_)
    · rcases Table.mem_emplace.1 hx with hx | rfl
      exacts [hi.noEmpty x hx, hc]
    · rcases mem_modifyRefCount.1 hx with ⟨hc0m, rfl⟩ | ⟨hx, -⟩
      exacts [hi.noEmpty c0 hc0m, hi.noEmpty x hx]

end CodeRefs

/-! ### Well-formed runs -/

/-- A step of a well-formed run: a deploy (an `update_account` giving an account whose stored code
hash is empty the hash `c.codeHash ≠ kEmptyHash`, then `update_account_code` with that hash), an
`update_account` that keeps the account's code hash, a deletion, a call on slots, or `gc`. With
`bounded`, a deploy also finds its code row, if any, below the `uint32` limit. -/
inductive WfStep (bounded : Bool) : Db → Db → Prop
  | deploy {db : Db} (address : Address) (initial : Option Account) (c : Account) (code : Bytes)
      (hc : c.codeHash ≠ kEmptyHash) (he : db.codeHashOf address = kEmptyHash)
      (hb : bounded = true → ∀ r, db.findCode c.codeHash = some r → r.refCount.toNat + 1 < 2 ^ 32) :
      WfStep bounded db (db.deploy address initial c code)
  | keepCode {db : Db} (address : Address) (initial : Option Account) (c : Account)
      (hk : c.codeHash = db.codeHashOf address) :
      WfStep bounded db (db.updateAccount address initial (some c))
  | delete {db : Db} (address : Address) (initial : Option Account) :
      WfStep bounded db (db.updateAccount address initial none)
  | storage {db : Db} (address : Address) (location value : Bytes32) :
      WfStep bounded db (db.updateStorage address location value)
  | gc {db : Db} (max : UInt32) : WfStep bounded db (db.gc max).2

theorem WellFormed.wfStep {b : Bool} {db db' : Db} (hw : WellFormed db) (h : WfStep b db db') :
    WellFormed db' := by
  cases h with
  | deploy address initial c code =>
    exact (hw.apply (.updateAccount address initial (some c))).apply
      (.updateAccountCode address c.codeHash code)
  | keepCode address initial c => exact hw.apply (.updateAccount address initial (some c))
  | delete address initial => exact hw.apply (.updateAccount address initial none)
  | storage address location value => exact hw.apply (.updateStorage address location value)
  | gc max => exact hw.apply (.gc max)

theorem CodeRefs.wfStep {db db' : Db} (hw : WellFormed db) (hi : CodeRefs db)
    (h : WfStep true db db') : CodeRefs db' := by
  cases h with
  | deploy address initial c code hc he hb => exact hi.deploy hw code hc he (hb rfl)
  | keepCode _ _ _ hk => exact hi.keepCode hk
  | delete address initial => exact hi.deleteAccount hw address initial
  | storage address location value => exact hi.updateStorage address location value
  | gc max => exact hi.gc max

/-- **Code reference counts are exact below the `uint32` limit.** In every state of a well-formed
run from a fresh deployment whose deploys find their code rows below `2^32 - 1`, outside a
deploy step: every code row's count is the number of account rows with its hash, every account
row with a code hash other than `kEmptyHash` has a code row with that hash, and `gc` erases no
code row an account row refers to. -/
theorem codeRefs_of_wf {db : Db} (h : Relation.ReflTransGen (WfStep true) Db.empty db) :
    (∀ c ∈ db.codes.rows, c.refCount.toNat = db.refs c.codeHash) ∧
    (∀ r ∈ db.accounts.rows, ∀ h, r.codeHash = some h → h ≠ kEmptyHash →
      ∃ c ∈ db.codes.rows, c.codeHash = h) ∧
    ∀ max : UInt32, ∀ c ∈ db.codes.rows, c ∉ (db.gc max).2.codes.rows →
      ∀ r ∈ db.accounts.rows, r.codeHash ≠ some c.codeHash := by
  have hwi : WellFormed db ∧ CodeRefs db := by
    induction h with
    | refl => exact ⟨WellFormed.empty, CodeRefs.empty⟩
    | tail _ hs ih => exact ⟨ih.1.wfStep hs, ih.2.wfStep ih.1 hs⟩
  obtain ⟨-, hi⟩ := hwi
  exact ⟨hi.count, hi.present, fun max _ hc hc' _ hr => hi.gc_keeps_referenced max hc hc' hr⟩

theorem codeRefs_of_wf_deploy :
    Relation.ReflTransGen (WfStep true) Db.empty (Db.empty.deploy 0 none ⟨1, 0, 1, 0⟩ []) ∧
    ∀ c ∈ (Db.empty.deploy 0 none ⟨1, 0, 1, 0⟩ []).codes.rows,
      c.refCount.toNat = (Db.empty.deploy 0 none ⟨1, 0, 1, 0⟩ []).refs c.codeHash :=
  have h : Relation.ReflTransGen (WfStep true) Db.empty (Db.empty.deploy 0 none ⟨1, 0, 1, 0⟩ []) :=
    .single (.deploy 0 none _ [] (by decide) rfl fun _ _ hr => by cases hr)
  ⟨h, (codeRefs_of_wf h).1⟩

/-! ### The count wraps

Without the bound the count is a `uint32` that `+ 1` wraps: `2^32` deploys of one code at
distinct addresses leave its count at zero, with `2^32` accounts referring to it. -/

/-- A deploy at an address without a row appends one account row with the new hash. -/
theorem deploy_accounts_fresh {db : Db} {address : Address} {c : Account} (code : Bytes)
    (hc : c.codeHash ≠ kEmptyHash) (hA : db.findAccount address = none) :
    (db.deploy address none c code).accounts.rows = db.accounts.rows ++
      [⟨db.accounts.availablePrimaryKey 0, address, c.nonce, c.balance, some c.codeHash⟩] := by
  have h1 : db.updateAccount address none (some c) =
      db.emplaceAccount address c.nonce c.balance (some c.codeHash) := by
    rw [← storedCodeHash_of_ne hc]; simp [updateAccount, hA]
  have h2 : ((db.emplaceAccount address c.nonce c.balance (some c.codeHash)).addCodeRef
      c.codeHash code).findAccount address =
      some ⟨db.accounts.availablePrimaryKey 0, address, c.nonce, c.balance, some c.codeHash⟩ := by
    rw [findAccount_of_accounts (addCodeRef_frame ..).1, findAccount_emplaceAccount, hA]
    simp
  rw [deploy, h1, updateAccountCode, setAccountCode, h2]
  simp only [modifyAccount_accounts, Table.rows_modify, addCodeRef_frame, emplaceAccount_accounts,
    Table.rows_emplace]
  refine (List.map_congr_left fun x _ => ?_).trans (List.map_id _)
  split <;> simp_all [setCodeHash]

section Wrap

variable (h : Bytes32) (code : Bytes)

/-- The code `code` with hash `h` deployed at the addresses `0, …, n - 1` in turn, from a fresh
deployment. -/
def deployMany : Nat → Db
  | 0 => Db.empty
  | n + 1 => (deployMany n).deploy (BitVec.ofNat 160 n) none ⟨1, 0, h, 0⟩ code

/-- The account row `deployMany` creates at address `i`. -/
def deployedRow (i : Nat) : AccountRow := ⟨i, BitVec.ofNat 160 i, 1, 0, some h⟩

theorem nextKey_deployedRow (n : Nat) :
    Table.nextKey 0 ((List.range n).map (deployedRow h)) = n := by
  induction n with
  | zero => rfl
  | succ n ih =>
    rw [List.range_succ, List.map_append, List.map_singleton,
      @Table.nextKey_append_of_scope AccountRow _ 0 _ _ rfl, ih]
    exact max_eq_right (Nat.le_succ n)

variable {h}

/-- The rows `deployMany` creates have distinct addresses, none of them the next one. -/
theorem findAccount_deployedRow {db : Db} {n : Nat} (hn : n < 2 ^ 160)
    (hrows : db.accounts.rows = (List.range n).map (deployedRow h)) :
    db.findAccount (BitVec.ofNat 160 n) = none := by
  rw [findAccount_eq_none, hrows]
  simp only [List.mem_map, List.mem_range]
  rintro _ ⟨i, hi, rfl⟩ e
  have := congrArg BitVec.toNat e
  simp only [deployedRow, BitVec.toNat_ofNat, Nat.mod_eq_of_lt (show i < 2 ^ 160 by omega),
    Nat.mod_eq_of_lt hn] at this
  omega

/-- After `n + 1` deploys the code table holds one row, whose count is `n + 1` wrapped. -/
theorem deployMany_codes (n : Nat) : ∃ k : UInt32, k.toNat = (n + 1) % 2 ^ 32 ∧
    (deployMany h code (n + 1)).codes.rows = [⟨0, h, code, k⟩] := by
  induction n with
  | zero => exact ⟨1, rfl, by rw [deployMany, deployMany, deploy_codes]; rfl⟩
  | succ n ih =>
    obtain ⟨k, hk, hr⟩ := ih
    have hf : (deployMany h code (n + 1)).findCode h = some ⟨0, h, code, k⟩ := by
      simp [findCode, hr]
    refine ⟨k + 1, by rw [uint32_toNat_add_one, hk, Nat.mod_add_mod], ?_⟩
    rw [deployMany, deploy_codes, addCodeRef, hf]
    simp [hr]

variable (hh : h ≠ kEmptyHash)
include hh

theorem deployMany_accounts {n : Nat} (hn : n ≤ 2 ^ 160) :
    (deployMany h code n).accounts.rows = (List.range n).map (deployedRow h) := by
  induction n with
  | zero => rfl
  | succ n ih =>
    rw [deployMany, deploy_accounts_fresh code hh (findAccount_deployedRow (by omega)
      (ih (by omega))), ih (by omega), List.range_succ, List.map_append, List.map_singleton,
      Table.availablePrimaryKey, ih (by omega), nextKey_deployedRow]
    rfl

theorem deployMany_reachable {n : Nat} (hn : n ≤ 2 ^ 160) :
    Relation.ReflTransGen (WfStep false) Db.empty (deployMany h code n) := by
  induction n with
  | zero => exact .refl
  | succ n ih =>
    refine .tail (ih (by omega)) (.deploy _ none _ code hh ?_ fun e => absurd e (by decide))
    rw [codeHashOf, storedHash, findAccount_deployedRow (by omega)
      (deployMany_accounts code hh (by omega))]
    rfl

/-- `2^32` deploys of one code, at distinct addresses of accounts without code, leave its count
at zero while `2^32` accounts refer to it: the count is exact only below the `uint32` limit. -/
theorem deployMany_wraps :
    Relation.ReflTransGen (WfStep false) Db.empty (deployMany h code (2 ^ 32)) ∧
    ∃ c ∈ (deployMany h code (2 ^ 32)).codes.rows,
      c.refCount.toNat ≠ (deployMany h code (2 ^ 32)).refs c.codeHash := by
  have hn : 2 ^ 32 ≤ 2 ^ 160 := Nat.pow_le_pow_right (by decide) (by decide)
  obtain ⟨k, hk, hr⟩ := deployMany_codes code (2 ^ 32 - 1)
  rw [show 2 ^ 32 - 1 + 1 = 2 ^ 32 from rfl] at hk hr
  refine ⟨deployMany_reachable code hh hn, ⟨0, h, code, k⟩, hr ▸ List.mem_singleton_self _, ?_⟩
  rw [hk, refs, deployMany_accounts code hh hn, List.countP_eq_length.2 (by simp [deployedRow])]
  simp

end Wrap

/-- The code `[0]` deployed `2^32` times under its hash, keccak256 of the one byte `0x00`. -/
theorem deploys_wrap_refCount :
    let h : Bytes32 := 0xbc36789e7a1e281436464229828f817d6612f7b477d66591ff96a9e064bcc98a
    Relation.ReflTransGen (WfStep false) Db.empty (deployMany h [0] (2 ^ 32)) ∧
    ∃ c ∈ (deployMany h [0] (2 ^ 32)).codes.rows,
      c.refCount.toNat ≠ (deployMany h [0] (2 ^ 32)).refs c.codeHash :=
  deployMany_wraps [0] (by decide)

end EvmContract
