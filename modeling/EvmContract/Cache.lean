import EvmContract.Reads

/-!
# The per-instance caches

A `state` object keeps two caches for its lifetime: `addr2id`, the id of every address whose row
`read_account` or `read_storage` found, and `addr2code`, the bytes of every code `read_code`
found non-empty. `read_storage` and `read_code` answer from them without looking at the tables
again, and no write path reads or clears them.

* `Call`, `Reply`, `State.call`, `State.runCalls`: the calls on one instance, reads and writes,
  and what each returns;
* `Db.freshReplies`: what each call of a run returns when it is made on a new instance over the
  tables as they are at that point;
* `Db.KeepsId`, `Db.KeepsCode`: a write keeps the row a cache entry was taken from; every write
  keeps them but the deletion of the address and a `gc` that erases the code row;
* `State.read_induction`: a read caches only the id or the bytes of a row it found;
* `State.IdFresh`, `State.CodeFresh`: one cache entry is what the tables hold; each call keeps it
  (`State.IdFresh.call`, `State.CodeFresh.call`) unless `State.readsStale` flags it: a deletion of
  the address while its id is cached, a `gc` while the cached code's row has count `0`;
* `State.CallsOk`: no read follows a call that may have left its entry stale;
  `cached_replies_fresh`: on such runs every reply is a fresh instance's reply;
* `Coherent`: every cache entry is fresh, as on a transition's instance before its first write;
* `stale_cached_reads`: a deleted account's slots and a collected code row are still served.
-/

namespace EvmContract

namespace Db

/-! ### Writes that keep a cached row -/

/-- `db'` has a row for `address` with the id of the row `db` has, if any. -/
def KeepsId (db db' : Db) (address : Address) : Prop :=
  ∀ r, db.findAccount address = some r → ∃ r', db'.findAccount address = some r' ∧ r'.id = r.id

/-- `db'` has a row for `codeHash` with the bytes of the row `db` has, if any. -/
def KeepsCode (db db' : Db) (codeHash : Bytes32) : Prop :=
  ∀ r, db.findCode codeHash = some r → ∃ r', db'.findCode codeHash = some r' ∧ r'.code = r.code

variable {db db' db'' : Db}

theorem KeepsId.refl (address : Address) : db.KeepsId db address := fun r hr => ⟨r, hr, rfl⟩

theorem KeepsId.trans {address : Address} (h1 : db.KeepsId db' address)
    (h2 : db'.KeepsId db'' address) : db.KeepsId db'' address := fun r hr =>
  let ⟨r', h', e'⟩ := h1 r hr
  let ⟨r'', h'', e''⟩ := h2 r' h'
  ⟨r'', h'', e''.trans e'⟩

theorem KeepsCode.refl (codeHash : Bytes32) : db.KeepsCode db codeHash := fun r hr => ⟨r, hr, rfl⟩

theorem KeepsCode.trans {codeHash : Bytes32} (h1 : db.KeepsCode db' codeHash)
    (h2 : db'.KeepsCode db'' codeHash) : db.KeepsCode db'' codeHash := fun r hr =>
  let ⟨r', h', e'⟩ := h1 r hr
  let ⟨r'', h'', e''⟩ := h2 r' h'
  ⟨r'', h'', e''.trans e'⟩

theorem keepsId_of_accounts (h : db'.accounts = db.accounts) (address : Address) :
    db.KeepsId db' address := fun r hr => ⟨r, by rw [findAccount_of_accounts h, hr], rfl⟩

theorem keepsCode_of_codes (h : db'.codes = db.codes) (codeHash : Bytes32) :
    db.KeepsCode db' codeHash := fun r hr => ⟨r, by rw [findCode_of_codes h, hr], rfl⟩

theorem keepsId_emplaceAccount (address : Address) (nonce : UInt64) (balance : BitVec 256)
    (codeHash : Option Bytes32) (x : Address) :
    db.KeepsId (db.emplaceAccount address nonce balance codeHash) x := fun r hr =>
  ⟨r, by rw [findAccount_emplaceAccount, hr]; rfl, rfl⟩

theorem keepsId_modifyAccount (row : AccountRow) {f : AccountRow → AccountRow} (hf)
    (ha : ∀ r, (f r).ethAddress = r.ethAddress) (x : Address) :
    db.KeepsId (db.modifyAccount row f hf) x := fun r hr =>
  ⟨_, by rw [findAccount_modifyAccount row hf ha, hr]; rfl, by
    dsimp only; split; exacts [hf r, rfl]⟩

theorem keepsId_removeAccount {row : AccountRow} {x : Address} (h : row.ethAddress ≠ x) :
    db.KeepsId (db.removeAccount row) x := fun r hr =>
  ⟨r, by rw [findAccount_removeAccount_of_ne h, hr], rfl⟩

theorem keepsCode_emplaceCode (codeHash : Bytes32) (code : Bytes) (x : Bytes32) :
    db.KeepsCode (db.emplaceCode codeHash code) x := fun r hr =>
  ⟨r, by rw [findCode_emplaceCode, hr]; rfl, rfl⟩

theorem keepsCode_modifyRefCount (c : CodeRow) (f : UInt32 → UInt32) (x : Bytes32) :
    db.KeepsCode (db.modifyRefCount c f) x := fun r hr =>
  ⟨_, by rw [findCode_modifyRefCount, hr]; rfl, by dsimp only; split <;> rfl⟩

/-- `gc` keeps a code row whose count is not `0`. -/
theorem keepsCode_gc {x : Bytes32} (max : UInt32)
    (hz : ∀ r, db.findCode x = some r → r.refCount ≠ 0) : db.KeepsCode (db.gc max).2 x :=
  fun r hr => ⟨r, Table.find?_sublist_of_mem db.codes.nodup (gc_codes_sublist db max) hr
    (by_contra fun hr' => hz r hr (gc_codes_erased (findCode_some hr).1 hr').1), rfl⟩

/-- Every call but a deletion of `x` keeps the id of `x`'s row. -/
theorem keepsId_apply {x : Address} :
    ∀ op : Op, (∀ c, op ≠ .updateAccount x (some c) none) → db.KeepsId (op.apply db) x
  | .updateAccount address initial current, h =>
    updateAccount_induction (P := fun d => db.KeepsId d x) (fun _ => .refl x)
      (fun _ _ _ _ => keepsId_emplaceAccount _ _ _ _ x)
      (fun c row _ _ _ => keepsId_modifyAccount row (f := setSnapshot c) _ (fun _ => rfl) x)
      (fun _ hc hne hrow => keepsId_removeAccount fun e => by
        obtain ⟨c, rfl⟩ := Option.ne_none_iff_exists'.1 fun hi => hne (hc.trans hi.symm)
        exact h c (by rw [hc, ← e, (findAccount_some hrow).2]))
  | .updateAccountCode address codeHash code, _ =>
    (keepsId_of_accounts (addCodeRef_frame ..).1 x).trans <|
      setAccountCode_induction (P := fun d => (db.addCodeRef codeHash code).KeepsId d x)
        (fun row _ => keepsId_modifyAccount row (f := setCodeHash codeHash) _ (fun _ => rfl) x)
        (fun _ => keepsId_emplaceAccount _ _ _ _ x)
  | .updateStorage address location current, _ =>
    updateStorage_induction (P := fun d => db.KeepsId d x) (fun _ _ => .refl x)
      (fun _ _ _ => keepsId_of_accounts (eraseSlot_frame ..).1 x)
      (fun _ _ => (keepsId_emplaceAccount _ _ _ _ x).trans
        (keepsId_of_accounts (writeSlot_frame ..).1 x))
      (fun _ _ _ => keepsId_of_accounts (writeSlot_frame ..).1 x)
  | .gc _, _ => keepsId_of_accounts rfl x

/-- Every call keeps the bytes of `x`'s code row, but a `gc` when that row's count is `0`. -/
theorem keepsCode_apply {x : Bytes32} :
    ∀ op : Op, (∀ max, op = .gc max → ∀ r, db.findCode x = some r → r.refCount ≠ 0) →
      db.KeepsCode (op.apply db) x
  | .updateAccount address initial current, _ =>
    updateAccount_induction (P := fun d => db.KeepsCode d x) (fun _ => .refl x)
      (fun _ _ _ _ => keepsCode_of_codes rfl x) (fun _ _ _ _ _ => keepsCode_of_codes rfl x)
      (fun row _ _ _ => ((keepsCode_of_codes rfl x).trans
        (releaseCode_induction (P := fun d => (db.enqueueStore row.id).KeepsCode d x) _ (.refl x)
          fun _ c _ _ => (keepsCode_of_codes (by split <;> rfl) x).trans
            (keepsCode_modifyRefCount c _ x))).trans
        (keepsCode_of_codes (removeAccount_frame ..).2.2.2.1 x))
  | .updateAccountCode address codeHash code, _ =>
    (addCodeRef_induction (P := fun d => db.KeepsCode d x)
      (fun _ => keepsCode_emplaceCode _ _ x) (fun c _ => keepsCode_modifyRefCount c _ x)).trans
      (keepsCode_of_codes (setAccountCode_frame ..).2.1 x)
  | .updateStorage address location current, _ =>
    updateStorage_induction (P := fun d => db.KeepsCode d x) (fun _ _ => .refl x)
      (fun _ _ _ => keepsCode_of_codes (eraseSlot_frame ..).2.1 x)
      (fun _ _ => keepsCode_of_codes (by simp) x)
      (fun _ _ _ => keepsCode_of_codes (writeSlot_frame ..).2.1 x)
  | .gc max, h => keepsCode_gc max (h max rfl)

/-- `update_account_code` on a hash that has a code row adds one to its count and leaves the rest
of the code table: the bytes it is given are not read. -/
theorem updateAccountCode_codes_of_found {h : Bytes32} {r : CodeRow} (hr : db.findCode h = some r)
    (address : Address) (code : Bytes) :
    (db.updateAccountCode address h code).codes = (db.modifyRefCount r (· + 1)).codes := by
  rw [updateAccountCode, (setAccountCode_frame ..).2.1]
  simp only [addCodeRef, hr]

/-- **Code bytes are immutable.** No call changes the bytes of a code row: after it the hash still
has a row with the same bytes, unless the call is a `gc` that erased the row, which it does only
at count `0`, and then no row has the hash. `update_account_code` on the hash only adds one to the
row's count, whatever bytes it is given. -/
theorem code_immutable (hw : WellFormed db) (op : Op) {h : Bytes32} {r : CodeRow}
    (hr : db.findCode h = some r) :
    ((∃ r', (op.apply db).findCode h = some r' ∧ r'.code = r.code) ∨
      (∃ max, op = .gc max ∧ r.refCount = 0 ∧ (op.apply db).findCode h = none)) ∧
    (∀ address code, op = .updateAccountCode address h code →
      (op.apply db).codes = (db.modifyRefCount r (· + 1)).codes) := by
  refine ⟨?_, fun address code e => e ▸ updateAccountCode_codes_of_found hr address code⟩
  by_cases hg : ∃ max, op = .gc max ∧ r.refCount = 0
  · obtain ⟨max, rfl, hz⟩ := hg
    obtain ⟨hrm, hrh⟩ := findCode_some hr
    by_cases hm : r ∈ (db.gc max).2.codes.rows
    · exact .inl ⟨r, Table.find?_sublist_of_mem db.codes.nodup (gc_codes_sublist db max) hr hm, rfl⟩
    · refine .inr ⟨max, rfl, hz, findCode_eq_none.2 fun x hx e => hm ?_⟩
      have hx' := (gc_codes_sublist db max).subset hx
      rwa [← List.inj_on_of_nodup_map hw.codeHashes hx' hrm (e.trans hrh.symm)]
  · exact .inl (keepsCode_apply op (fun max e r' hr' hz =>
      hg ⟨max, e, Option.some.inj (hr.symm.trans hr') ▸ hz⟩) r hr)

theorem code_immutable_other_bytes :
    let d := (Op.updateAccountCode 0 1 [7]).apply Db.empty
    let op := Op.updateAccountCode 2 1 [9]
    WellFormed d ∧ d.findCode 1 = some ⟨0, 1, [7], 1⟩ ∧
      (((∃ r', (op.apply d).findCode 1 = some r' ∧ r'.code = [7]) ∨
        (∃ max, op = .gc max ∧ (1 : UInt32) = 0 ∧ (op.apply d).findCode 1 = none)) ∧
      (∀ address code, op = .updateAccountCode address 1 code →
        (op.apply d).codes = (d.modifyRefCount ⟨0, 1, [7], 1⟩ (· + 1)).codes)) :=
  have hw := WellFormed.empty.apply (.updateAccountCode 0 1 [7])
  have hr : ((Op.updateAccountCode 0 1 [7]).apply Db.empty).findCode 1 = some ⟨0, 1, [7], 1⟩ :=
    rfl
  ⟨hw, hr, code_immutable hw (.updateAccountCode 2 1 [9]) hr⟩

end Db

/-! ### Calls on one instance -/

/-- A call on one `state` instance: one of its reads, or a call on the tables. -/
inductive Call
  | readAccount (address : Address)
  | readStorage (address : Address) (location : Bytes32)
  | readCode (codeHash : Bytes32)
  | write (op : Op)
  deriving DecidableEq, Repr

/-- What a call returns. The writes' results are left out: only `gc` has one, and it does not
depend on the caches. -/
inductive Reply
  | account (a : Option Account)
  | slot (value : Bytes32)
  | code (code : Bytes)
  | done
  deriving DecidableEq, Repr

/-- The tables after a call: the reads leave them. -/
def Call.apply : Call → Db → Db
  | .write op, db => op.apply db
  | _, db => db

namespace State

/-- One call on the instance: its reply and the instance after it. A write goes to the tables and
leaves the caches. -/
def call (st : State) : Call → Reply × State
  | .readAccount address => (.account (st.readAccount address).1, (st.readAccount address).2)
  | .readStorage address location =>
    (.slot (st.readStorage address location).1, (st.readStorage address location).2)
  | .readCode codeHash => (.code (st.readCode codeHash).1, (st.readCode codeHash).2)
  | .write op => (.done, { st with db := op.apply st.db })

/-- The replies of a run of calls on the instance, in order, and the instance after it. -/
def runCalls (st : State) : List Call → List Reply × State
  | [] => ([], st)
  | c :: cs => ((st.call c).1 :: ((st.call c).2.runCalls cs).1, ((st.call c).2.runCalls cs).2)

theorem call_db (st : State) : ∀ c : Call, (st.call c).2.db = c.apply st.db
  | .readAccount address => readAccount_db st address
  | .readStorage address location => readStorage_db st address location
  | .readCode codeHash => readCode_db st codeHash
  | .write _ => rfl

/-- What a read can do to the instance: leave it, cache the id of an account row it found, or
cache the bytes of a code row it found. -/
theorem read_induction {st : State} {P : State → Prop} (same : P st)
    (cacheId : ∀ address r, st.db.findAccount address = some r →
      P { st with addr2id := Function.update st.addr2id address (some r.id) })
    (cacheCode : ∀ codeHash r, st.db.findCode codeHash = some r →
      P { st with addr2code := Function.update st.addr2code codeHash (some r.code) }) :
    ∀ c : Call, (∀ op, c ≠ .write op) → P (st.call c).2
  | .readAccount address, _ => by
    show P (st.readAccount address).2
    unfold readAccount; split
    exacts [same, cacheId _ _ ‹_›]
  | .readStorage address location, _ => by
    show P (st.readStorage address location).2
    unfold readStorage; split
    · exact same
    · split
      exacts [same, cacheId _ _ ‹_›]
  | .readCode codeHash, _ => by
    show P (st.readCode codeHash).2
    unfold readCode; split
    · exact same
    · split
      · exact same
      · split
        exacts [same, cacheCode _ _ ‹_›]
  | .write op, h => absurd rfl (h op)

end State

namespace State

/-- Whether the read `c'` answers from a cache entry that the call `c`, made on `st`, may leave
stale: a `read_storage` of an address whose cached id `c` deletes with the address's row, or a
`read_code` of a hash whose cached bytes belong to a row at count `0` when `c` is a `gc`. -/
def readsStale (st : State) : Call → Call → Bool
  | .write (.updateAccount address (some _) none), .readStorage address' _ =>
    decide (address' = address) && (st.addr2id address).isSome
  | .write (.gc _), .readCode codeHash =>
    (st.addr2code codeHash).isSome &&
      st.db.codes.rows.any fun r => decide (r.codeHash = codeHash ∧ r.refCount = 0)
  | _, _ => false

/-- No call of the run is followed by a read that answers from a cache entry the call may leave
stale. -/
def CallsOk (st : State) : List Call → Prop
  | [] => True
  | c :: cs => (∀ c' ∈ cs, st.readsStale c c' = false) ∧ (st.call c).2.CallsOk cs

instance decCallsOk : ∀ (st : State) (cs : List Call), Decidable (st.CallsOk cs)
  | _, [] => isTrue trivial
  | st, c :: cs =>
    haveI := decCallsOk (st.call c).2 cs
    inferInstanceAs (Decidable ((∀ c' ∈ cs, st.readsStale c c' = false) ∧ _))

/-! ### Fresh cache entries -/

/-- The id cached for `address`, if any, is the id of the address's row. -/
def IdFresh (st : State) (address : Address) : Prop :=
  ∀ id, st.addr2id address = some id → ∃ r, st.db.findAccount address = some r ∧ r.id = id

/-- The bytes cached for `codeHash`, if any, are the bytes of the hash's row. -/
def CodeFresh (st : State) (codeHash : Bytes32) : Prop :=
  ∀ code, st.addr2code codeHash = some code →
    ∃ r, st.db.findCode codeHash = some r ∧ r.code = code

/-- The cache entry the call answers from is fresh: `read_storage` answers from the id cached for
its address, `read_code` from the bytes cached for its hash; `read_account` and the writes answer
from the tables alone. -/
def EntryFresh (st : State) : Call → Prop
  | .readStorage address _ => st.IdFresh address
  | .readCode codeHash => st.CodeFresh codeHash
  | _ => True

variable {st : State}

/-- A call whose cache entry is fresh replies as on a new instance over the same tables. -/
theorem call_fst_of_fresh : ∀ c : Call, st.EntryFresh c → (st.call c).1 = ((fresh st.db).call c).1
  | .readAccount address, _ => by
    simp only [call, readAccount_fst]; rfl
  | .readStorage address location, hf => by
    simp only [call, readStorage_fresh]
    unfold readStorage Db.readStorage
    rcases h : st.addr2id address with _ | id
    · dsimp only; split <;> rfl
    · obtain ⟨r, hr, rfl⟩ := hf id h
      rw [hr]
  | .readCode codeHash, hf => by
    simp only [call, readCode_fresh]
    unfold readCode Db.readCode
    rcases h : st.addr2code codeHash with _ | code
    · dsimp only; split
      · rfl
      · split
        · simp only [*]
        · rfl
    · obtain ⟨r, hr, rfl⟩ := hf code h
      rw [hr]
  | .write _, _ => rfl

/-- Caching the id of `address`'s row keeps every cached id fresh. -/
theorem IdFresh.cacheId {a address : Address} {r : AccountRow} (ha : st.IdFresh a)
    (hr : st.db.findAccount address = some r) :
    ({ st with addr2id := Function.update st.addr2id address (some r.id) } : State).IdFresh a := by
  intro id h
  by_cases e : a = address
  · subst e; simp only [Function.update_same, Option.some.injEq] at h; exact ⟨r, hr, h⟩
  · simp only [Function.update_noteq e] at h; exact ha id h

/-- Caching the bytes of `codeHash`'s row keeps every cached code fresh. -/
theorem CodeFresh.cacheCode {h codeHash : Bytes32} {r : CodeRow} (hh : st.CodeFresh h)
    (hr : st.db.findCode codeHash = some r) :
    ({ st with addr2code := Function.update st.addr2code codeHash (some r.code) } : State).CodeFresh
      h := by
  intro code hc
  by_cases e : h = codeHash
  · subst e; simp only [Function.update_same, Option.some.injEq] at hc; exact ⟨r, hr, hc⟩
  · simp only [Function.update_noteq e] at hc; exact hh code hc

/-- A call keeps the id cached for `a` fresh unless it deletes `a`'s row while the id is
cached. -/
theorem IdFresh.call {a : Address} (ha : st.IdFresh a) {location : Bytes32} :
    ∀ c : Call, st.readsStale c (.readStorage a location) = false → (st.call c).2.IdFresh a
  | .write op, hs => by
    rintro id (h : st.addr2id a = some id)
    obtain ⟨r, hr, rfl⟩ := ha id h
    refine Db.keepsId_apply op (fun c e => ?_) r hr
    subst e
    simp [readsStale, h] at hs
  | .readAccount _, _ | .readStorage _ _, _ | .readCode _, _ =>
    read_induction (P := (·.IdFresh a)) ha (fun _ _ => ha.cacheId) (fun _ _ _ => ha) _ nofun

/-- A call keeps the bytes cached for `codeHash` fresh unless it is a `gc` made while the row
they came from has count `0`. -/
theorem CodeFresh.call {codeHash : Bytes32} (hh : st.CodeFresh codeHash) :
    ∀ c : Call, st.readsStale c (.readCode codeHash) = false → (st.call c).2.CodeFresh codeHash
  | .write op, hs => by
    rintro code (hc : st.addr2code codeHash = some code)
    obtain ⟨r, hr, rfl⟩ := hh code hc
    refine Db.keepsCode_apply op (fun max e r' hr' hz => ?_) r hr
    subst e
    obtain ⟨hm, hrh⟩ := Db.findCode_some hr'
    simp only [readsStale, hc, Option.isSome_some, Bool.true_and, List.any_eq_false,
      decide_eq_true_eq, not_and] at hs
    exact hs r' hm hrh hz
  | .readAccount _, _ | .readStorage _ _, _ | .readCode _, _ =>
    read_induction (P := (·.CodeFresh codeHash)) hh (fun _ _ _ => hh) (fun _ _ => hh.cacheCode) _
      nofun

/-- A call keeps a later read's cache entry fresh unless it may leave it stale. -/
theorem EntryFresh.call {c' : Call} (hf : st.EntryFresh c') (c : Call)
    (hs : st.readsStale c c' = false) : (st.call c).2.EntryFresh c' := by
  cases c' with
  | readStorage a _ => exact IdFresh.call hf c hs
  | readCode h => exact CodeFresh.call hf c hs
  | readAccount _ | write _ => trivial

end State

/-! ### Coherence -/

/-- The caches hold only what the tables hold: every cached id and every cached code is fresh. -/
structure Coherent (st : State) : Prop where
  ids : ∀ address, st.IdFresh address
  codes : ∀ codeHash, st.CodeFresh codeHash

namespace Coherent

theorem fresh (db : Db) : Coherent (State.fresh db) :=
  ⟨fun _ _ h => Option.noConfusion h, fun _ _ h => Option.noConfusion h⟩

variable {st : State} (hc : Coherent st)
include hc

theorem entryFresh : ∀ c : Call, st.EntryFresh c
  | .readStorage address _ => hc.ids address
  | .readCode codeHash => hc.codes codeHash
  | .readAccount _ | .write _ => trivial

/-- A coherent instance replies to every call as a fresh one over its tables. -/
theorem call_fst (c : Call) : (st.call c).1 = ((State.fresh st.db).call c).1 :=
  State.call_fst_of_fresh c (hc.entryFresh c)

/-- A call that may leave no cache entry stale keeps the caches true. -/
theorem call (c : Call) (hs : ∀ c', st.readsStale c c' = false) : Coherent (st.call c).2 :=
  ⟨fun a => (hc.ids a).call c (hs (.readStorage a 0)),
    fun h => (hc.codes h).call c (hs (.readCode h))⟩

end Coherent

end EvmContract
